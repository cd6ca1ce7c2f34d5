import Realm.Proofs.Command.Globbing
import Realm.Proofs.Expansion

/-! How matches are put into a tree of commands. The arguments of a command are a list in which
each expression gives way to its matches, from the last one to the first, so that the places of
those before it stay what they are. This comes to the same as going through the arguments once. -/
namespace Realm

namespace Expansion

section Distinct

theorem distinct_cons (seen ts : List Text) (t : Text) : distinct seen (t :: ts) =
    if t ∈ seen then distinct seen ts else t :: distinct (t :: seen) ts := rfl

@[simp] theorem mem_distinct {seen ts : List Text} {t : Text} :
    t ∈ distinct seen ts ↔ t ∈ ts ∧ t ∉ seen := by
  induction ts generalizing seen with
  | nil => exact iff_of_false List.not_mem_nil fun h => List.not_mem_nil h.1
  | cons u ts ih =>
    rw [distinct_cons]
    by_cases hu : u ∈ seen
    · rw [if_pos hu,ih]
      by_cases htu : t = u <;> simp [htu,hu]
    · rw [if_neg hu,List.mem_cons,ih]
      by_cases htu : t = u <;> simp [htu,hu]

theorem nodup_distinct (seen ts : List Text) : (distinct seen ts).Nodup := by
  induction ts generalizing seen with
  | nil => exact .nil
  | cons u ts ih =>
    rw [distinct_cons]
    split
    · exact ih seen
    · exact List.nodup_cons.2 ⟨fun hu => (mem_distinct.1 hu).2 (.head _),ih _⟩

end Distinct

/-- The file expressions of a tree in the order in which a walk meets them, each of them once. -/
def expressions (t : CommandTree) : List Text :=
  distinct [] (t.walk.flatMap patternsOf)

section Calls

variable {σ : Type} {m : FileManager σ} {identity cwd : Text}

/-- Expressions that are looked up one after the other, all of them with success, and what is
found. -/
inductive Globs (m : FileManager σ) (identity cwd : Text) :
    List Text → σ → List (Text × List Text) → σ → Prop
  | nil {w : σ} : Globs m identity cwd [] w [] w
  | cons {p : Text} {ps names : List Text} {found : List (Text × List Text)} {w w₁ w' : σ} :
      glob m identity cwd p w = (.ok names,w₁) → Globs m identity cwd ps w₁ found w' →
    Globs m identity cwd (p :: ps) w ((p,names) :: found) w'

/-- Expressions that are looked up one after the other, up to one that fails. -/
inductive GlobFails (m : FileManager σ) (identity cwd : Text) :
    List Text → σ → Error → σ → Prop
  | here {p : Text} {ps : List Text} {e : Error} {w w' : σ} :
      glob m identity cwd p w = (.error e,w') → GlobFails m identity cwd (p :: ps) w e w'
  | later {p : Text} {ps names : List Text} {e : Error} {w w₁ w' : σ} :
      glob m identity cwd p w = (.ok names,w₁) → GlobFails m identity cwd ps w₁ e w' →
    GlobFails m identity cwd (p :: ps) w e w'

variable {ps : List Text} {found kept : List (Text × List Text)} {w w' : σ}

theorem Globs.keys_eq (h : Globs m identity cwd ps w found w') : found.map Prod.fst = ps := by
  induction h with
  | nil => rfl
  | cons _ _ ih => rw [List.map_cons,ih]

theorem globAll_ok : globAll m identity cwd ps w = (.ok kept,w') ↔
    ∃ found, Globs m identity cwd ps w found w' ∧ kept = found.filter (!·.2.isEmpty) := by
  constructor
  · intro h
    induction ps generalizing w kept with
    | nil =>
      cases h
      exact ⟨[],.nil,rfl⟩
    | cons p ps ih =>
      rw [globAll] at h
      obtain ⟨names,w₁,hglob,h⟩ := Action.bind_ok h
      obtain ⟨rest,w₂,hrest,h⟩ := Action.bind_ok h
      cases h
      obtain ⟨found,hfound,rfl⟩ := ih hrest
      refine ⟨(p,names) :: found,.cons hglob hfound,?_⟩
      cases names <;> rfl
  · rintro ⟨found,h,rfl⟩
    induction h with
    | nil => rfl
    | @cons p ps names found w w₁ w' hglob _ ih =>
      rw [globAll,Action.bind_eq,hglob]
      dsimp only
      rw [Action.bind_eq,ih]
      cases names <;> rfl

theorem globAll_error {e : Error} : globAll m identity cwd ps w = (.error e,w') ↔
    GlobFails m identity cwd ps w e w' := by
  constructor
  · intro h
    induction ps generalizing w with
    | nil => cases h
    | cons p ps ih =>
      rw [globAll,Action.bind_eq] at h
      rcases hglob : glob m identity cwd p w with ⟨err | names,w₁⟩
      · rw [hglob] at h
        cases h
        exact .here hglob
      · rw [hglob] at h
        dsimp only at h
        rw [Action.bind_eq] at h
        rcases hrest : globAll m identity cwd ps w₁ with ⟨err | rest,w₂⟩
        · rw [hrest] at h
          cases h
          exact .later hglob (ih hrest)
        · rw [hrest] at h
          cases h
  · intro h
    induction h with
    | here hglob => rw [globAll,Action.bind_eq,hglob]
    | later hglob _ ih =>
      rw [globAll,Action.bind_eq,hglob]
      dsimp only
      rw [Action.bind_eq,ih]

end Calls

def matchesOf (found : List (Text × List Text)) (arg : Text) : List Text :=
  (found.lookup arg).getD []

/-- A command in which each argument that is a file expression gives way to its matches, if it
has any. -/
def replaced (found : List (Text × List Text)) (c : Command) : Command :=
  { c with
    args := c.args.zipIdx.flatMap fun (arg,i) =>
      if i ∈ c.globArgs ∧ matchesOf found arg ≠ [] then matchesOf found arg else [arg]
    globArgs := [] }

theorem matchesOf_cons (p arg : Text) (names : List Text) (found : List (Text × List Text)) :
    matchesOf ((p,names) :: found) arg = if arg = p then names else matchesOf found arg := by
  by_cases h : arg = p
  · subst h
    simp [matchesOf]
  · simp [matchesOf,List.lookup_cons,beq_false_of_ne h,h]

theorem matchesOf_of_notMem {found : List (Text × List Text)} {arg : Text}
    (h : arg ∉ found.map Prod.fst) : matchesOf found arg = [] := by
  have hnone : found.lookup arg = none := by
    refine List.lookup_eq_none_iff.2 fun e he => bne_iff_ne.2 ?_
    rintro rfl
    exact h (List.mem_map_of_mem he)
  rw [matchesOf,hnone]
  rfl

theorem lookup_filter {found : List (Text × List Text)} (h : (found.map Prod.fst).Nodup)
    (arg : Text) : ((found.filter (!·.2.isEmpty)).lookup arg).getD [arg] =
      if matchesOf found arg ≠ [] then matchesOf found arg else [arg] := by
  induction found with
  | nil => rfl
  | cons e found ih =>
    obtain ⟨p,names⟩ := e
    obtain ⟨hp,h⟩ := List.nodup_cons.1 h
    have ih := ih h
    rw [matchesOf_cons]
    by_cases harg : arg = p
    · subst harg
      rw [matchesOf_of_notMem hp] at ih
      rw [if_pos rfl]
      cases names with
      | nil => exact ih
      | cons name names => simp
    · rw [if_neg harg,← ih]
      cases names with
      | nil => rfl
      | cons name names => simp [List.lookup_cons,beq_false_of_ne harg]

theorem splice_filter {found : List (Text × List Text)} (h : (found.map Prod.fst).Nodup)
    (c : Command) : splice (found.filter (!·.2.isEmpty)) c = replaced found c := by
  have hpiece (e : Text × Nat) :
      (if e.2 ∈ c.globArgs then ((found.filter (!·.2.isEmpty)).lookup e.1).getD [e.1] else [e.1]) =
        if e.2 ∈ c.globArgs ∧ matchesOf found e.1 ≠ [] then matchesOf found e.1 else [e.1] := by
    by_cases he : e.2 ∈ c.globArgs
    · rw [if_pos he,lookup_filter h]
      simp [he]
    · simp [he]
  simp only [splice,replaced,hpiece]

section InPlace

/-- Put the matches of the argument at a place in the place of it, if there are any. -/
def replaceAt (found : List (Text × List Text)) (args : List Text) (i : Nat) : List Text :=
  match args[i]?.bind (found.lookup ·) with
  | some names => args.take i ++ names ++ args.drop (i + 1)
  | none => args

/-- Replace the arguments of a command one by one, from the last place to the first. -/
def spliceInPlace (found : List (Text × List Text)) (c : Command) : Command :=
  { c with
    args := (c.globArgs.mergeSort (· ≤ ·)).reverse.foldl (replaceAt found) c.args
    globArgs := [] }

theorem replaceAt_append (found : List (Text × List Text)) (before args : List Text)
    (arg : Text) : replaceAt found (before ++ arg :: args) before.length =
      before ++ (found.lookup arg).getD [arg] ++ args := by
  rw [replaceAt,List.getElem?_append_right (Nat.le_refl _),Nat.sub_self]
  cases h : found.lookup arg with
  | none => simp [h]
  | some names => simp [h]

/-- Places that ascend, and what was there before they were gone through from the last one on.
What stands before the first of them is not touched. -/
theorem foldr_replaceAt (found : List (Text × List Text)) {P : Nat → Prop} [DecidablePred P]
    {places : List Nat} (before args : List Text) (hascend : places.Pairwise (· < ·))
    (hplaces : ∀ i ∈ places, before.length ≤ i ∧ i < before.length + args.length)
    (hP : ∀ i, before.length ≤ i → (i ∈ places ↔ P i)) :
    places.foldr (fun i args => replaceAt found args i) (before ++ args) =
      before ++ (args.zipIdx before.length).flatMap fun (arg,i) =>
        if P i then (found.lookup arg).getD [arg] else [arg] := by
  induction args generalizing before places with
  | nil =>
    obtain rfl : places = [] := List.eq_nil_iff_forall_not_mem.2 fun i hi => by
      have := hplaces i hi
      simp only [List.length_nil] at this
      omega
    simp
  | cons arg args ih =>
    have hlength : (before ++ [arg]).length = before.length + 1 := by simp
    rw [List.zipIdx_cons,List.flatMap_cons,← hlength]
    by_cases hhere : P before.length
    · obtain ⟨later,rfl⟩ : ∃ later, places = before.length :: later := by
        have hmem := (hP _ (Nat.le_refl _)).2 hhere
        cases places with
        | nil => cases hmem
        | cons i later =>
          have hle := (hplaces i (.head _)).1
          rcases List.mem_cons.1 hmem with rfl | hmem
          · exact ⟨later,rfl⟩
          · have hlt := (List.pairwise_cons.1 hascend).1 _ hmem
            omega
      obtain ⟨hlater,hascend⟩ := List.pairwise_cons.1 hascend
      have ih := ih (before ++ [arg]) hascend (fun i hi => ?_) fun i hi => ?_
      · rw [List.append_assoc,List.singleton_append] at ih
        rw [List.foldr_cons,ih,List.append_assoc,List.singleton_append,replaceAt_append]
        dsimp only
        rw [if_pos hhere,List.append_assoc]
      · have hlt := hlater i hi
        have hbound := (hplaces i (.tail _ hi)).2
        simp only [List.length_append,List.length_cons,List.length_nil] at hbound ⊢
        omega
      · rw [← hP i (by omega),List.mem_cons]
        exact ⟨.inr,fun h => h.resolve_left (by omega)⟩
    · have ih := ih (before ++ [arg]) hascend (fun i hi => ?_) fun i hi => hP i (by omega)
      · simpa [hhere] using ih
      · obtain ⟨hle,hlt⟩ := hplaces i hi
        have hne : i ≠ before.length := fun heq => hhere ((hP i hle).1 hi |> (heq ▸ ·))
        simp only [List.length_append,List.length_cons,List.length_nil] at hlt ⊢
        omega

/-- Replaced from the last one to the first, the arguments are what they are gone through once. -/
theorem spliceInPlace_eq (found : List (Text × List Text)) {c : Command} (h : c.GlobsInOrder) :
    spliceInPlace found c = splice found c := by
  obtain ⟨hascend,hbound⟩ := h
  have hsorted : c.globArgs.mergeSort (· ≤ ·) = c.globArgs :=
    List.mergeSort_of_pairwise (hascend.imp fun hlt => decide_eq_true (Nat.le_of_lt hlt))
  have hfold := foldr_replaceAt found (P := (· ∈ c.globArgs)) [] c.args
    hascend (fun i hi => ⟨Nat.zero_le _,by simpa using hbound i hi⟩) fun _ _ => .rfl
  rw [spliceInPlace,splice,hsorted,List.foldl_reverse]
  exact congrArg (fun args => { c with args, globArgs := [] }) hfold

variable {σ : Type}

def beside : Slot (CommandTree × σ) σ where
  get s := s.2
  set w s := (s.1,w)

/-- Expand the file expressions in all commands of a tree that is changed where it stands. -/
def expandInPlace (m : FileManager σ) (identity cwd : Text) : Action (CommandTree × σ) Unit := do
  let (t,_) ← get
  if (expressions t).isEmpty then pure ()
  else
    let found ← beside.run (globAll m identity cwd (expressions t))
    modify fun (t,w) => (t.map (spliceInPlace found),w)

variable {m : FileManager σ} {identity cwd : Text} {t : CommandTree}

theorem map_splice_of_expressions_nil (h : ∀ c ∈ t.walk, c.GlobsInOrder)
    (hnil : expressions t = []) (found : List (Text × List Text)) : t.map (splice found) = t := by
  refine (t.map_congr fun c hc => splice_eq_self ?_ found).trans t.map_id
  obtain ⟨-,hbound⟩ := h c hc
  refine List.eq_nil_iff_forall_not_mem.2 fun i hi => ?_
  have hmem : c.args.get ⟨i,hbound i hi⟩ ∈ expressions t :=
    mem_distinct.2 ⟨List.mem_flatMap.2 ⟨c,hc,List.mem_filterMap.2
      ⟨i,hi,List.getElem?_eq_getElem _⟩⟩,List.not_mem_nil⟩
  rw [hnil] at hmem
  cases hmem

theorem expand_eq (h : ∀ c ∈ t.walk, c.GlobsInOrder) (w : σ) :
    expand m identity cwd t w = match globAll m identity cwd (expressions t) w with
      | (.ok found,w') => (.ok (t.map (splice found)),w')
      | (.error e,w') => (.error e,w') := by
  show (if (expressions t).isEmpty then pure t else do
    let found ← globAll m identity cwd (expressions t)
    pure (t.map (splice found)) : Action σ CommandTree) w = _
  split
  · next hnone =>
    have hnil := List.isEmpty_iff.1 hnone
    rw [hnil]
    exact congrArg (fun t' => (Except.ok t',w)) (map_splice_of_expressions_nil h hnil []).symm
  · rw [Action.bind_eq]
    rcases globAll m identity cwd (expressions t) w with ⟨_ | _,_⟩ <;> rfl

theorem expandInPlace_eq (h : ∀ c ∈ t.walk, c.GlobsInOrder) (w : σ) :
    expandInPlace m identity cwd (t,w) = match expand m identity cwd t w with
      | (.ok t',w') => (.ok (),t',w')
      | (.error e,w') => (.error e,t,w') := by
  have hmap (found : List (Text × List Text)) :
      t.map (spliceInPlace found) = t.map (splice found) :=
    t.map_congr fun c hc => spliceInPlace_eq found (h c hc)
  rw [expand_eq h,expandInPlace,Action.get_bind]
  dsimp only
  split
  · next hnone =>
    have hnil := List.isEmpty_iff.1 hnone
    rw [hnil]
    exact congrArg (fun t' => (Except.ok (),t',w)) (map_splice_of_expressions_nil h hnil []).symm
  · have hrun : beside.run (globAll m identity cwd (expressions t)) (t,w) =
        ((globAll m identity cwd (expressions t) w).1,t,
          (globAll m identity cwd (expressions t) w).2) := rfl
    rw [Action.bind_eq,hrun]
    rcases globAll m identity cwd (expressions t) w with ⟨e | found,w'⟩
    · rfl
    · exact congrArg (fun t' => (Except.ok (),t',w')) (hmap found)

theorem expand_ok (h : ∀ c ∈ t.walk, c.GlobsInOrder) {t' : CommandTree} {w w' : σ} :
    expand m identity cwd t w = (.ok t',w') ↔
      ∃ found, Globs m identity cwd (expressions t) w found w' ∧ t' = t.map (replaced found) := by
  have hreplaced {found : List (Text × List Text)}
      (hfound : Globs m identity cwd (expressions t) w found w') :
      t.map (splice (found.filter (!·.2.isEmpty))) = t.map (replaced found) := by
    have hkeys : (found.map Prod.fst).Nodup := hfound.keys_eq ▸ nodup_distinct _ _
    exact t.map_congr fun c _ => splice_filter hkeys c
  rw [expand_eq h]
  constructor
  · intro hall
    split at hall
    · next kept _ hkept =>
      obtain ⟨found,hfound,rfl⟩ := globAll_ok.1 hkept
      cases hall
      exact ⟨found,hfound,hreplaced hfound⟩
    · cases hall
  · rintro ⟨found,hfound,rfl⟩
    rw [globAll_ok.2 ⟨found,hfound,rfl⟩,← hreplaced hfound]

theorem expand_error (h : ∀ c ∈ t.walk, c.GlobsInOrder) {e : Error} {w w' : σ} :
    expand m identity cwd t w = (.error e,w') ↔
      GlobFails m identity cwd (expressions t) w e w' := by
  rw [expand_eq h,← globAll_error]
  constructor
  · intro hall
    split at hall
    · cases hall
    · next herror =>
      cases hall
      exact herror
  · intro herror
    rw [herror]

end InPlace

/-- Whatever is read, the places of file expressions are among the arguments. -/
theorem globsInOrder_of_parseLine {σ : Type} {line : Text} {o : Options σ} {settings : Settings}
    {sub : Option History.Substitution} {parsed : ParsedLine} {tree : CommandTree} {u u' : σ}
    (h : parseLine line o settings sub u = (.ok parsed,u')) (htree : parsed.tree = some tree) :
    ∀ c ∈ tree.walk, c.GlobsInOrder := by
  obtain ⟨_,_,hcommands,-⟩ := parseLine_ok h
  obtain ⟨tokens,cs,hline⟩ := Parser.readsLine_of_commands hcommands
  have hlink := hline.linked h
  rw [htree] at hlink
  have hcs := hline.drawn (Q := fun _ => True) rfl fun _ _ => trivial
  have hlinks : ∀ l ∈ (Parser.compileAll cs u).1, l.1.GlobsInOrder := by
    intro l hl
    obtain ⟨c,hc,w',rfl⟩ := Parser.mem_compileAll hl
    obtain ⟨_,_,_,_,_,hdrawn⟩ := hcs c hc
    exact Command.compile_globsInOrder _ hdrawn.globArgs_eq w'
  intro c hc
  rw [CommandTree.walk_eq] at hc
  obtain ⟨part,hpart,rfl⟩ := List.mem_map.1 hc
  exact CommandTree.has_of_link (P := fun c _ => c.GlobsInOrder)
    (CommandTree.link_of_linkLine hlink) hlinks part hpart

/-- The tree of a line, expanded where it stands. If all of its expressions can be looked up, each
argument of each command that is one gives way to what was found for it, unless that is nothing,
and all else stays; if one of them cannot, its error is the answer, and all stays. What is made
of the tree without changing it is the same. -/
theorem expand_splices {σ τ : Type} {line : Text} {o : Options σ} {settings : Settings}
    {sub : Option History.Substitution} {parsed : ParsedLine} {tree : CommandTree} {u u' : σ}
    (h : parseLine line o settings sub u = (.ok parsed,u')) (htree : parsed.tree = some tree)
    (m : FileManager τ) (identity cwd : Text) (w : τ) :
    (∀ tree' w', expandInPlace m identity cwd (tree,w) = (.ok (),tree',w') ↔
      ∃ found, Globs m identity cwd (expressions tree) w found w' ∧
        tree' = tree.map (replaced found) ∧ tree'.walk = tree.walk.map (replaced found)) ∧
    (∀ e tree' w', expandInPlace m identity cwd (tree,w) = (.error e,tree',w') ↔
      GlobFails m identity cwd (expressions tree) w e w' ∧ tree' = tree) ∧
    expandInPlace m identity cwd (tree,w) = match expand m identity cwd tree w with
      | (.ok tree',w') => (.ok (),tree',w')
      | (.error e,w') => (.error e,tree,w') := by
  have hglobs := globsInOrder_of_parseLine h htree
  refine ⟨fun tree' w' => ?_,fun e tree' w' => ?_,expandInPlace_eq hglobs w⟩
  · rw [expandInPlace_eq hglobs]
    constructor
    · intro hall
      split at hall
      · next hok =>
        cases hall
        obtain ⟨found,hfound,rfl⟩ := (expand_ok hglobs).1 hok
        exact ⟨found,hfound,rfl,tree.walk_map⟩
      · cases hall
    · rintro ⟨found,hfound,rfl,-⟩
      rw [(expand_ok hglobs).2 ⟨found,hfound,rfl⟩]
  · rw [expandInPlace_eq hglobs]
    constructor
    · intro hall
      split at hall
      · cases hall
      · next herror =>
        cases hall
        exact ⟨(expand_error hglobs).1 herror,rfl⟩
    · rintro ⟨hfails,rfl⟩
      rw [(expand_error hglobs).2 hfails]

def twoMarks : Text := ['a',' ','*',' ','*']

def twoMarksCommand : OpenCommand Unit :=
  let verb := OpenCommand.ofVerb (globbing []) (fun _ => none) ⟨.word,['a'],.input,0,1,none⟩
  (((verb.push ⟨.blank,[' '],.input,1,2,none⟩).push ⟨.word,['*'],.input,2,3,none⟩).push
    ⟨.blank,[' '],.input,3,4,none⟩).push ⟨.word,['*'],.input,4,5,none⟩

theorem reads_twoMarks : ∃ tokens p, (Parser.new twoMarks (globbing []) (fun _ => none)
    none).restart.Reads tokens (some (twoMarksCommand,none)) p := by
  let t₁ : Tokenizer := ⟨['a'],[' ','*',' ','*'],[],some .word,none,false,false,['a']⟩
  let t₂ : Tokenizer := ⟨['a',' '],['*',' ','*'],[],some .blank,none,false,false,['a',' ']⟩
  let t₃ : Tokenizer :=
    ⟨['a',' ','*'],[' ','*'],[],some .word,none,false,false,['a',' ','*']⟩
  let t₄ : Tokenizer :=
    ⟨['a',' ','*',' '],['*'],[],some .blank,none,false,false,['a',' ','*',' ']⟩
  let t₅ : Tokenizer := ⟨twoMarks,[],[],some .word,none,false,false,twoMarks⟩
  exact ⟨_,_,.goesOn (t := t₁) rfl rfl <| .goesOn (t := t₂) rfl rfl <| .goesOn (t := t₃) rfl rfl <|
    .goesOn (t := t₄) rfl rfl <| .goesOn (t := t₅) rfl rfl <|
    .ends (t := t₅) (c := some twoMarksCommand) rfl rfl⟩

/-- The one directory is put in the place of both. -/
theorem expand_splices_twice : ∃ parsed tree tree' w',
    parseLine twoMarks (globbing []) (fun _ => none) none () = (.ok parsed,()) ∧
    parsed.tree = some tree ∧ tree.command.args = [['*'],['*']] ∧
    expandInPlace (.ofTable openTop) [] ['/'] (tree,oneDirectory) = (.ok (),tree',w') ∧
    tree'.command.args = [['d'],['d']] ∧ tree'.command.globArgs = [] := by
  obtain ⟨tokens,p,hreads⟩ := reads_twoMarks
  have hparse := parseLine_last hreads.read_eq ()
  have hargs : (twoMarksCommand.command.compile twoMarksCommand.options ()).1.args =
      [['*'],['*']] := by
    decide +kernel
  have hglobs : (twoMarksCommand.command.compile twoMarksCommand.options ()).1.globArgs =
      [0,1] := by
    decide +kernel
  have hglob : (glob (.ofTable openTop) [] ['/'] ['*'] oneDirectory).1 = .ok [['d']] := by
    decide +kernel
  obtain ⟨hok,-,-⟩ := expand_splices hparse rfl (.ofTable openTop) [] ['/'] oneDirectory
  have hexpressions : expressions (.node (twoMarksCommand.command.compile
      twoMarksCommand.options ()).1 none none [] none none) = [['*']] := by
    decide +kernel
  have hfound : Globs (.ofTable openTop) [] ['/'] [['*']] oneDirectory [(['*'],[['d']])] _ :=
    .cons (Prod.ext hglob rfl) .nil
  rw [← hexpressions] at hfound
  refine ⟨_,_,_,_,hparse,rfl,hargs,(hok _ _).2 ⟨_,hfound,rfl,CommandTree.walk_map _⟩,?_,rfl⟩
  show (replaced _ (twoMarksCommand.command.compile twoMarksCommand.options ()).1).args = _
  decide +kernel

end Expansion
end Realm
