import Realm.Proofs.Command.Composition
import Realm.Proofs.Command.Plain
import Realm.Proofs.Command.Template

/-! How commands are classified. The class of a command is settled when its verb is read, before
what follows it is known; it is the class of the verb that the command ends up with, unless
something touches the verb that has been read or is put into it. -/
namespace Realm

section FirstWords

variable {t x rest : Text}

theorem Text.eq_of_head_words (h : (words t).head? = some x) :
    ∃ gap rest, t = gap ++ (x ++ rest) ∧ (∀ c ∈ gap, isBlank c = true) ∧ x.IsSolid ∧ x ≠ [] ∧
      ∀ c ∈ rest.head?, isBlank c = true := by
  rcases blank_or_word t with hblank | ⟨gap,y,rest,rfl,hgap,hsolid,hne,hrest⟩
  · rw [(isAllBlank_iff t).1 (List.all_eq_true.2 hblank)] at h
    cases h
  · rw [words_blanks hgap,words_first hsolid hne hrest] at h
    cases h
    exact ⟨gap,rest,rfl,hgap,hsolid,hne,hrest⟩

/-- A verb that is found by its first character: it is made of letters and numbers, or begins with
another character. -/
def Text.IsVerb (x : Text) : Prop :=
  (∀ c ∈ x, isAlphanumeric c = true) ∨ ∀ c ∈ x.head?, isAlphanumeric c = false

theorem Text.not_isAlphanumeric_of_isBlank {c : Char} (h : isBlank c = true) :
    isAlphanumeric c = false := by
  have halpha : c.isAlpha = false := by
    refine Bool.eq_false_iff.2 fun h' => ?_
    rw [(letter_class h').2.1] at h
    cases h
  have hdigit : isDecimalDigit c = false := by
    refine Bool.eq_false_iff.2 fun h' => ?_
    rw [not_isBlank_of_isDecimalDigit h'] at h
    cases h
  rw [isBlank_eq] at h
  have hletter : alphabeticRanges.covers c = false :=
    Ranges.covers_apart (by decide +kernel) h
  have hnumber : otherNumberRanges.covers c = false :=
    Ranges.covers_apart (by decide +kernel) h
  simp [isAlphanumeric,isAlphabetic,isOtherNumber,halpha,hdigit,hletter,hnumber]

theorem Alias.splitLine_verb {gap : Text} (hgap : ∀ c ∈ gap, Text.isBlank c = true)
    (hx : x.IsSolid) (hne : x ≠ []) (hverb : x.IsVerb)
    (hrest : ∀ c ∈ rest.head?, Text.isBlank c = true) :
    splitLine (gap ++ (x ++ rest)) = (x,Text.words rest) := by
  have htrim : Text.trimStart (gap ++ (x ++ rest)) = x ++ rest := by
    rw [Text.trimStart,List.dropWhile_append_of_pos hgap]
    cases x with
    | nil => exact absurd rfl hne
    | cons c x => simp [hx c (.head _)]
  unfold splitLine
  dsimp only
  rw [htrim]
  obtain ⟨c,x,rfl⟩ := List.exists_cons_of_ne_nil hne
  rcases hverb with hverb | hverb
  · have hstop : ∀ c ∈ rest.head?, Text.isAlphanumeric c = false := fun c hc =>
      Text.not_isAlphanumeric_of_isBlank (hrest c hc)
    obtain ⟨htake,hdrop⟩ := Text.span_append hverb hstop
    rw [htake,hdrop]
  · have hnone : (c :: x ++ rest).takeWhile Text.isAlphanumeric = [] := by
      simp [hverb c rfl]
    have hsolid : ∀ d ∈ c :: x, (!Text.isBlank d) = true := fun d hd => by simp [hx d hd]
    have hstop : ∀ d ∈ rest.head?, (!Text.isBlank d) = false := fun d hd => by
      simp [hrest d hd]
    obtain ⟨htake,hdrop⟩ := Text.span_append hsolid hstop
    rw [hnone,htake,hdrop]

end FirstWords

section Expanding

variable {σ : Type} {x rest : Text} {others : List Text}

namespace Alias

theorem pieces_plain (hx : '$' ∉ x) (rest : Text) :
    pieces (x ++ rest) = x.map .char ++ pieces rest := by
  induction x with
  | nil => rfl
  | cons c x ih =>
    obtain ⟨hc,hx⟩ := List.ne_and_not_mem_of_not_mem_cons hx
    rw [List.cons_append,pieces_char fun h => absurd h.symm hc,ih hx]
    rfl

theorem replaced_plain (o : Options σ) (expandVariables : Bool) (name : Text) (args : List Text)
    (x : Text) (ps : List Piece) (s : σ) :
    replaced o expandVariables name args others (x.map .char ++ ps) s =
      (x ++ (replaced o expandVariables name args others ps s).1,
        (replaced o expandVariables name args others ps s).2) := by
  induction x with
  | nil => rfl
  | cons c x ih =>
    rw [List.map_cons,List.cons_append,replaced_pure rfl,ih]
    rfl

/-- What a template begins with, without a reference in it, is what its line begins with; and
a blank that ends it there ends it here. -/
theorem expand_front (o : Options σ) (expandVariables : Bool) (name : Text) (args : List Text)
    (hx : '$' ∉ x) (hrest : ∀ c ∈ rest.head?, Text.isBlank c = true) (s : σ) :
    ∃ out, (expand o expandVariables name (x ++ rest) args s).1 = x ++ out ∧
      ∀ c ∈ out.head?, Text.isBlank c = true := by
  rw [expand_eq,pieces_plain hx]
  generalize unnamed (x.map .char ++ pieces rest) args = others
  dsimp only
  rw [replaced_plain]
  obtain ⟨out,hout,hblank⟩ : ∃ out, (replaced o expandVariables name args others
      (pieces rest) s).1 = out ∧ ∀ c ∈ out.head?, Text.isBlank c = true := by
    cases rest with
    | nil => exact ⟨[],by rw [pieces_nil,replaced],hrest⟩
    | cons c rest =>
      have hc := hrest c rfl
      have hdollar : c ≠ '$' := by rintro rfl; exact absurd hc (by decide)
      rw [pieces_char fun h => absurd h hdollar,replaced_pure rfl]
      exact ⟨_,rfl,fun d hd => by cases hd; exact hc⟩
  rw [hout]
  split
  · exact ⟨out,rfl,hblank⟩
  · refine ⟨out ++ ' ' :: Text.join [' '] others,List.append_assoc ..,?_⟩
    cases out with
    | nil => exact fun d hd => by cases hd; decide
    | cons c out => exact fun d hd => hblank d hd

end Alias

end Expanding

section Compiling

variable {σ : Type} {o : Options σ} {c : Command} {verb : Token} {args : List Token}

def Token.Parts (t : Token) : Prop :=
  t.kind = .blank ∨ t.kind = .operator

theorem Fragment.ofTokens_alias (h : verb.kind = .alias) (args : List Token) :
    ofTokens true (verb :: args) = .whole verb.value :: ofTokens false args := by
  rw [ofTokens,h]
  rfl

theorem Word.ofFragments_ended (expand : Bool) (v : Word) {ts : List Token}
    (hts : ∀ t ∈ ts.head?, t.Parts) (w : σ) : ∃ rest w',
      ofFragments o expand (some v) (Fragment.ofTokens false ts) w = (v :: rest,w') := by
  cases ts with
  | nil => exact ⟨[],w,by rw [Fragment.ofTokens]; rfl⟩
  | cons t ts =>
    rcases hts t rfl with hk | hk
    · have hgap : Fragment.ofTokens false (t :: ts) = .gap :: Fragment.ofTokens false ts := by
        rw [Fragment.ofTokens,hk]
      rw [hgap]
      exact ⟨_,_,rfl⟩
    · by_cases hr : (Redirect.Kind.ofText? t.value).isSome = true
      · have hgap : Fragment.ofTokens false (t :: ts) = .gap :: Fragment.ofTokens false ts := by
          rw [Fragment.ofTokens,hk]
          simp [hr]
        rw [hgap]
        exact ⟨_,_,rfl⟩
      · have hwhole : Fragment.ofTokens false (t :: ts) =
            .whole t.value :: Fragment.ofTokens false ts := by
          rw [Fragment.ofTokens,hk]
          simp [hr]
        rw [hwhole]
        exact ⟨_,_,rfl⟩

/-- The first word of a command is its verb, if nothing touches it or it is an alias. -/
theorem Word.ofTokens_verb (expand : Bool) (hverb : verb.isVerb = true)
    (hk : verb.kind ≠ .variable) (hargs : verb.kind ≠ .alias → ∀ t ∈ args.head?, t.Parts) (w : σ) :
    ∃ first rest w', ofTokens o expand (verb :: args) w = (first :: rest,w') ∧
      first.text = verb.value := by
  have hended (v : Word) (hv : v.text = verb.value) (hparts : ∀ t ∈ args.head?, t.Parts) :
      ∃ first rest w', ofFragments o expand (some v) (Fragment.ofTokens false args) w =
        (first :: rest,w') ∧ first.text = verb.value := by
    obtain ⟨rest,w',h⟩ := ofFragments_ended (o := o) expand v hparts w
    exact ⟨v,rest,w',h,hv⟩
  have hplain (hraw : verb.rawText = verb.value) (hparts : ∀ t ∈ args.head?, t.Parts)
      (h : Fragment.ofTokens true (verb :: args) =
        .plain verb.rawText :: Fragment.ofTokens false args) : ∃ first rest w',
      ofTokens o expand (verb :: args) w = (first :: rest,w') ∧ first.text = verb.value := by
    rw [ofTokens,h,hraw]
    exact hended ⟨verb.value,verb.value,false⟩ rfl hparts
  by_cases hwhole : verb.kind = .alias
  · rw [ofTokens,Fragment.ofTokens_alias hwhole]
    exact ⟨⟨verb.value,verb.value,false⟩,_,_,rfl,rfl⟩
  cases hkind : verb.kind with
  | word =>
    refine hplain ?_ (hargs ?_) ?_ <;> simp [Token.rawText,Fragment.ofTokens,hkind]
  | numeric =>
    refine hplain ?_ (hargs ?_) ?_ <;> simp [Token.rawText,Fragment.ofTokens,hkind]
  | string =>
    have h : Fragment.ofTokens true (verb :: args) =
        .quoted verb.value :: Fragment.ofTokens false args := by
      rw [Fragment.ofTokens,hkind]
    rw [ofTokens,h]
    exact hended ⟨verb.value,verb.value,true⟩ rfl (hargs (by rw [hkind]; decide))
  | «variable» => exact absurd hkind hk
  | _ => simp_all [Token.isVerb]

theorem Command.compile_expansion {name template : Text} {first : Word} {rest : List Word}
    {w w' : σ} (h : c.alias? o = some (name,template))
    (hwords : Word.ofTokens o (o.expandVariables && !decide (c.kind = .expression)) c.tokens w =
      (first :: rest,w')) :
    c.compile o w =
      (let r := Alias.expand o (o.expandVariables && !decide (c.kind = .expression)) name template
        (rest.map (·.text)) w'
      ({ c with
        verb := (Alias.splitLine r.1).1
        args := (Alias.splitLine r.1).2
        globArgs :=
          if o.expandFileExpressions then placesOf hasGlob (Alias.splitLine r.1).2 else [] },
        r.2)) := by
  rw [compile]
  simp only [bind,StateT.bind,h,hwords]
  rfl

end Compiling

/-- What is read as the verb of a command: its first token or, if this is an alias, what the
template begins with, as long as that is a verb of its own. -/
inductive Token.ReadsVerb (aliases : Table Text Text) : List Token → Text → Prop
  | plain {verb : Token} {args : List Token} : verb.kind ≠ .alias →
    ReadsVerb aliases (verb :: args) verb.value
  | expanded {verb : Token} {args : List Token} {template x : Text} : verb.kind = .alias →
    aliases.get? verb.value = some template → (Text.words template).head? = some x → x.IsVerb →
    ReadsVerb aliases (verb :: args) x

/-- Nothing is put into what is read as the verb, and nothing touches it. -/
def Command.KeepsVerb (c : Command) (x : Text) : Prop :=
  if c.isAlias then '$' ∉ x else ∀ t ∈ c.tokens.tail.head?, t.Parts

/-- A command is of the shell if there are settings of a name, and of the game if not. -/
def Command.IsClassedBy (settings : Settings) (c : Command) (name : Text) : Prop :=
  (c.kind = .shell ↔ (settings name).isSome = true) ∧ (c.kind = .game ↔ settings name = none)

section Classes

variable {σ : Type} {o : Options σ} {settings : Settings} {Q : Token → Prop} {x : Text}

theorem OpenCommand.ofSettings_classed (o : Options σ) (settings : Settings) (verb : Token) :
    (ofSettings o verb (settings (lookupName o verb))).command.IsClassedBy settings
      (lookupName o verb) := by
  unfold ofSettings Command.IsClassedBy
  cases settings (lookupName o verb) <;> simp [Command.opened]

theorem Token.ReadsVerb.lookupName_eq {verb : Token} {args : List Token}
    (h : ReadsVerb o.aliases (verb :: args) x) : OpenCommand.lookupName o verb = x := by
  cases h with
  | plain halias => exact if_neg halias
  | expanded halias htemplate hhead => simp [OpenCommand.lookupName,halias,htemplate,hhead]

theorem Token.ReadsVerb.verb_eq {c : Command} {verb : Token} {args : List Token}
    (h : ReadsVerb o.aliases (verb :: args) x) (htokens : c.tokens = verb :: args)
    (hkeeps : c.KeepsVerb x) (hverb : verb.isVerb = true) (hvariable : verb.kind ≠ .variable)
    (hk : c.kind ≠ .expression) (w : σ) : (c.compile o w).1.verb = x := by
  have hwords := @Word.ofTokens_verb σ o verb args
    (o.expandVariables && !decide (c.kind = .expression)) hverb hvariable
  cases h with
  | plain halias =>
    have hnone : c.isAlias = false := by simp [Command.isAlias,htokens,halias]
    rw [Command.KeepsVerb,hnone,htokens] at hkeeps
    obtain ⟨first,rest,w',hwords,htext⟩ := hwords (fun _ => hkeeps) w
    rw [Command.compile_fst _ (Command.alias?_eq_none _ hnone),htokens,hwords,Command.ofWords,
      if_neg hk]
    exact htext
  | @expanded _ _ template _ halias htemplate hhead hx =>
    have hsome : c.isAlias = true := by simp [Command.isAlias,htokens,halias]
    have hexpansion : c.alias? o = some (verb.value,template) := by
      simp [Command.alias?,htokens,halias,htemplate]
    rw [Command.KeepsVerb,hsome] at hkeeps
    obtain ⟨first,rest,w',hwords,-⟩ := hwords (absurd halias) w
    obtain ⟨gap,more,rfl,hgap,hsolid,hne,hstop⟩ := Text.eq_of_head_words hhead
    have hfront : '$' ∉ gap ++ x :=
      List.not_mem_append (fun hmem => absurd (hgap _ hmem) (by decide)) hkeeps
    obtain ⟨out,hout,hblank⟩ := Alias.expand_front o
      (o.expandVariables && !decide (c.kind = .expression)) verb.value (rest.map (·.text)) hfront
      hstop w'
    rw [List.append_assoc] at hout
    rw [Command.compile_expansion hexpansion (htokens ▸ hwords)]
    dsimp only
    rw [hout,List.append_assoc,Alias.splitLine_verb hgap hsolid hne hx hblank]

theorem OpenCommand.Drawn.classed {c : OpenCommand σ} (h : c.Drawn o settings Q)
    (hk : c.command.kind ≠ .expression) (hx : Token.ReadsVerb o.aliases c.command.tokens x)
    (w : σ) : c.command.IsClassedBy settings x ∧
      (c.command.KeepsVerb x → (c.command.compile c.options w).1.verb = x) := by
  obtain ⟨s,args,-,hverb,hgrows,hdrawn⟩ := h
  obtain ⟨hisVerb,hvariable,-⟩ := promote_verb o hverb
  obtain ⟨grammar,hgrammar,-⟩ := ofVerb_grammar o settings s
  have hs : s.kind ≠ .variable := by rwa [hgrows.kind_eq,ne_eq,ofVerb_kind] at hk
  have hread := hdrawn.tokens_eq ▸ hx
  constructor
  · have hclass := ofSettings_classed o settings (promote o s)
    rw [hread.lookupName_eq] at hclass
    unfold Command.IsClassedBy
    rw [hgrows.kind_eq,ofVerb_eq,if_neg hs,hread.lookupName_eq]
    exact hclass
  · intro hkeeps
    rw [hgrows.options_eq.trans hgrammar]
    exact Token.ReadsVerb.verb_eq (o := o.forCommand grammar) hread hdrawn.tokens_eq hkeeps hisVerb
      (mt hvariable.1 hs) hk w

end Classes

/-- Of the commands of a line, all but the expressions have the class of the verb that is read, and
those that keep it end up with it. -/
theorem parseLine_classes {σ : Type} {line : Text} {o : Options σ} {settings : Settings}
    {sub : Option History.Substitution} {parsed : ParsedLine} {tree : CommandTree} {w w' : σ}
    (h : parseLine line o settings sub w = (.ok parsed,w')) (htree : parsed.tree = some tree) :
    ∀ part ∈ tree.parts, part.command.kind ≠ .expression →
      (part.command.isAlias = false → ∃ x, Token.ReadsVerb o.aliases part.command.tokens x) ∧
      ∀ x, Token.ReadsVerb o.aliases part.command.tokens x →
        part.command.IsClassedBy settings x ∧
          (part.command.KeepsVerb x → part.command.verb = x) := by
  obtain ⟨links,t,hcommands,hlink,-⟩ := parseLine_ok h
  rw [htree] at hlink
  obtain ⟨tokens,cs,hline⟩ := Parser.readsLine_of_commands hcommands
  rw [hline.commands_eq] at hcommands
  have hlinks : (Parser.compileAll cs w).1 = links :=
    Except.ok.inj (congrArg (fun r => r.1.1) hcommands)
  have hdrawn := hline.drawn (Q := fun _ => True) rfl fun _ _ => trivial
  refine CommandTree.has_of_link (CommandTree.link_of_linkLine hlink)
    (P := fun c _ => c.kind ≠ .expression →
      (c.isAlias = false → ∃ x, Token.ReadsVerb o.aliases c.tokens x) ∧
      ∀ x, Token.ReadsVerb o.aliases c.tokens x →
        c.IsClassedBy settings x ∧ (c.KeepsVerb x → c.verb = x)) fun l hl => ?_
  obtain ⟨c,hc,w',rfl⟩ := Parser.mem_compileAll (hlinks ▸ hl)
  have hopened := hdrawn c hc
  have hclassed := fun hk x hx => hopened.classed hk hx w' (x := x)
  obtain ⟨_,_,_,hkept⟩ := Command.compile_keeps c.1.options c.1.command w'
  rw [hkept] at hclassed ⊢
  refine fun hk => ⟨fun halias => ?_,fun x hx => hclassed hk x hx⟩
  obtain ⟨s,args,-,-,-,hmade⟩ := hopened
  show ∃ x, Token.ReadsVerb o.aliases c.1.command.tokens x
  rw [Command.isAlias,show Command.tokens _ = _ from hmade.tokens_eq] at halias
  rw [hmade.tokens_eq]
  exact ⟨_,.plain (of_decide_eq_false halias)⟩

/-- An alias of a verb of the shell. -/
theorem parseLine_classes_alias :
    let settings : Settings := fun name => if name = ['s'] then some {} else none
    ∃ parsed tree,
      parseLine ['x'] ({ aliases := [(['x'],['s'])] } : Options Unit) settings none () =
          (.ok parsed,()) ∧ parsed.tree = some tree ∧ tree.command.kind = .shell ∧
        tree.command.verb = ['s'] := by
  intro settings
  let o : Options Unit := { aliases := [(['x'],['s'])] }
  let verb : Token := ⟨.alias,['x'],.input,0,1,none⟩
  let c : OpenCommand Unit := ⟨.opened verb .shell,o.forCommand {}⟩
  let t : Tokenizer := ⟨['x'],[],[],some .word,none,false,false,['x']⟩
  have hreads : ∃ tokens p, (Parser.new ['x'] o settings none).restart.Reads tokens
      (some (c,none)) p :=
    ⟨_,_,.goesOn (t := t) rfl rfl <| .ends (t := t) (c := some c) rfl rfl⟩
  obtain ⟨_,_,hreads⟩ := hreads
  have hparse := parseLine_last hreads.read_eq ()
  obtain ⟨hkind,halias,htokens⟩ : (c.command.compile c.options ()).1.kind = .shell ∧
      (c.command.compile c.options ()).1.isAlias = true ∧
      (c.command.compile c.options ()).1.tokens = [verb] := by decide +kernel
  have hread : Token.ReadsVerb o.aliases (c.command.compile c.options ()).1.tokens ['s'] := by
    rw [htokens]
    exact .expanded rfl rfl rfl (.inl (List.forall_mem_singleton.2 rfl))
  have hkeeps : (c.command.compile c.options ()).1.KeepsVerb ['s'] := by
    rw [Command.KeepsVerb,if_pos halias]
    decide
  obtain ⟨-,hclasses⟩ := parseLine_classes hparse rfl _ (.head _) fun hk => by
    cases hkind.symm.trans hk
  obtain ⟨hclass,hverb⟩ := hclasses ['s'] hread
  exact ⟨_,_,hparse,rfl,hclass.1.2 rfl,hverb hkeeps⟩

/-- A string that touches a word makes a verb with it, but the word has been looked up. -/
theorem not_parseLine_classes :
    ¬ ∀ (line : Text) (o : Options Unit) (settings : Settings) (parsed : ParsedLine)
      (tree : CommandTree), parseLine line o settings none () = (.ok parsed,()) →
      parsed.tree = some tree → ∀ part ∈ tree.parts, part.command.kind ≠ .expression →
        part.command.IsClassedBy settings part.command.verb := by
  intro hall
  let settings : Settings := fun name => if name = ['s','a'] then some {} else none
  let line := ['s','"','a','"']
  let verb : Token := ⟨.word,['s'],.input,0,1,none⟩
  let c : OpenCommand Unit :=
    OpenCommand.push ⟨.opened verb .game,{}⟩ ⟨.string,['a'],.input,1,4,none⟩
  let t₁ : Tokenizer := ⟨['s'],['"','a','"'],[],some .word,none,false,false,['s']⟩
  let t₂ : Tokenizer := ⟨line,[],[],some .string,none,false,false,line⟩
  have hreads : ∃ tokens p, (Parser.new line ({} : Options Unit) settings none).restart.Reads tokens
      (some (c,none)) p :=
    ⟨_,_,.goesOn (t := t₁) rfl rfl <| .goesOn (t := t₂) rfl rfl <|
      .ends (t := t₂) (c := some c) rfl rfl⟩
  obtain ⟨_,_,hreads⟩ := hreads
  have hcompiled : (c.command.compile c.options ()).1.kind = .game ∧
      (c.command.compile c.options ()).1.verb = ['s','a'] := by decide +kernel
  have hclass := hall _ _ _ _ _ (parseLine_last hreads.read_eq ()) rfl _ (.head _)
    fun hk => by cases hcompiled.1.symm.trans hk
  have hnone : settings ['s','a'] = none := hcompiled.2 ▸ hclass.2.1 hcompiled.1
  cases hnone

end Realm
