import Realm.Proofs.Acl.Answers
import Realm.Proofs.Acl.InMemory
import Realm.Proofs.Acl.OnDisk

/-! What it matters that someone has tried in vain to change the rules of a directory. The nodes
that have been made on the way to it stay, and nothing else is done unless it is the storing of
the changed node that fails. -/
namespace Realm.Acl

open Realm.Path (ofSegments AreNames)

variable {σ : Type}

def Node.descend : List Text → Node → Option Node
  | [],n => some n
  | name :: names,n => (Table.get? name n.children).bind (descend names)

/-- Go to the node of a directory, which is made if there is none. -/
def Engine.reach (e : Engine σ) (dir : Text) : Action (Cache × σ) Node :=
  e.visitTop (e.visitDirectory (Path.normalize dir) none Visit.node (Path.segments dir))

/-- A rule stood in the place of a directory that has been made on the way down some names,
and the directory lies on another way as well. -/
def Engine.Overruled (e : Engine σ) (dir names : List Text) (n : Node) (w w' : σ)
    (way : List Text) : Prop :=
  ∃ above name rest m, way = above ++ name :: rest ∧ above ++ [name] <+: names ∧
    n.descend above = some m ∧ m.HasRule name ∧ e.Made (dir ++ above ++ [name]) w w'

/-- A directory has been reached, and the change is fine in itself, but the changed node cannot
be stored. -/
def Engine.Unstored {τ : Type} (e : Engine σ) (c : Change) (err : Error)
    (reached : Except Error Node × (τ × σ)) : Prop :=
  ∃ n n', reached.1 = .ok n ∧ c.apply n = .ok n' ∧ (e.persist n' reached.2.2).1 = .error err

section

variable {e : Engine σ} {L : e.Locality}

theorem visitDirectory_child {α : Type} {visit : Visit σ α} {d name : Text} {absent : Option α}
    {names : List Text} {n c n₁ : Node} {w w₁ : σ} (hn : n.isSpecial = false)
    (hchild : e.child? name (n,w) = (.ok (some c),(n₁,w₁))) :
    e.visitDirectory d absent visit (name :: names) (n,w) =
      Visit.child name c (e.visitDirectory d absent visit names) (n₁,w₁) := by
  rw [visitDirectory_cons,hn,hchild]
  rfl

theorem visitDirectory_missing {α : Type} {visit : Visit σ α} {d name : Text}
    {names : List Text} {n c n₁ : Node} {w w₁ w₂ : σ} (hn : n.isSpecial = false)
    (hchild : e.child? name (n,w) = (.ok none,(n,w₁)))
    (hcreate : e.create name (n,w₁) = (.ok c,(n₁,w₂))) :
    e.visitDirectory d none visit (name :: names) (n,w) =
      Visit.child name c (e.visitDirectory d none visit names) (n₁,w₂) := by
  rw [visitDirectory_cons,hn,hchild]
  show (e.create name >>= fun c =>
    Visit.child name c (e.visitDirectory d none visit names)) (n,w₁) = _
  rw [Action.bind_eq,hcreate]

theorem overruled_beneath {dir names : List Text} {name : Text} {n c : Node} {w w₁ w' : σ}
    (hbefore : ∀ dir', AreNames dir' → e.stored dir' w₁ = .ok false → e.stored dir' w = .ok false)
    (hdir : AreNames (dir ++ [name] ++ names)) {way : List Text}
    (h : e.Overruled (dir ++ [name]) names c w₁ w' way) :
    e.Overruled dir (name :: names) (n.withChild name c) w w' (name :: way) := by
  obtain ⟨above,name',rest,m,rfl,hpre,hm,hrule,hno,hyes⟩ := h
  have hplace : dir ++ (name :: above) ++ [name'] = dir ++ [name] ++ above ++ [name'] := by simp
  have hnames : AreNames (dir ++ [name] ++ above ++ [name']) := by
    obtain ⟨t,rfl⟩ := hpre
    rw [← List.append_assoc,← List.append_assoc] at hdir
    exact hdir.of_append.1
  refine ⟨name :: above,name',rest,m,rfl,by simpa using hpre,?_,hrule,?_⟩
  · rw [Node.descend,Node.get?_withChild]
    exact hm
  · rw [hplace]
    exact ⟨hbefore _ hnames hno,hyes⟩

/-- A change in vain matters to the directories on the way to its own, if they are made. -/
theorem changing_answers (d : Text) (c : Change) {dir names : List Text} {n n' : Node} {w w' : σ}
    (hfine : L.agree [] w w) (hn : n.Placed dir) (hdir : AreNames (dir ++ names)) {err : Error}
    (h : e.visitDirectory d none (e.changing c) names (n,w) = (.error err,(n',w'))) :
    e.Answers (fun way => way ≠ [] ∧ way <+: names)
      (fun way => e.Overruled dir names n' w w' way ∨
        names <+: way ∧ e.Unstored c err (e.visitDirectory d none Visit.node names (n,w)))
      dir (n,w) (n',w') := by
  induction names generalizing dir n n' w w' with
  | nil =>
    replace h : e.changing c (n,w) = (.error err,(n',w')) := h
    rw [changing_eq] at h
    cases hc : c.apply n with
    | error err' =>
      rw [hc] at h
      cases h
      exact answers_unmoved hn (fun name _ => L.below (dir ++ [name]) hfine) _ _
    | ok m =>
      simp only [hc] at h
      -- The changed node is kept even if it cannot be stored.
      rcases hp : e.persist m w with ⟨err' | _,w₁⟩
      · rw [hp] at h
        cases h
        exact fun _ way _ _ _ => .inr (.inr (.inr ⟨List.nil_prefix,n,n',rfl,hc,congrArg Prod.fst hp⟩))
      · rw [hp] at h
        cases h
  | cons name names ih =>
    rw [List.append_cons] at hdir
    have hname := hdir.of_append.1
    have hb := Engine.confined L
    have hkeeps := visitDirectory_keeps hb d none hdir (changing_keeps hb hdir c)
    rcases child?_cases hb hn hname w with ⟨m,n₁,w₁,hchild,hn₁,hm,hw⟩ | ⟨w₁,hchild,hload,hw⟩ |
      ⟨err',w₁,hchild,hload,-⟩
    · rw [visitDirectory_child hn.regular hchild] at h
      rcases hv : e.visitDirectory d none (e.changing c) names (m,w₁) with ⟨r,m',w₂⟩
      obtain ⟨hm',hw'⟩ := hkeeps m w₁ hm
      rw [hv] at hm' hw'
      simp only [Visit.child,hv] at h
      cases h
      have hans := answers_child hfine hn hchild hn₁ hw hm' hw' (ih (hw hfine).fine hm hdir hv)
      refine hans.mono ?_ ?_
      · rintro way ⟨rest,rfl,-,hpre⟩
        exact ⟨by simp,by simpa using hpre⟩
      · rintro way ⟨rest,rfl,hover | ⟨hpre,hstore⟩⟩
        · exact .inl (overruled_beneath (hw hfine).before hdir hover)
        · rw [visitDirectory_child hn.regular hchild]
          exact .inr ⟨by simpa using hpre,hstore⟩
    · rcases create_cases hb hn hname w₁ with ⟨w₂,hcreate,hpersist,hw₂⟩ |
        ⟨err',w₂,hcreate,hpersist,hw₂⟩
      · obtain ⟨m,hm⟩ : ∃ m, m = e.seeded (dir ++ [name]) (n.depth + 1) name := ⟨_,rfl⟩
        rw [← hm] at hcreate hpersist
        have hplaced : m.Placed (dir ++ [name]) := hm ▸ .new ..
        have hn₁ := (Node.ExceptAt.refl name n).withChild m
        rw [visitDirectory_missing hn.regular hchild hcreate] at h
        rcases hv : e.visitDirectory d none (e.changing c) names (m,w₂) with ⟨r,m',w₃⟩
        obtain ⟨hm',hw'⟩ := hkeeps m w₂ hplaced
        rw [hv] at hm' hw'
        simp only [Visit.child,hv] at h
        cases h
        have hans := answers_create hfine hn hname hchild hload hcreate hn₁ hm hpersist hw hw₂ hm' hw'
          (fun h => h.1 rfl) (ih ((hw.trans hw₂) hfine).fine hplaced hdir hv)
        refine hans.mono ?_ ?_
        · rintro way ⟨rest,rfl,rfl | ⟨-,hpre⟩⟩
          · simp
          · exact ⟨by simp,by simpa using hpre⟩
        · rintro way ⟨rest,rfl,⟨hrule,hmade⟩ | hover | ⟨hpre,hstore⟩⟩
          · have hrule' := (Node.hasRule_of_bare (hn₁.withChild m').bare name).2 hrule
            exact .inl ⟨[],name,rest,_,rfl,by simp,rfl,hrule',by simpa using hmade⟩
          · exact .inl (overruled_beneath ((hw.trans hw₂) hfine).before hdir hover)
          · rw [visitDirectory_missing hn.regular hchild hcreate]
            exact .inr ⟨by simpa using hpre,hstore⟩
      · rw [visitDirectory_cons,hn.regular,hchild] at h
        replace h : (e.create name >>= fun m =>
          Visit.child name m (e.visitDirectory d none (e.changing c) names)) (n,w₁) = _ := h
        rw [Action.bind_eq,hcreate] at h
        cases h
        exact answers_refused hfine hn hname hload (.new ..) hpersist hw₂ _ _
    · rw [visitDirectory_cons,hn.regular,hchild] at h
      cases h
      exact answers_loaded hfine hn hload _ _

theorem update_tells (L : e.Locality) {dir : Text} {c : Change} {s : Cache × σ} {err : Error}
    (hs : s.1.Placed) (hfine : L.agree [] s.2 s.2) (herr : (e.update dir c s).1 = .error err) :
    e.Tells (fun way => way ≠ [] ∧ way <+: Path.segments dir)
      (fun way =>
        (∃ top, (e.update dir c s).2.1 = some top ∧
          e.Overruled [] (Path.segments dir) top s.2 (e.update dir c s).2.2 way) ∨
        Path.segments dir <+: way ∧ e.Unstored c err (e.reach dir s))
      s (e.update dir c s).2 := by
  rw [update_eq] at herr ⊢
  refine visitTop_tells hs hfine fun n w hn hw htop => ?_
  have hnames := Path.areNames_segments dir
  rcases hv : e.visitDirectory (Path.normalize dir) none (e.changing c) (Path.segments dir) (n,w)
    with ⟨r,n',w'⟩
  rw [htop,hv] at herr
  obtain rfl : r = .error err := herr
  rw [htop,hv,Engine.reach,htop]
  have hans := changing_answers _ c (L.trans hw (L.symm hw)) hn (by simpa using hnames) hv
  refine hans.mono (fun _ => id) ?_
  rintro way (⟨above,name,rest,m,rfl,hpre,hm,hrule,hno,hyes⟩ | hstore)
  · have hplace : AreNames ([] ++ above ++ [name]) := by
      obtain ⟨t,ht⟩ := hpre
      rw [← ht] at hnames
      exact hnames.of_append.1
    have hno := (stored_agree hplace hw).symm.trans hno
    exact .inl ⟨n',rfl,above,name,rest,m,rfl,hpre,hm,hrule,hno,hyes⟩
  · exact .inr hstore

/-- When a call to change the rules of a directory or a file ends in an error, every question
about a path is answered as it would have been without it. Three cases are apart: a directory
on the way to the changed one that has been made for it, where the grants of its source come on
top; what lies at or below such a directory if a rule stood in its place before; and what lies
at or below the changed directory if it is the storing of its changed node that failed. -/
theorem effective_after_refused_change (L : e.Locality) {w : σ} (hfine : L.agree [] w w)
    (before : List Engine.Call) {call : Engine.Call} {r : Except Error (Text × Change)}
    (hcall : call.change? = some r) {err : Error}
    (herr : (call.run e (e.run before (none,w)).2).1 = .error err) (path identity : Text) :
    let s := (e.run before (none,w)).2
    let s' := (call.run e s).2
    (e.effective path identity s').1 = (e.effective path identity s).1 ∨
    ∃ dir c, r = .ok (dir,c) ∧
      ((Path.segments path ≠ [] ∧ Path.segments path <+: Path.segments dir ∧
          e.Made (Path.segments path) s.2 s'.2 ∧
          ∃ p, (e.effective path identity s).1 = .ok p ∧
            (e.effective path identity s').1 = .ok (p.union
              (granted e.groups [] identity (e.source (Path.normalize path))))) ∨
        (∃ top, s'.1 = some top ∧
          e.Overruled [] (Path.segments dir) top s.2 s'.2 (Path.segments path)) ∨
        (Path.segments dir <+: Path.segments path ∧ e.Unstored c err (e.reach dir s))) := by
  intro s s'
  obtain ⟨hs,hw⟩ := run_placed (Engine.confined L) before (none,w) (by simp [Cache.Placed])
  obtain ⟨f,hrun⟩ := call.run_change hcall e s
  have hstate : s' = (e.attempt r s).2 := congrArg Prod.snd hrun
  rw [hstate]
  cases r with
  | error err' => exact .inl rfl
  | ok r =>
    obtain ⟨dir,c⟩ := r
    have hupdate : (e.update dir c s).1 = .error err := by
      have h : (e.update dir c s).1.map f = .error err := (congrArg Prod.fst hrun).symm.trans herr
      cases hu : (e.update dir c s).1 with
      | error err' => simpa [hu,Except.map] using h
      | ok n => simp [hu,Except.map] at h
    rcases update_tells L hs (hw hfine).fine hupdate path identity with
      hsame | ⟨⟨hne,hpre⟩,hmade⟩ | hover | hstore
    · exact .inl hsame
    · exact .inr ⟨dir,c,rfl,.inl ⟨hne,hpre,hmade⟩⟩
    · exact .inr ⟨dir,c,rfl,.inr (.inl hover)⟩
    · exact .inr ⟨dir,c,rfl,.inr (.inr hstore)⟩

end

def openPattern : Engine.Call :=
  .addPattern "/hall".toList "(".toList [] true

theorem openPattern_refused (n n' : Node) :
    (Change.addPattern "(".toList [] true).apply n ≠ .ok n' := by
  have hread : Pattern.read? ("^(?:".toList ++ "(".toList ++ ")$".toList) = none := by
    decide +kernel
  have hcompile : Node.ofPattern n "(".toList [] true =
      .error (.config (.invalidPattern "(".toList)) := by
    rw [Node.ofPattern,Node.compilePattern,show Regex.compile _ = none from hread]
    rfl
  rw [Change.apply,hcompile]
  intro h
  by_cases hdup : n.patterns.any (·.name = "(".toList) = true
  · rw [if_pos hdup] at h
    cases h
  · rw [if_neg hdup] at h
    cases h

/-- The hall is made for a rule that is refused then: ann may do there what the source of the
hall grants on top of what she might do before, and inside of it nothing has changed. -/
theorem effective_after_refused_change_pattern :
    let s := (readingEngine.run closeTop (none,FileTree.empty)).2
    let s' := (openPattern.run readingEngine s).2
    (memoryLocality readingEngine isNormal_top).agree [] FileTree.empty FileTree.empty ∧
      openPattern.change? = some (.ok ("/hall".toList,.addPattern "(".toList [] true)) ∧
      (openPattern.run readingEngine s).1 = .error (.config (.invalidPattern "(".toList)) ∧
      (readingEngine.effective "/hall/box".toList "ann".toList s').1 =
        (readingEngine.effective "/hall/box".toList "ann".toList s).1 ∧
      (readingEngine.effective "/hall".toList "ann".toList s).1 = .ok Permission.empty ∧
      (readingEngine.effective "/hall".toList "ann".toList s').1 =
        .ok (Permission.empty.union (granted readingEngine.groups [] "ann".toList
          (readingEngine.source (Path.normalize "/hall".toList)))) := by
  intro s s'
  have hfine : (memoryLocality readingEngine isNormal_top).agree [] FileTree.empty
      FileTree.empty := .refl _ _ _ _
  have hcall : openPattern.change? =
      some (.ok ("/hall".toList,.addPattern "(".toList [] true)) := rfl
  have herr : (openPattern.run readingEngine s).1 =
      .error (.config (.invalidPattern "(".toList)) := by decide +kernel
  have hempty : (readingEngine.effective "/hall".toList "ann".toList s).1 =
      .ok Permission.empty := by decide +kernel
  -- The top has no rules, and it is all that there is above the hall.
  have hbare : s'.1.map (fun top => (top.patterns.length,top.files.length)) = some (0,0) := by
    decide +kernel
  have hrules (way : List Text) : ¬∃ top, s'.1 = some top ∧
      readingEngine.Overruled [] (Path.segments "/hall".toList) top s.2 s'.2 way := by
    rintro ⟨top,htop,above,name,rest,m,-,hpre,hm,hrule,-⟩
    obtain rfl : above = [] := by
      have hlength := hpre.length_le
      rw [List.length_append,show (Path.segments "/hall".toList).length = 1 from rfl] at hlength
      exact List.length_eq_zero_iff.1 (by simpa using hlength)
    cases hm
    rw [htop,Option.map_some,Option.some.injEq,Prod.mk.injEq,List.length_eq_zero_iff,
      List.length_eq_zero_iff] at hbare
    simp [Node.HasRule,Node.match?,hbare,Node.firstMatch,Table.get?] at hrule
  have hstored : ¬readingEngine.Unstored (.addPattern "(".toList [] true)
      (.config (.invalidPattern "(".toList)) (readingEngine.reach "/hall".toList s) := by
    rintro ⟨n,n',-,happly,-⟩
    exact openPattern_refused n n' happly
  -- What is left open does not happen.
  have hdecided (path : Text) :
      (readingEngine.effective path "ann".toList s').1 =
          (readingEngine.effective path "ann".toList s).1 ∨
        Path.segments path <+: Path.segments "/hall".toList ∧
          ∃ p, (readingEngine.effective path "ann".toList s).1 = .ok p ∧
            (readingEngine.effective path "ann".toList s').1 =
              .ok (p.union (granted readingEngine.groups [] "ann".toList
                (readingEngine.source (Path.normalize path)))) := by
    rcases effective_after_refused_change (memoryLocality readingEngine isNormal_top) hfine
      closeTop hcall herr path "ann".toList with hsame | ⟨dir,c,heq,hmade | hover | hunstored⟩
    · exact .inl hsame
    · cases heq
      exact .inr ⟨hmade.2.1,hmade.2.2.2⟩
    · cases heq
      exact absurd hover (hrules _)
    · cases heq
      exact absurd hunstored.2 hstored
  refine ⟨hfine,hcall,herr,?_,hempty,?_⟩
  · exact (hdecided "/hall/box".toList).resolve_right fun h => absurd h.1 (by decide)
  · obtain ⟨-,p,hp,hgranted⟩ := (hdecided "/hall".toList).resolve_left fun hsame =>
      absurd (hsame.trans hempty) (by decide +kernel)
    cases hp.symm.trans hempty
    exact hgranted

def grantBob : Engine.Call :=
  .setPermissions "/".toList "bob".toList (Permission.of .read)

/-- The grant cannot be stored, and yet bob has it from then on. -/
example :
    (archiveEngine.effective "/hall".toList "bob".toList (none,archiveTree)).1 =
        .ok Permission.empty ∧
      (archiveEngine.effective "/hall".toList "bob".toList
        (grantBob.run archiveEngine (none,archiveTree)).2).1 = .ok (Permission.of .read) := by
  decide +kernel

/-- Before the rule has been refused, ann may do nothing in the hall, and afterwards she may
read. -/
theorem not_effective_after_refused_change :
    let s := (readingEngine.run closeTop (none,FileTree.empty)).2
    (openPattern.run readingEngine s).1 = .error (.config (.invalidPattern "(".toList)) ∧
      (readingEngine.effective "/hall".toList "ann".toList s).1 = .ok Permission.empty ∧
      (readingEngine.effective "/hall".toList "ann".toList (openPattern.run readingEngine s).2).1 =
        .ok (Permission.of .read) := by
  decide +kernel

end Realm.Acl
