import Realm.Proofs.Acl.Nodes

/-! Rules and nodes stand for each other. The text of some rules is read as them, and a node that
is made of rules, if it can be made at all, has nothing but these to store. -/
namespace Realm.Acl

open Node

namespace Shadow

mutual

/-- The patterns in some rules, in the order in which they are read. -/
def texts : Shadow → List Text
  | .node _ _ _ patterns children => patternTexts patterns ++ childTexts children

def patternTexts : List (Text × Shadow) → List Text
  | [] => []
  | (pattern,s) :: rest => pattern :: texts s ++ patternTexts rest

def childTexts : List (Text × Shadow) → List Text
  | [] => []
  | (_,s) :: rest => texts s ++ childTexts rest

end

/-- The rules of the names inside a directory that are stored with it. -/
def children : Shadow → List (Text × Shadow)
  | .node _ _ _ _ cs => cs

end Shadow

/-- Whether a text can be read as a pattern for names. -/
def Legible (pattern : Text) : Bool :=
  (compilePattern pattern).toBool

theorem compilePattern_cases {R : Type} [Regex R] (pattern : Text) :
    (∃ p : R, compilePattern pattern = .ok p) ∨
      (compilePattern pattern : Except Error R) = .error (.config (.invalidPattern pattern)) := by
  rw [compilePattern]
  cases (Regex.compile ("^(?:".toList ++ pattern ++ ")$".toList) : Option R) with
  | some p => exact .inl ⟨p,rfl⟩
  | none => exact .inr rfl

/-- A result that is there if all of some patterns can be read, and otherwise blames the first
that cannot. -/
def Reads {α : Type} (texts : List Text) (r : Except Error α) : Prop :=
  match texts.find? fun p => !Legible p with
  | none => ∃ a, r = .ok a
  | some p => r = .error (.config (.invalidPattern p))

namespace Reads

variable {α β : Type} {texts texts' : List Text} {r : Except Error α}

theorem ok (a : α) : Reads [] (.ok a : Except Error α) :=
  ⟨a,rfl⟩

theorem bind {f : α → Except Error β} (h : Reads texts r)
    (hf : ∀ a, r = .ok a → Reads texts' (f a)) : Reads (texts ++ texts') (r >>= f) := by
  unfold Reads at h hf ⊢
  rw [List.find?_append]
  cases hfind : texts.find? (fun p => !Legible p) with
  | none =>
    rw [hfind] at h
    obtain ⟨a,rfl⟩ := h
    exact hf a rfl
  | some p =>
    rw [hfind] at h
    rw [h]
    rfl

theorem map {f : α → β} (h : Reads texts r) : Reads texts (r >>= fun a => .ok (f a)) := by
  rw [← List.append_nil texts]
  exact h.bind fun a _ => .ok (f a)

theorem compile (pattern : Text) : Reads [pattern] (compilePattern pattern) := by
  unfold Reads
  rw [List.find?_singleton]
  rcases compilePattern_cases pattern with ⟨p,hp⟩ | hp
  · have hlegible : Legible pattern = true := by rw [Legible,hp]; rfl
    simp only [hlegible,Bool.not_true,Bool.false_eq_true,if_false]
    exact ⟨p,hp⟩
  · have hlegible : Legible pattern = false := by rw [Legible,hp]; rfl
    simpa only [hlegible,Bool.not_false,if_true] using hp

end Reads

mutual

/-- Rules at or below a pattern make a node if all patterns in them can be read. -/
theorem reads_build (path : Text) (depth : Nat) (name : Text) (pattern : Option Pattern)
    (s : Shadow) : Reads s.texts (build path depth name true pattern s) := by
  cases s with
  | node g fs i ps cs =>
    rw [build,Shadow.texts]
    refine (reads_buildPatterns path (depth + 1) ps).bind fun ns _ => ?_
    rw [if_neg (by simp)]
    exact (reads_buildChildren path (depth + 1) cs).map

theorem reads_buildPatterns (parent : Text) (depth : Nat) (ps : List (Text × Shadow)) :
    Reads (Shadow.patternTexts ps) (buildPatterns parent depth ps) := by
  cases ps with
  | nil => exact .ok []
  | cons p ps =>
    obtain ⟨pattern,s⟩ := p
    rw [buildPatterns,Shadow.patternTexts]
    refine (Reads.compile pattern).bind fun p _ => ?_
    exact (reads_build _ depth pattern (some p) s).bind fun n _ =>
      (reads_buildPatterns parent depth ps).map

theorem reads_buildChildren (parent : Text) (depth : Nat) (cs : List (Text × Shadow)) :
    Reads (Shadow.childTexts cs) (buildChildren parent depth cs) := by
  cases cs with
  | nil => exact .ok []
  | cons c cs =>
    obtain ⟨name,s⟩ := c
    rw [buildChildren,Shadow.childTexts]
    exact (reads_build _ depth name none s).bind fun n _ =>
      (reads_buildChildren parent depth cs).map

end

/-- What becomes of the rules of a directory. All of its patterns are read before it is noticed
that there are rules of single names, which only a pattern may have. -/
theorem ofShadow_cases (path : Text) (depth : Nat) (name : Text) (s : Shadow) :
    (∃ p ∈ s.texts, Legible p = false ∧
        ofShadow path depth name s = .error (.config (.invalidPattern p))) ∨
      (s.children ≠ [] ∧
        ofShadow path depth name s = .error (.config (.inlineChildren path))) ∨
      (s.children = [] ∧ (∀ p ∈ s.texts, Legible p = true) ∧
        ∃ n, ofShadow path depth name s = .ok n) := by
  cases s with
  | node g fs i ps cs =>
    have hps := reads_buildPatterns path (depth + 1) ps
    unfold Reads at hps
    rw [ofShadow,build]
    cases hfind : (Shadow.patternTexts ps).find? (fun p => !Legible p) with
    | some p =>
      rw [hfind] at hps
      refine .inl ⟨p,?_,by simpa using List.find?_some hfind,by rw [hps]; rfl⟩
      rw [Shadow.texts]
      exact List.mem_append_left _ (List.mem_of_find?_eq_some hfind)
    | none =>
      rw [hfind] at hps
      obtain ⟨ns,hns⟩ := hps
      rw [hns]
      cases cs with
      | cons c cs => exact .inr (.inl ⟨List.cons_ne_nil c cs,rfl⟩)
      | nil =>
        refine .inr (.inr ⟨rfl,fun p hp => ?_,_,rfl⟩)
        rw [Shadow.texts,Shadow.childTexts,List.append_nil] at hp
        simpa using List.find?_eq_none.1 hfind p hp

/-- Rules are read back from their text, whatever its layout, if it is not nested too deeply for
its reader, and from no text otherwise. They make a node if all patterns in them can be read and
no single names have rules outside of a pattern; that is the only way to fail. The rules stored
with the node are the same again, all patterns in their order, at any depth. -/
theorem shadow_roundTrip {s : Shadow} (hs : s.WellFormed) (layout : Json.Layout) (path : Text)
    (depth : Nat) (name : Text) :
    (s.depth < Json.depthLimit →
      Shadow.ofBytes (Text.encode (s.toJson.writeAt layout 0)) = .ok s) ∧
    (¬ s.depth < Json.depthLimit →
      ∃ fault, Shadow.ofBytes (Text.encode (s.toJson.writeAt layout 0)) = .error fault) ∧
    (∀ err, ofShadow path depth name s = .error err →
      (∃ p ∈ s.texts, Legible p = false ∧ err = .config (.invalidPattern p)) ∨
        (s.children ≠ [] ∧ err = .config (.inlineChildren path))) ∧
    ((∃ n, ofShadow path depth name s = .ok n) ↔
      s.children = [] ∧ ∀ p ∈ s.texts, Legible p = true) ∧
    ∀ n, ofShadow path depth name s = .ok n →
      n.toShadow = s ∧ n.path = path ∧ n.depth = depth ∧ n.name = name := by
  have hread := Shadow.ofBytes_writeAt layout hs
  refine ⟨hread.1,hread.2,?refused,?made,fun n hn => ?stored⟩
  case refused =>
    intro err herr
    rcases ofShadow_cases path depth name s with ⟨p,hp,hbad,h⟩ | ⟨hcs,h⟩ | ⟨-,-,n,h⟩
    all_goals rw [h] at herr; cases herr
    · exact .inl ⟨p,hp,hbad,rfl⟩
    · exact .inr ⟨hcs,rfl⟩
  case made =>
    rcases ofShadow_cases path depth name s with ⟨p,hp,hbad,h⟩ | ⟨hcs,h⟩ | ⟨hcs,hps,hn⟩
    · exact iff_of_false (by simp [h]) fun hall => by simp [hall.2 p hp] at hbad
    · exact iff_of_false (by simp [h]) fun hall => hcs hall.1
    · exact iff_of_true hn ⟨hcs,hps⟩
  case stored =>
    obtain ⟨hpath,hdepth,hname,hstored,-⟩ := ofShadow_spec hn
    exact ⟨hstored,hpath,hdepth,hname⟩

/-- What nobody but the writer of a letter may do with it. -/
def letterRules : Shadow :=
  .node [("%writer".toList,.of .read)] [] false [] []

/-- The private directory of a home. -/
def privateRules : Shadow :=
  .node [("%token".toList,.of .read)] [] false [("(?P<writer>[a-z]+)".toList,letterRules)] []

/-- Every home belongs to whom it is named after. The second rule never applies, and is kept. -/
def homeRules : Shadow :=
  .node [("$EVERYONE".toList,.of .read)] [] true
    [("[^/]+".toList,.node [("%token".toList,.of .write)]
        [("door".toList,{ inherits := false })] true [] [("private".toList,privateRules)]),
      ("[^/]+".toList,Shadow.empty)] []

theorem wellFormed_homeRules : homeRules.WellFormed := by
  have hletter : letterRules.WellFormed :=
    .node (by decide) (by decide) nofun nofun (by decide) nofun
  have hprivate : privateRules.WellFormed :=
    .node (by decide) (by decide) nofun (by simpa using hletter) (by decide) nofun
  have hhome : Shadow.WellFormed (.node [("%token".toList,.of .write)]
      [("door".toList,{ inherits := false })] true [] [("private".toList,privateRules)]) :=
    .node (by decide) (by decide) (by decide) nofun (by decide) (by simpa using hprivate)
  have hempty : Shadow.empty.WellFormed :=
    .node (by decide) (by decide) nofun nofun (by decide) nofun
  exact .node (by decide) (by decide) nofun (by simpa using ⟨hhome,hempty⟩) (by decide) nofun

theorem shadow_roundTrip_home :
    homeRules.WellFormed ∧ homeRules.depth < Json.depthLimit ∧
      Shadow.ofBytes (Text.encode (homeRules.toJson.writeAt .pretty 0)) = .ok homeRules ∧
      ∃ n, ofShadow "/home".toList 1 "home".toList homeRules = .ok n ∧ n.toShadow = homeRules := by
  have hdepth : homeRules.depth < Json.depthLimit := by decide +kernel
  obtain ⟨hread,-,-,hmade,hstored⟩ :=
    shadow_roundTrip wellFormed_homeRules .pretty "/home".toList 1 "home".toList
  obtain ⟨n,hn⟩ := hmade.2 ⟨rfl,by decide +kernel⟩
  exact ⟨wellFormed_homeRules,hdepth,hread hdepth,n,hn,(hstored n hn).1⟩

end Realm.Acl
