import Realm.Proofs.Acl.RoundTrip
import Realm.Proofs.Pattern.Anchoring

/-! Patterns of rules match whole names. A pattern that is accepted selects a name exactly if it
matches all of it, and what is no pattern is refused, unless it ends the group that is put around
it. -/
namespace Realm.Acl.Node

open Regex (Documented EndsGroup compile)

variable {R : Type} [Regex R]

/-- A node for a pattern that has been accepted, as a new rule or as a stored one. -/
inductive Accepted (pattern : Text) : Node R → Prop
  | added {parent n : Node R} {g : Grants} {on : Bool}
    (h : ofPattern parent pattern g on = .ok n) : Accepted pattern n
  | stored {parent : Text} {depth : Nat} {rules : List (Text × Shadow)} {ns : List (Node R)}
    {n : Node R} (h : buildPatterns parent depth rules = .ok ns) (hn : n ∈ ns)
    (hname : n.name = pattern) : Accepted pattern n

theorem compiled_buildPatterns {parent : Text} {depth : Nat} {rules : List (Text × Shadow)}
    {ns : List (Node R)} (h : buildPatterns parent depth rules = .ok ns) :
    ∀ n ∈ ns, ∃ p, compilePattern n.name = .ok p ∧ n.pattern = some p := by
  induction rules generalizing ns with
  | nil =>
    cases h
    simp
  | cons rule rules ih =>
    obtain ⟨pattern,s⟩ := rule
    rw [buildPatterns] at h
    obtain ⟨p,hp,h⟩ := bind_eq_ok.1 h
    obtain ⟨n,hn,h⟩ := bind_eq_ok.1 h
    obtain ⟨ns,hns,h⟩ := bind_eq_ok.1 h
    cases h
    obtain ⟨-,-,hname,-,hpattern,-⟩ := build_spec hn
    intro m hm
    rcases List.mem_cons.1 hm with rfl | hm
    · exact ⟨p,by rw [hname]; exact hp,hpattern⟩
    · exact ih hns m hm

theorem Accepted.compiled {pattern : Text} {n : Node R} (h : n.Accepted pattern) :
    ∃ p, compilePattern pattern = .ok p ∧ n.pattern = some p := by
  cases h with
  | added h =>
    obtain ⟨p,hp,h⟩ := bind_eq_ok.1 h
    cases h
    exact ⟨p,hp,rfl⟩
  | stored h hn hname =>
    rw [← hname]
    exact compiled_buildPatterns h n hn

/-- What is compiled for a rule is the text of its pattern in a group between the two ends of a
text. -/
theorem compilePattern_eq_ok {pattern : Text} {p : R} : compilePattern pattern = .ok p ↔
    compile ('^' :: Regex.grouped pattern ++ ['$']) = some p := by
  have hwhole : '^' :: Regex.grouped pattern ++ ['$'] =
      "^(?:".toList ++ pattern ++ ")$".toList := by
    simp [Regex.grouped]
  rw [hwhole,compilePattern]
  cases (compile ("^(?:".toList ++ pattern ++ ")$".toList) : Option R) <;> simp

theorem firstMatch_capture {segment : Text} {ns : List (Node R)} {r : Nat × Node R × Bindings}
    (h : firstMatch segment ns = some r) :
    r.2.1.pattern.bind (capture · segment) = some r.2.2 := by
  induction ns generalizing r with
  | nil => cases h
  | cons n ns ih =>
    rw [firstMatch] at h
    split at h
    · next hbound =>
      cases h
      exact hbound
    · obtain ⟨r',hr',rfl⟩ := Option.map_eq_some_iff.1 h
      have hcapture := ih hr'
      exact hcapture

theorem firstMatch_isSome {segment : Text} {ns : List (Node R)} {n : Node R} (hn : n ∈ ns)
    (h : (n.pattern.bind (capture · segment)).isSome = true) :
    (firstMatch segment ns).isSome = true := by
  induction ns with
  | nil => cases hn
  | cons m ns ih =>
    rw [firstMatch]
    split
    · rfl
    · next hnone =>
      rcases List.mem_cons.1 hn with rfl | hn
      · rw [hnone] at h
        cases h
      · rw [Option.isSome_map]
        exact ih hn

/-- What is accepted is an expression, and selects a name exactly if it matches all of it, and what
is no expression is refused, unless it ends the group that is put around it. -/
theorem accepted_selects {Matches : R → Text → Text → Text → Prop} (doc : Documented Matches)
    (pattern : Text) :
    (∀ n : Node R, n.Accepted pattern → EndsGroup R pattern ∨
      ∃ q : R, compile pattern = some q ∧ ∀ (directory : Node R) (segment : Text),
        (∀ i bound, directory.match? segment = some (i,n,bound) → Matches q [] segment []) ∧
        (n ∈ directory.patterns → Matches q [] segment [] →
          (directory.match? segment).isSome = true)) ∧
    ∀ (parent : Node R) (g : Grants) (on : Bool), (compile pattern : Option R) = none →
      ofPattern parent pattern g on = .error (.config (.invalidPattern pattern)) ∨
        EndsGroup R pattern ∧ ∃ n, ofPattern parent pattern g on = .ok n := by
  refine ⟨fun n hn => ?_,fun parent g on hnone => ?_⟩
  · obtain ⟨p,hp,hpattern⟩ := hn.compiled
    have hwhole := compilePattern_eq_ok.1 hp
    rcases doc.compiled hwhole with hends | ⟨q,hq⟩
    · exact .inl hends
    · have hcapture (segment : Text) :
          (n.pattern.bind (capture · segment)).isSome = true ↔ Matches q [] segment [] := by
        rw [hpattern,Option.bind_some,capture,Option.isSome_map]
        exact doc.isSome_captures? hq hwhole segment
      refine .inr ⟨q,hq,fun directory segment => ⟨fun i bound h => ?_,fun hmem hmatch => ?_⟩⟩
      · have hbound := firstMatch_capture h
        exact (hcapture segment).1 (by rw [hbound]; rfl)
      · exact firstMatch_isSome hmem ((hcapture segment).2 hmatch)
  · rcases compilePattern_cases (R := R) pattern with ⟨p,hp⟩ | hp
    · obtain ⟨n,hn⟩ : ∃ n, ofPattern parent pattern g on = .ok n := by
        rw [ofPattern,hp]
        exact ⟨_,rfl⟩
      rcases doc.compiled (compilePattern_eq_ok.1 hp) with hends | ⟨q,hq⟩
      · exact .inr ⟨hends,n,hn⟩
      · rw [hnone] at hq
        cases hq
    · left
      rw [ofPattern,hp]
      rfl

/-- A directory at the top with one pattern. -/
def oneRule (n : Node) : Node :=
  (Node.new ['/'] 0 [] []).withPatterns [n]

theorem accepted_selects_letter : Documented Pattern.Matches ∧
    ∃ n, ofPattern (Node.new ['/'] 0 [] []) ['a'] [] true = .ok n ∧
      ((oneRule n).match? ['a']).isSome = true ∧ (oneRule n).match? ['a','x'] = none := by
  have hread : compile ['a'] = some (Pattern.chars (.char 'a')) := by decide +kernel
  have hends : ¬EndsGroup Pattern ['a'] := fun h => by rw [h.1] at hread; cases hread
  have hcompile : compilePattern ['a'] = .ok (Pattern.chars (.char 'a')).anchored :=
    compilePattern_eq_ok.2 (by decide +kernel)
  obtain ⟨n,hn⟩ : ∃ n, ofPattern (Node.new ['/'] 0 [] []) ['a'] [] true = .ok n := by
    rw [ofPattern,hcompile]
    exact ⟨_,rfl⟩
  obtain ⟨q,hq,hselects⟩ :=
    ((accepted_selects Pattern.documented ['a']).1 n (.added hn)).resolve_left hends
  rw [hread] at hq
  cases hq
  refine ⟨Pattern.documented,n,hn,?_,?_⟩
  · exact (hselects (oneRule n) ['a']).2 (List.mem_singleton_self n) (.chars rfl)
  · cases hmatch : (oneRule n).match? ['a','x'] with
    | none => rfl
    | some r =>
      obtain ⟨i,m,bound⟩ := r
      obtain rfl : m = n := List.mem_singleton.1 (mem_of_firstMatch hmatch)
      cases (hselects _ _).1 i bound hmatch

/-- A text that is no expression is accepted if it ends the group around it, and then it may select
a name of which it matches a part. -/
theorem not_accepted_selects :
    ¬(∀ (R : Type) [Regex R] (Matches : R → Text → Text → Text → Prop), Documented Matches →
      ∀ (pattern : Text) (n : Node R), n.Accepted pattern → ∀ p, n.pattern = some p →
        ∀ (directory : Node R) (segment : Text) (i : Nat) (bound : Bindings),
          directory.match? segment = some (i,n,bound) → Matches p [] segment []) ∧
    ¬(∀ (R : Type) [Regex R] (Matches : R → Text → Text → Text → Prop), Documented Matches →
      ∀ pattern : Text, (compile pattern : Option R) = none →
        ∀ (parent : Node R) (g : Grants) (on : Bool),
          ofPattern parent pattern g on = .error (.config (.invalidPattern pattern))) := by
  let p : Pattern := .alt (.seq (.look .textStart) (.chars (.char 'a')))
    (.seq (.chars (.char 'b')) (.look .textEnd))
  have hcompile : compilePattern "a)|(?:b".toList = .ok p :=
    compilePattern_eq_ok.2 (by decide +kernel)
  let top : Node := Node.new ['/'] 0 [] []
  obtain ⟨n,hn,hpattern⟩ : ∃ n, ofPattern top "a)|(?:b".toList [] true = .ok n ∧
      n.pattern = some p := by
    rw [ofPattern,hcompile]
    exact ⟨_,rfl,rfl⟩
  constructor
  · intro hall
    have hcapture : capture p ['a','x'] = some [(wholeName,['a','x'])] := by decide +kernel
    have hmatch : (oneRule n).match? ['a','x'] = some (0,n,[(wholeName,['a','x'])]) := by
      change firstMatch ['a','x'] [n] = _
      rw [firstMatch,hpattern,Option.bind_some,hcapture]
    have hspans := hall Pattern Pattern.Matches Pattern.documented _ n (.added hn) p hpattern
      (oneRule n) _ _ _ hmatch
    change Pattern.Spans (.alt (.seq _ (.chars _)) (.seq (.chars _) _)) _ _ at hspans
    -- The first alternative leaves the second character, the other one begins with another.
    cases hspans with
    | left h =>
      cases h with
      | seq hstart h =>
        cases hstart
        cases h
    | right h =>
      cases h with
      | seq h hend =>
        cases h with
        | chars h => exact absurd h (by decide)
  · intro hall
    have hnone : Pattern.read? "a)|(?:b".toList = none := by decide +kernel
    rw [hall Pattern Pattern.Matches Pattern.documented _ hnone] at hn
    cases hn

end Realm.Acl.Node
