import Mathlib.Data.List.Nodup
import Realm.Proofs.Expansion

/-! A file expression with a mark in each segment finds all that there is to be found, and each of
it once. It goes down from one directory to the next, level by level, and asks for the entries of
each directory that the segments before the last one lead to. What is found is told against a log
of these calls, since the answer to a call may depend on those before it. -/
namespace Realm

namespace Expansion

open Realm.Path (ofSegments AreNames IsName)

/-- A directory of which the entries are asked for, and the answer. -/
abbrev Listed := List Text × Except Error (Access (List DirectoryEntry))

def entriesOf : Except Error (Access (List DirectoryEntry)) → List DirectoryEntry
  | .ok (.granted entries) => entries
  | _ => []

theorem mem_entriesOf {answer : Except Error (Access (List DirectoryEntry))} {e : DirectoryEntry} :
    e ∈ entriesOf answer ↔ ∃ entries, answer = .ok (.granted entries) ∧ e ∈ entries := by
  rcases answer with _ | (entries | _) <;> simp [entriesOf]

section Calls

variable {σ : Type} {m : FileManager σ} {identity : Text}

/-- Directories that are listed to an identity one after the other, and the answers. -/
inductive Lists (m : FileManager σ) (identity : Text) : List Listed → σ → σ → Prop
  | nil {w : σ} : Lists m identity [] w w
  | cons {place : List Text} {answer : Except Error (Access (List DirectoryEntry))}
      {calls : List Listed} {w w₁ w' : σ} :
      m.list identity (ofSegments place) w = (answer,w₁) → Lists m identity calls w₁ w' →
    Lists m identity ((place,answer) :: calls) w w'

theorem Lists.append {calls more : List Listed} {w w₁ w' : σ} (h : Lists m identity calls w w₁)
    (hmore : Lists m identity more w₁ w') : Lists m identity (calls ++ more) w w' := by
  induction h with
  | nil => exact hmore
  | cons hcall _ ih => exact .cons hcall (ih hmore)

/-- As long as something holds of the state, what is listed are names, none of them twice. -/
structure ListsTidily (m : FileManager σ) (identity : Text) (keep : σ → Prop) : Prop where
  keeps : ∀ path w, keep w → keep (m.list identity path w).2
  names : ∀ path w entries, keep w → (m.list identity path w).1 = .ok (.granted entries) →
    ∀ e ∈ entries, IsName e.name
  nodup : ∀ path w entries, keep w → (m.list identity path w).1 = .ok (.granted entries) →
    (entries.map (·.name)).Nodup

theorem Lists.tidy {keep : σ → Prop} (hm : ListsTidily m identity keep) {calls : List Listed}
    {w w' : σ} (h : Lists m identity calls w w') (hw : keep w) :
    keep w' ∧ ∀ call ∈ calls, (∀ e ∈ entriesOf call.2, IsName e.name) ∧
      ((entriesOf call.2).map (·.name)).Nodup := by
  induction h with
  | nil => exact ⟨hw,List.forall_mem_nil _⟩
  | @cons place answer calls w w₁ w' hcall _ ih =>
    have hkeep := hm.keeps (ofSegments place) w hw
    rw [hcall] at hkeep
    obtain ⟨hw',hcalls⟩ := ih hkeep
    refine ⟨hw',List.forall_mem_cons.2 ⟨?_,hcalls⟩⟩
    rcases answer with err | (entries | _)
    · exact ⟨List.forall_mem_nil _,.nil⟩
    · exact ⟨hm.names _ _ entries hw (congrArg Prod.fst hcall),
        hm.nodup _ _ entries hw (congrArg Prod.fst hcall)⟩
    · exact ⟨List.forall_mem_nil _,.nil⟩

theorem listing_eq_ok {path : Text} {entries : List DirectoryEntry} {w w' : σ}
    (h : listing m identity path w = (.ok entries,w')) :
    ∃ answer, m.list identity path w = (answer,w') ∧ entries = entriesOf answer := by
  unfold listing at h
  split at h <;> cases h <;> exact ⟨_,‹_›,rfl⟩

theorem listing_eq_error {path : Text} {err : Error} {w w' : σ}
    (h : listing m identity path w = (.error err,w')) :
    m.list identity path w = (.error err,w') ∧ (∀ e, err ≠ .file e) ∧ ∀ p, err ≠ .noMount p := by
  unfold listing at h
  split at h <;> cases h
  next hfile hmount hlist =>
    exact ⟨hlist,hfile,hmount⟩

end Calls

section Ways

/-- An entry that is granted in a directory and that can stand for a segment. -/
structure Stands (calls : List Listed) (place : List Text) (segment : Text) (e : DirectoryEntry) :
    Prop where
  granted : ∃ entries, (place,.ok (.granted entries)) ∈ calls ∧ e ∈ entries
  matched : ∃ p, Glob.compile segment = .ok p ∧ p.isMatch e.name = true
  dotted : e.name.head? = some '.' → segment.head? = some '.'

/-- The directories that segments lead to from the directory `top`. -/
inductive Reaches (calls : List Listed) (top : List Text) : List Text → List Text → Prop
  | top : Reaches calls top [] []
  | enter {segments way : List Text} {segment : Text} {e : DirectoryEntry} :
      Reaches calls top segments way → Stands calls (top ++ way) segment e →
      e.info = .directory →
    Reaches calls top (segments ++ [segment]) (way ++ [e.name])

/-- The entries that segments lead to: those that can stand for the last one, in a directory that
the others lead to. -/
def Matches (calls : List Listed) (top segments way : List Text) : Prop :=
  ∃ before last above e, segments = before ++ [last] ∧ Reaches calls top before above ∧
    Stands calls (top ++ above) last e ∧ way = above ++ [e.name]

/-- The directories that segments but the last one lead to are asked for their entries, each of
them once, and no others. -/
structure Asks (calls : List Listed) (top segments : List Text) : Prop where
  once : (calls.map (·.1)).Nodup
  asked : ∀ place, place ∈ calls.map (·.1) ↔ ∃ before rest way, segments = before ++ rest ∧
    rest ≠ [] ∧ Reaches calls top before way ∧ place = top ++ way

variable {calls more : List Listed} {top before segments way : List Text} {segment : Text}
  {e : DirectoryEntry}

theorem Stands.mono (h : Stands calls way segment e) (hcalls : calls ⊆ more) :
    Stands more way segment e := by
  obtain ⟨⟨entries,hcall,he⟩,hmatched,hdotted⟩ := h
  exact ⟨⟨entries,hcalls hcall,he⟩,hmatched,hdotted⟩

theorem Reaches.mono (h : Reaches calls top segments way) (hcalls : calls ⊆ more) :
    Reaches more top segments way := by
  induction h with
  | top => exact .top
  | enter _ hstands hinfo ih => exact .enter ih (hstands.mono hcalls) hinfo

theorem Reaches.length_eq (h : Reaches calls top segments way) : way.length = segments.length := by
  induction h with
  | top => rfl
  | enter _ _ _ ih => rw [List.length_append,List.length_append,ih]; rfl

theorem Reaches.of_append (h : Reaches (calls ++ more) top segments way)
    (hmore : ∀ call ∈ more, top.length + segments.length ≤ call.1.length) :
    Reaches calls top segments way := by
  induction h with
  | top => exact .top
  | @enter segments way segment e hreaches hstands hinfo ih =>
    simp only [List.length_append,List.length_singleton] at hmore
    refine .enter (ih fun call hcall => ?_) ?_ hinfo
    · have := hmore call hcall
      omega
    · obtain ⟨⟨entries,hcall,he⟩,hmatched,hdotted⟩ := hstands
      refine ⟨⟨entries,(List.mem_append.1 hcall).resolve_right fun hcall => ?_,he⟩,hmatched,hdotted⟩
      have := hmore _ hcall
      rw [List.length_append,hreaches.length_eq] at this
      omega

@[simp] theorem reaches_nil : Reaches calls top [] way ↔ way = [] := by
  constructor
  · intro h
    exact List.length_eq_zero_iff.1 h.length_eq
  · rintro rfl
    exact .top

theorem reaches_append_singleton : Reaches calls top (segments ++ [segment]) way ↔
    ∃ above e, Reaches calls top segments above ∧ Stands calls (top ++ above) segment e ∧
      e.info = .directory ∧ way = above ++ [e.name] := by
  constructor
  · intro h
    generalize hall : segments ++ [segment] = all at h
    cases h with
    | top => exact absurd hall (by simp)
    | enter hreaches hstands hinfo =>
      obtain ⟨rfl,hlast⟩ := List.append_inj' hall rfl
      cases hlast
      exact ⟨_,_,hreaches,hstands,hinfo,rfl⟩
  · rintro ⟨above,e,hreaches,hstands,hinfo,rfl⟩
    exact .enter hreaches hstands hinfo

theorem matches_append_singleton : Matches calls top (segments ++ [segment]) way ↔
    ∃ above e, Reaches calls top segments above ∧ Stands calls (top ++ above) segment e ∧
      way = above ++ [e.name] := by
  constructor
  · rintro ⟨before,last,above,e,hall,hreaches,hstands,rfl⟩
    obtain ⟨rfl,hlast⟩ := List.append_inj' hall rfl
    cases hlast
    exact ⟨above,e,hreaches,hstands,rfl⟩
  · rintro ⟨above,e,hreaches,hstands,rfl⟩
    exact ⟨segments,segment,above,e,rfl,hreaches,hstands,rfl⟩

theorem Reaches.of_segments_append (h : Reaches calls top (before ++ segments) way) :
    ∃ above, Reaches calls top before above := by
  induction segments using List.reverseRecOn generalizing way with
  | nil => exact ⟨way,by rwa [List.append_nil] at h⟩
  | append_singleton segments segment ih =>
    rw [← List.append_assoc] at h
    obtain ⟨above,e,hreaches,-,-,-⟩ := reaches_append_singleton.1 h
    exact ih hreaches

theorem Asks.append_of_forall_not (h : Asks calls top before)
    (hnone : ∀ way, ¬ Reaches calls top before way) (rest : List Text) :
    Asks calls top (before ++ rest) := by
  refine ⟨h.once,fun place => (h.asked place).trans ⟨?_,?_⟩⟩
  · rintro ⟨shorter,more,way,rfl,hmore,hreaches,rfl⟩
    exact ⟨shorter,more ++ rest,way,by simp,by simp [hmore],hreaches,rfl⟩
  · rintro ⟨shorter,more,way,hall,-,hreaches,rfl⟩
    rcases List.append_eq_append_iff.1 hall with ⟨c,rfl,-⟩ | ⟨c,rfl,-⟩
    · obtain ⟨above,habove⟩ := hreaches.of_segments_append
      exact absurd habove (hnone above)
    · refine ⟨shorter,c,way,rfl,?_,hreaches,rfl⟩
      rintro rfl
      rw [List.append_nil] at hnone
      exact hnone way hreaches

theorem not_matches_append_of_forall_not (hnone : ∀ way, ¬ Reaches calls top before way)
    (hne : segments ≠ []) : ¬ Matches calls top (before ++ segments) way := by
  obtain ⟨segments,last,rfl⟩ : ∃ init last, segments = init ++ [last] :=
    ⟨_,_,(List.dropLast_concat_getLast hne).symm⟩
  rw [← List.append_assoc,matches_append_singleton]
  rintro ⟨above,e,hreaches,-,-⟩
  obtain ⟨above,habove⟩ := hreaches.of_segments_append
  exact hnone above habove

end Ways

section Search

variable {σ : Type} {m : FileManager σ} {identity : Text} {keep : σ → Prop} {absolute : Bool}
  {top before : List Text} {calls : List Listed} {ways : List (List Text)}

def Candidate.ofWay (absolute : Bool) (top way : List Text) : Candidate :=
  ⟨ofSegments (top ++ way),shownAs absolute way⟩

def further (good : DirectoryEntry → Bool) (answers : List Listed) : List (List Text) :=
  answers.flatMap fun a => ((entriesOf a.2).filter good).map fun e => a.1 ++ [e.name]

@[simp] theorem further_cons (good : DirectoryEntry → Bool) (a : Listed) (answers : List Listed) :
    further good (a :: answers) =
      (((entriesOf a.2).filter good).map fun e => a.1 ++ [e.name]) ++ further good answers := rfl

def callsFrom (top : List Text) (answers : List Listed) : List Listed :=
  answers.map fun a => (top ++ a.1,a.2)

@[simp] theorem map_fst_callsFrom (top : List Text) (answers : List Listed) :
    (callsFrom top answers).map (·.1) = (answers.map (·.1)).map (top ++ ·) := by
  simp [callsFrom]

@[simp] theorem mem_callsFrom {way : List Text} {answers : List Listed}
    {answer : Except Error (Access (List DirectoryEntry))} :
    (top ++ way,answer) ∈ callsFrom top answers ↔ (way,answer) ∈ answers := by
  simp [callsFrom]

/-- A segment has the entries of each candidate listed, and goes on by them. -/
theorem extend_lists {good : DirectoryEntry → Bool} {next : List Candidate} {w w' : σ}
    (htop : AreNames top) (hways : ∀ way ∈ ways, AreNames way)
    (h : extend m identity absolute good (ways.map (.ofWay absolute top)) w = (.ok next,w')) :
    ∃ answers, answers.map (·.1) = ways ∧ Lists m identity (callsFrom top answers) w w' ∧
      next = (further good answers).map (.ofWay absolute top) := by
  induction ways generalizing next w with
  | nil =>
    cases h
    exact ⟨[],rfl,.nil,rfl⟩
  | cons way ways ih =>
    obtain ⟨hway,hways⟩ := List.forall_mem_cons.1 hways
    rw [List.map_cons,extend] at h
    obtain ⟨entries,w₁,hlisting,h⟩ := Action.bind_ok h
    obtain ⟨rest,w₂,hrest,h⟩ := Action.bind_ok h
    cases h
    obtain ⟨answer,hlist,rfl⟩ := listing_eq_ok hlisting
    obtain ⟨answers,rfl,hcalls,rfl⟩ := ih hways hrest
    refine ⟨(way,answer) :: answers,rfl,.cons hlist hcalls,?_⟩
    rw [further_cons,List.map_append,List.map_map]
    refine congrArg (· ++ _) (List.map_congr_left fun e _ => ?_)
    simp only [Candidate.ofWay,Function.comp_apply]
    rw [Path.child_ofSegments (htop.append hway),shownAs_append,List.append_assoc]

theorem fits_eq_true {segment : Text} {p : Pattern} {last : Bool} {e : DirectoryEntry} :
    fits segment p last e = true ↔ (e.name.head? = some '.' → segment.head? = some '.') ∧
      p.isMatch e.name = true ∧ (last = true ∨ e.info = .directory) := by
  have hinfo : e.info.isDirectory = true ↔ e.info = .directory := by
    cases e.info <;> simp [FileInfo.isDirectory]
  simp [fits,hinfo,or_iff_not_imp_left,and_assoc]

/-- Ways that are told apart, and the calls that it took to find them: where segments lead, be it
to directories or to any entries. -/
structure Level (leads : List Listed → List Text → List Text → List Text → Prop)
    (calls : List Listed) (top segments : List Text) (ways : List (List Text)) : Prop where
  mem : ∀ way, way ∈ ways ↔ leads calls top segments way
  nodup : ways.Nodup
  names : ∀ way ∈ ways, AreNames way
  asks : Asks calls top segments

namespace Level

theorem start (top : List Text) : Level Reaches [] top [] [[]] where
  mem way := by rw [List.mem_singleton,reaches_nil]
  nodup := List.nodup_singleton _
  names := List.forall_mem_singleton.2 Path.areNames_nil
  asks := by
    refine ⟨.nil,fun place => iff_of_false List.not_mem_nil ?_⟩
    rintro ⟨before,rest,way,hall,hrest,-⟩
    exact hrest (List.append_eq_nil_iff.1 hall.symm).2

variable {answers : List Listed} {segment : Text}

theorem length_of_asked (h : Level Reaches calls top before ways) {call : Listed}
    (hcall : call ∈ calls) : call.1.length < top.length + before.length := by
  obtain ⟨shorter,rest,way,rfl,hrest,hreaches,hplace⟩ :=
    (h.asks.asked call.1).1 (List.mem_map_of_mem hcall)
  have hlength := List.length_pos_iff.2 hrest
  rw [hplace,List.length_append,List.length_append,hreaches.length_eq]
  omega

theorem length_of_mem (h : Level Reaches calls top before (answers.map (·.1))) {call : Listed}
    (hcall : call ∈ callsFrom top answers) : call.1.length = top.length + before.length := by
  obtain ⟨a,ha,rfl⟩ := List.mem_map.1 hcall
  rw [List.length_append,((h.mem a.1).1 (List.mem_map_of_mem ha)).length_eq]

theorem reaches_iff (h : Level Reaches calls top before (answers.map (·.1)))
    {shorter rest way : List Text} (hbefore : before = shorter ++ rest) :
    Reaches (calls ++ callsFrom top answers) top shorter way ↔ Reaches calls top shorter way := by
  refine ⟨fun hreaches => hreaches.of_append fun call hcall => ?_,
    fun hreaches => hreaches.mono (List.subset_append_left _ _)⟩
  rw [h.length_of_mem hcall,hbefore,List.length_append]
  omega

theorem asks_append (h : Level Reaches calls top before (answers.map (·.1))) (segment : Text) :
    Asks (calls ++ callsFrom top answers) top (before ++ [segment]) := by
  constructor
  · rw [List.map_append,map_fst_callsFrom,List.nodup_append']
    refine ⟨h.asks.once,h.nodup.map (List.append_right_injective top),fun place hold hnew => ?_⟩
    rw [← map_fst_callsFrom] at hnew
    obtain ⟨call,hcall,rfl⟩ := List.mem_map.1 hold
    obtain ⟨call',hcall',heq⟩ := List.mem_map.1 hnew
    have hlt := h.length_of_asked hcall
    rw [← heq,h.length_of_mem hcall'] at hlt
    omega
  · intro place
    rw [List.map_append,List.mem_append,map_fst_callsFrom,h.asks.asked,List.mem_map]
    constructor
    · rintro (⟨shorter,rest,way,hbefore,hrest,hreaches,rfl⟩ | ⟨way,hway,rfl⟩)
      · exact ⟨shorter,rest ++ [segment],way,by rw [hbefore,List.append_assoc],by simp,
          (h.reaches_iff hbefore).2 hreaches,rfl⟩
      · exact ⟨before,[segment],way,rfl,by simp,
          (h.reaches_iff (List.append_nil _).symm).2 ((h.mem way).1 hway),rfl⟩
    · rintro ⟨shorter,rest,way,hall,hrest,hreaches,rfl⟩
      obtain ⟨rest,last,rfl⟩ : ∃ init last, rest = init ++ [last] :=
        ⟨_,_,(List.dropLast_concat_getLast hrest).symm⟩
      rw [← List.append_assoc] at hall
      obtain ⟨hbefore,-⟩ := List.append_inj' hall rfl
      have hreaches := (h.reaches_iff hbefore).1 hreaches
      by_cases hrest : rest = []
      · rw [hrest,List.append_nil] at hbefore
        exact .inr ⟨way,(h.mem way).2 (hbefore ▸ hreaches),rfl⟩
      · exact .inl ⟨shorter,rest,way,hbefore,hrest,hreaches,rfl⟩

/-- What stands for the next segment is in the answers at the ends of the ways. -/
theorem stands_iff (h : Level Reaches calls top before (answers.map (·.1))) {way : List Text}
    {e : DirectoryEntry} (hway : Reaches calls top before way) :
    Stands (calls ++ callsFrom top answers) (top ++ way) segment e ↔
      (∃ answer, (way,answer) ∈ answers ∧ e ∈ entriesOf answer) ∧
      (∃ p, Glob.compile segment = .ok p ∧ p.isMatch e.name = true) ∧
      (e.name.head? = some '.' → segment.head? = some '.') := by
  constructor
  · rintro ⟨⟨entries,hcall,he⟩,hmatched,hdotted⟩
    rcases List.mem_append.1 hcall with hold | hnew
    · have hlt := h.length_of_asked hold
      rw [List.length_append,hway.length_eq] at hlt
      omega
    · exact ⟨⟨_,mem_callsFrom.1 hnew,mem_entriesOf.2 ⟨entries,rfl,he⟩⟩,hmatched,hdotted⟩
  · rintro ⟨⟨answer,hanswer,he⟩,hmatched,hdotted⟩
    obtain ⟨entries,rfl,he⟩ := mem_entriesOf.1 he
    exact ⟨⟨entries,List.mem_append_right _ (mem_callsFrom.2 hanswer),he⟩,hmatched,hdotted⟩

/-- The ways that go on are those that end with what stands for the next segment. -/
theorem mem_further (h : Level Reaches calls top before (answers.map (·.1))) {p : Pattern}
    (hcompile : Glob.compile segment = .ok p) {last : Bool} {way : List Text} :
    way ∈ further (fits segment p last) answers ↔ ∃ above e,
      Reaches (calls ++ callsFrom top answers) top before above ∧
      Stands (calls ++ callsFrom top answers) (top ++ above) segment e ∧
      (last = true ∨ e.info = .directory) ∧ way = above ++ [e.name] := by
  simp only [h.reaches_iff (List.append_nil before).symm]
  constructor
  · intro hway
    obtain ⟨⟨above,answer⟩,hanswer,hway⟩ := List.mem_flatMap.1 hway
    obtain ⟨e,he,rfl⟩ := List.mem_map.1 hway
    obtain ⟨he,hfits⟩ := List.mem_filter.1 he
    obtain ⟨hdotted,hmatch,hlast⟩ := fits_eq_true.1 hfits
    have habove := (h.mem above).1 (List.mem_map.2 ⟨_,hanswer,rfl⟩)
    exact ⟨above,e,habove,
      (h.stands_iff habove).2 ⟨⟨answer,hanswer,he⟩,⟨p,hcompile,hmatch⟩,hdotted⟩,hlast,rfl⟩
  · rintro ⟨above,e,habove,hstands,hlast,rfl⟩
    obtain ⟨⟨answer,hanswer,he⟩,⟨q,hq,hmatch⟩,hdotted⟩ := (h.stands_iff habove).1 hstands
    obtain rfl : p = q := Except.ok.inj (hcompile.symm.trans hq)
    exact List.mem_flatMap.2 ⟨_,hanswer,List.mem_map.2
      ⟨e,List.mem_filter.2 ⟨he,fits_eq_true.2 ⟨hdotted,hmatch,hlast⟩⟩,rfl⟩⟩

/-- What goes on from different ways, or by different names, stays different. -/
theorem nodup_further (h : Level Reaches calls top before (answers.map (·.1)))
    (hanswers : ∀ a ∈ answers, ((entriesOf a.2).map (·.name)).Nodup)
    (good : DirectoryEntry → Bool) : (further good answers).Nodup := by
  refine List.nodup_flatMap.2 ⟨fun a ha => ?_,?_⟩
  · have hnames : (((entriesOf a.2).filter good).map (·.name)).Nodup :=
      (hanswers a ha).sublist (List.filter_sublist.map _)
    have hmap : (((entriesOf a.2).filter good).map fun e => a.1 ++ [e.name]) =
        (((entriesOf a.2).filter good).map (·.name)).map fun name => a.1 ++ [name] := by
      simp
    rw [hmap]
    exact hnames.map fun name name' he => List.singleton_inj.1 (List.append_cancel_left he)
  · refine (List.pairwise_map.1 h.nodup).imp fun hne way hway hway' => hne ?_
    obtain ⟨e,-,rfl⟩ := List.mem_map.1 hway
    obtain ⟨e',-,he⟩ := List.mem_map.1 hway'
    exact (List.append_inj' he rfl).1.symm

theorem names_further (h : Level Reaches calls top before (answers.map (·.1)))
    (hanswers : ∀ a ∈ answers, ∀ e ∈ entriesOf a.2, IsName e.name)
    (good : DirectoryEntry → Bool) : ∀ way ∈ further good answers, AreNames way := by
  intro way hway
  obtain ⟨a,ha,hway⟩ := List.mem_flatMap.1 hway
  obtain ⟨e,he,rfl⟩ := List.mem_map.1 hway
  exact (h.names a.1 (List.mem_map_of_mem ha)).append
    (List.forall_mem_singleton.2 (hanswers a ha e (List.mem_filter.1 he).1))

theorem next (h : Level Reaches calls top before (answers.map (·.1))) {p : Pattern}
    (hcompile : Glob.compile segment = .ok p)
    (hanswers : ∀ a ∈ answers, (∀ e ∈ entriesOf a.2, IsName e.name) ∧
      ((entriesOf a.2).map (·.name)).Nodup) :
    Level Reaches (calls ++ callsFrom top answers) top (before ++ [segment])
      (further (fits segment p false) answers) where
  mem way := by
    rw [h.mem_further hcompile,reaches_append_singleton]
    simp only [Bool.false_eq_true,false_or]
  nodup := h.nodup_further (fun a ha => (hanswers a ha).2) _
  names := h.names_further (fun a ha => (hanswers a ha).1) _
  asks := h.asks_append segment

theorem last (h : Level Reaches calls top before (answers.map (·.1))) {p : Pattern}
    (hcompile : Glob.compile segment = .ok p)
    (hanswers : ∀ a ∈ answers, (∀ e ∈ entriesOf a.2, IsName e.name) ∧
      ((entriesOf a.2).map (·.name)).Nodup) :
    Level Matches (calls ++ callsFrom top answers) top (before ++ [segment])
      (further (fits segment p true) answers) where
  mem way := by
    rw [h.mem_further hcompile,matches_append_singleton]
    simp only [true_or,true_and]
  nodup := h.nodup_further (fun a ha => (hanswers a ha).2) _
  names := h.names_further (fun a ha => (hanswers a ha).1) _
  asks := h.asks_append segment

theorem ended (h : Level Reaches calls top before []) {segments : List Text} (hne : segments ≠ []) :
    Level Matches calls top (before ++ segments) [] where
  mem way := by
    have hnone : ∀ way, ¬ Reaches calls top before way :=
      fun way hway => List.not_mem_nil ((h.mem way).2 hway)
    exact iff_of_false List.not_mem_nil (not_matches_append_of_forall_not hnone hne)
  nodup := .nil
  names := List.forall_mem_nil _
  asks := h.asks.append_of_forall_not
    (fun way hway => List.not_mem_nil ((h.mem way).2 hway)) segments

end Level

/-- The search comes to all entries that the segments lead to. -/
theorem follow_found {segments : List Text} (hm : ListsTidily m identity keep)
    (htop : AreNames top) (hne : segments ≠ []) (hmarks : ∀ s ∈ segments, hasGlob s = true)
    {found : List Candidate} {w w' : σ} (hw : keep w) (hlevel : Level Reaches calls top before ways)
    (h : follow m identity absolute segments (ways.map (.ofWay absolute top)) w = (.ok found,w')) :
    ∃ more ways', Lists m identity more w w' ∧ found = ways'.map (.ofWay absolute top) ∧
      Level Matches (calls ++ more) top (before ++ segments) ways' := by
  induction segments generalizing before calls ways w with
  | nil => exact absurd rfl hne
  | cons segment segments ih =>
    obtain ⟨hmark,hmarks⟩ := List.forall_mem_cons.1 hmarks
    rw [follow,if_pos hmark] at h
    cases hcompile : Glob.compile segment with
    | error err => rw [hcompile] at h; cases h
    | ok p =>
      rw [hcompile] at h
      obtain ⟨next,w₁,hextend,h⟩ := Action.bind_ok h
      obtain ⟨answers,rfl,hcalls,rfl⟩ := extend_lists htop hlevel.names hextend
      obtain ⟨hw₁,htidy⟩ := hcalls.tidy hm hw
      have hanswers : ∀ a ∈ answers, (∀ e ∈ entriesOf a.2, IsName e.name) ∧
          ((entriesOf a.2).map (·.name)).Nodup :=
        fun a ha => htidy (top ++ a.1,a.2) (mem_callsFrom.2 ha)
      cases segments with
      | nil =>
        refine ⟨_,_,?_,?_,hlevel.last hcompile hanswers⟩ <;> split at h <;> cases h
        · exact hcalls
        · exact hcalls
        · next hempty => exact (List.isEmpty_iff.1 hempty).symm
        · rfl
      | cons s segments =>
        have hnext := hlevel.next hcompile hanswers
        split at h
        · next hempty =>
          cases h
          have hnone : further (fits segment p false) answers = [] :=
            List.map_eq_nil_iff.1 (List.isEmpty_iff.1 hempty)
          rw [hnone] at hnext
          refine ⟨_,[],hcalls,rfl,?_⟩
          rw [List.append_cons]
          exact hnext.ended (List.cons_ne_nil _ _)
        · obtain ⟨more,ways',hmore,rfl,hfound⟩ := ih (List.cons_ne_nil _ _) hmarks hw₁ hnext h
          refine ⟨_,ways',hcalls.append hmore,rfl,?_⟩
          rw [List.append_cons,← List.append_assoc]
          exact hfound

/-- Where a search ends with an error: a directory is listed, and the answer is not that it cannot
be listed. -/
def Breaks (m : FileManager σ) (identity : Text) (w : σ) (err : Error) (w' : σ) : Prop :=
  ∃ path w₁, Browses m identity w w₁ ∧ m.list identity path w₁ = (.error err,w') ∧
    (∀ e, err ≠ .file e) ∧ ∀ p, err ≠ .noMount p

theorem Breaks.mono {u w w' : σ} {err : Error} (h : Breaks m identity w err w')
    (hu : Browses m identity u w) : Breaks m identity u err w' := by
  obtain ⟨path,w₁,hw₁,hlist⟩ := h
  exact ⟨path,w₁,hu.trans hw₁,hlist⟩

theorem extend_error {good : DirectoryEntry → Bool} {cs : List Candidate} {err : Error} {w w' : σ}
    (h : extend m identity absolute good cs w = (.error err,w')) : Breaks m identity w err w' := by
  induction cs generalizing w with
  | nil => cases h
  | cons c cs ih =>
    rw [extend,Action.bind_eq] at h
    split at h
    · next hlisting =>
      rw [Action.bind_eq] at h
      split at h
      · cases h
      · next hrest =>
        cases h
        exact (ih hrest).mono (listing_ok hlisting).1
    · next hlisting =>
      cases h
      exact ⟨c.path,w,.refl,listing_eq_error hlisting⟩

theorem follow_error {segments : List Text} {cs : List Candidate} {err : Error} {w w' : σ}
    (h : follow m identity absolute segments cs w = (.error err,w')) :
    (∃ s ∈ segments, Glob.compile s = .error err) ∨ Breaks m identity w err w' := by
  induction segments generalizing cs w with
  | nil => cases h
  | cons segment segments ih =>
    have hmore : ∀ {cs w}, follow m identity absolute segments cs w = (.error err,w') →
        (∃ s ∈ segment :: segments, Glob.compile s = .error err) ∨ Breaks m identity w err w' :=
      fun h => (ih h).imp_left fun ⟨s,hs,hcompile⟩ => ⟨s,.tail _ hs,hcompile⟩
    rw [follow] at h
    split at h
    · cases hcompile : Glob.compile segment with
      | error err =>
        rw [hcompile] at h
        cases h
        exact .inl ⟨segment,.head _,hcompile⟩
      | ok p =>
        rw [hcompile] at h
        dsimp only at h
        rw [Action.bind_eq] at h
        split at h
        · next hextend =>
          split at h
          · cases h
          · exact (hmore h).imp_right fun hbreaks => hbreaks.mono (extend_ok hextend).1
        · next hextend =>
          cases h
          exact .inr (extend_error hextend)
    · exact hmore h

end Search

section Names

/-- A way as it is shown: its names with slashes between them, and one in front if the expression
begins with one. -/
def spelled (pattern : Text) (way : List Text) : Text :=
  (if Path.isAbsolute pattern then ['/'] else []) ++ Text.join ['/'] way

variable {pattern : Text} {way : List Text}

theorem flatMap_slash (hne : way ≠ []) : way.flatMap ('/' :: ·) = '/' :: Text.join ['/'] way := by
  induction way with
  | nil => exact absurd rfl hne
  | cons name way ih =>
    cases way with
    | nil => simp [Text.join,List.intercalate]
    | cons next way =>
      rw [List.flatMap_cons,ih (List.cons_ne_nil _ _)]
      simp [Text.join,List.intercalate]

theorem shownAs_eq_spelled (hway : AreNames way) (hne : way ≠ []) :
    shownAs (Path.isAbsolute pattern) way = spelled pattern way := by
  cases habsolute : Path.isAbsolute pattern with
  | true =>
    rw [shownAs_absolute,flatMap_slash hne,spelled,habsolute]
    rfl
  | false =>
    have hshown := shownAs_relative hway hne
    rw [flatMap_slash hne] at hshown
    rw [spelled,habsolute]
    exact (List.cons.inj hshown).2

theorem shownAs_inj {way' : List Text} (cwd : Text) (hway : AreNames way) (hne : way ≠ [])
    (hway' : AreNames way') (hne' : way' ≠ [])
    (h : shownAs (Path.isAbsolute pattern) way = shownAs (Path.isAbsolute pattern) way') :
    way = way' := by
  have hresolve := congrArg (Path.resolve cwd) h
  rw [resolve_shownAs hway hne,resolve_shownAs hway' hne'] at hresolve
  have htop := areNames_topOf cwd pattern
  exact List.append_cancel_left
    (Path.ofSegments_inj (htop.append hway) (htop.append hway') hresolve)

/-- Texts that are all different are in strictly ascending order when they are sorted. -/
theorem pairwise_sort {ts : List Text} (h : ts.Nodup) : (sort ts).Pairwise (· < ·) := by
  have hcompare (a b : Text) : (!decide (b < a)) = true ↔ ¬ b < a := by
    rw [Bool.not_eq_true',decide_eq_false_iff_not]
  have htrans (a b c : Text) (hab : ¬ b < a) (hbc : ¬ c < b) : ¬ c < a :=
    List.not_lt.2 (List.le_trans (List.not_lt.1 hab) (List.not_lt.1 hbc))
  have htotal (a b : Text) : ¬ b < a ∨ ¬ a < b :=
    (List.le_total a b).imp List.not_lt.2 List.not_lt.2
  have hsorted : (sort ts).Pairwise fun a b => (!decide (b < a)) = true :=
    List.pairwise_mergeSort
      (fun a b c hab hbc => (hcompare a c).2
        (htrans a b c ((hcompare a b).1 hab) ((hcompare b c).1 hbc)))
      (fun a b => Bool.or_eq_true_iff.2
        ((htotal a b).imp (hcompare a b).2 (hcompare b a).2)) ts
  have hnodup : (sort ts).Nodup := (List.mergeSort_perm ts _).nodup_iff.2 h
  refine (hsorted.and hnodup).imp fun {a b} hab => ?_
  obtain ⟨hle,hne⟩ := hab
  by_contra hlt
  exact hne (List.le_antisymm (List.not_lt.1 ((hcompare a b).1 hle)) (List.not_lt.1 hlt))

theorem Matches.length_eq {calls : List Listed} {top segments : List Text}
    (h : Matches calls top segments way) : way.length = segments.length := by
  obtain ⟨before,last,above,e,rfl,hreaches,-,rfl⟩ := h
  simp [hreaches.length_eq]

end Names

section Memory

variable {σ ι : Type} {trees : ι → Slot σ FileTree} {m : FileManager σ}

def InOrder (trees : ι → Slot σ FileTree) (w : σ) : Prop :=
  ∀ i, ((trees i).get w).Orderly

/-- A file manager all of whose mounts are file systems in memory. The policies of the mounts may
be any that keep these in order, as all do that touch them by file operations at most. -/
structure OverMemory (trees : ι → Slot σ FileTree) (m : FileManager σ) : Prop where
  set_get : ∀ i w, (trees i).set ((trees i).get w) w = w
  fileSystem : ∀ e ∈ m.mounts, ∃ i, e.2.fileSystem = Memory.fileSystem.within (trees i)
  allows : ∀ e ∈ m.mounts, ∀ identity action target w, InOrder trees w →
    InOrder trees (e.2.security.allows identity action target w).2
  isHidden : ∀ e ∈ m.mounts, ∀ identity path w, InOrder trees w →
    InOrder trees (e.2.security.isHidden identity path w).2

theorem mem_mounts_of_request {path : Text} {r : Request σ} (h : m.request path = .ok r) :
    ∃ top, (top,r.mount) ∈ m.mounts := by
  rw [FileManager.request] at h
  cases hm : m.mountOf (Path.normalize path) with
  | none => rw [hm] at h; cases h
  | some found =>
    rw [hm] at h
    cases h
    rcases FileManager.mem_of_foldl_longer hm with hmem | hnone
    · exact ⟨found.1,(List.mem_filter.1 hmem).1⟩
    · cases hnone

theorem keep_bind {α β : Type} {keep : σ → Prop} {x : Action σ α} {k : α → Action σ β}
    (hx : ∀ w, keep w → keep (x w).2) (hk : ∀ a w, keep w → keep (k a w).2) {w : σ} (hw : keep w) :
    keep ((x >>= k) w).2 :=
  Action.bind_keeps (R := fun u v => keep u → keep v) (fun _ _ _ h h' hu => h' (h hu)) hx hk w hw

theorem keep_visible {keep : σ → Prop} {security : SecurityManager σ} {identity : Text}
    (hhidden : ∀ path w, keep w → keep (security.isHidden identity path w).2) (directory : Text)
    (es : List DirectoryEntry) {w : σ} (hw : keep w) :
    keep (FileManager.visible security identity directory es w).2 := by
  induction es generalizing w with
  | nil => exact hw
  | cons e es ih =>
    exact keep_bind (hhidden _)
      (fun _ _ hw => keep_bind (fun _ hw => ih hw) (fun _ _ hw => hw) hw) hw

theorem place_of_mem_children {a : List Text × FileTree.Entry} {place : List Text}
    {e : DirectoryEntry} (h : e ∈ FileTree.children [a] place) : a.1 = place ++ [e.name] := by
  have hcontains := FileTree.contains_of_children h
  by_contra hne
  simp [Table.contains,Table.get?,Ne.symm hne] at hcontains

theorem nodup_children {t : FileTree} (ht : t.Orderly) (place : List Text) :
    ((t.children place).map (·.name)).Nodup := by
  refine List.pairwise_map.2 (ht.sorted.filterMap _ fun a b hab e he e' he' hname => ?_)
  have ha : a.1 = place ++ [e.name] := place_of_mem_children (List.mem_filterMap.2 ⟨a,.head _,he⟩)
  have hb : b.1 = place ++ [e'.name] := place_of_mem_children (List.mem_filterMap.2 ⟨b,.head _,he'⟩)
  rw [ha,hb,hname] at hab
  exact List.lt_irrefl _ hab

theorem OverMemory.list (hm : OverMemory trees m) (identity path : Text) {w : σ}
    (hw : InOrder trees w) : InOrder trees (m.list identity path w).2 ∧
      ∀ entries, (m.list identity path w).1 = .ok (.granted entries) → ∃ t : FileTree, ∃ place,
        t.Orderly ∧ entries.Sublist (t.children place) := by
  cases hr : m.request path with
  | error err =>
    rw [FileManager.list,perform_of_error hr]
    exact ⟨hw,fun _ he => by cases he⟩
  | ok r =>
    obtain ⟨top,hmem⟩ := mem_mounts_of_request hr
    obtain ⟨i,hfile⟩ := hm.fileSystem _ hmem
    have hallows := hm.allows _ hmem identity .list r.toTarget w hw
    have hstill : ∀ u, InOrder trees u →
        InOrder trees (r.mount.fileSystem.list r.relativePath u).2 := by
      intro u hu
      rw [hfile]
      show InOrder trees ((trees i).set (Memory.list r.relativePath ((trees i).get u)).2 u)
      rwa [Memory.list_still,hm.set_get]
    have hseen : ∀ u, InOrder trees u → InOrder trees ((r.mount.fileSystem.list r.relativePath >>=
        FileManager.visible r.mount.security identity r.fullPath) u).2 := fun _ =>
      keep_bind hstill fun es _ => keep_visible (hm.isHidden _ hmem identity) r.fullPath es
    have hlisted : Performs r identity .list _ w (m.list identity path w) := performs hr w
    generalize m.list identity path w = done at hlisted ⊢
    cases hlisted with
    | unsettled hs | denied hs =>
      rw [hs] at hallows
      exact ⟨hallows,fun _ he => by cases he⟩
    | failed hs ho =>
      rw [hs] at hallows
      have hkept := hseen _ hallows
      rw [ho] at hkept
      exact ⟨hkept,fun _ he => by cases he⟩
    | @granted w₁ _ _ hs ho =>
      rw [hs] at hallows
      have hkept := hseen w₁ hallows
      rw [ho] at hkept
      refine ⟨hkept,fun entries he => ?_⟩
      cases he
      obtain ⟨all,w₃,hlist,hvisible⟩ := Action.bind_ok ho
      rw [hfile] at hlist
      have hall : (Memory.list r.relativePath ((trees i).get w₁)).1 = .ok all :=
        congrArg Prod.fst hlist
      exact ⟨_,_,hallows i,Memory.list_ok hall ▸ visible_sublist hvisible⟩

theorem OverMemory.listsTidily (hm : OverMemory trees m) (identity : Text) :
    ListsTidily m identity (InOrder trees) where
  keeps path w hw := (hm.list identity path hw).1
  names path w entries hw h e he := by
    obtain ⟨t,place,ht,hsub⟩ := (hm.list identity path hw).2 entries h
    exact ht.names (FileTree.contains_of_children (hsub.subset he)) e.name (by simp)
  nodup path w entries hw h := by
    obtain ⟨t,place,ht,hsub⟩ := (hm.list identity path hw).2 entries h
    exact (nodup_children ht place).sublist (hsub.map _)

/-- The mounts of a table are file systems in memory, whatever their policies. -/
theorem overMemory_ofTable {ρ : Type} [DecidableEq ι] (t : Table Text (ι × Policy ρ)) :
    OverMemory Site.tree (FileManager.ofTable t) := by
  have hmounts : ∀ e ∈ (FileManager.ofTable t).mounts, ∃ i policy, e.2 = mounted i policy := by
    intro e he
    obtain ⟨⟨top,i,policy⟩,-,rfl⟩ := List.mem_map.1 he
    exact ⟨i,policy,rfl⟩
  have hkeep : ∀ {w w' : Site ι ρ}, w'.trees = w.trees → InOrder Site.tree w →
      InOrder Site.tree w' := by
    intro w w' htrees hw i
    show (w'.trees i).Orderly
    rw [htrees]
    exact hw i
  constructor
  · intro i w
    have htrees : (fun j => if j = i then w.trees i else w.trees j) = w.trees := by
      funext j
      by_cases hj : j = i
      · rw [if_pos hj,hj]
      · rw [if_neg hj]
    exact congrArg (fun trees => { w with trees }) htrees
  · intro e he
    obtain ⟨i,policy,he⟩ := hmounts e he
    exact ⟨i,he ▸ rfl⟩
  · intro e he identity action target w hw
    obtain ⟨i,policy,he⟩ := hmounts e he
    rw [he]
    exact hkeep ((apart_allows policy identity action target).trees_eq w) hw
  · intro e he identity path w hw
    obtain ⟨i,policy,he⟩ := hmounts e he
    rw [he]
    exact hkeep ((apart_isHidden policy identity path).trees_eq w) hw

end Memory

/-- A file expression with a mark in each segment finds every entry that can be seen, and finds it
once. In a file manager over file systems in memory, under any policies, what is found is in
strictly ascending order, so that nothing is found twice; and it is exactly what can be spelled with
one name for each segment, where each name stands for its segment in the directory before it. That is, the
listing of this directory is granted to the identity and has the name in it, the name matches, it
begins with a dot only if the segment does, and it is one of a directory unless it is the last one.
The directories that are listed are those that the segments before lead to, each of them once, so
that what is denied, missing, no directory or on no mount has nothing to add; and such a directory
does not make the search fail, which ends with an error only where a segment cannot be read as a
pattern or the answer to a listing is an error of another kind. -/
theorem glob_complete {σ ι : Type} {trees : ι → Slot σ FileTree} {m : FileManager σ}
    (hm : OverMemory trees m) (identity cwd pattern : Text) (hne : Path.pieces pattern ≠ [])
    (hmarks : ∀ s ∈ Path.pieces pattern, hasGlob s = true) {w : σ} (hw : InOrder trees w) :
    (∀ names w', glob m identity cwd pattern w = (.ok names,w') →
      ∃ calls, Lists m identity calls w w' ∧
        Asks calls (topOf cwd pattern) (Path.pieces pattern) ∧
        names.Pairwise (· < ·) ∧
        ∀ shown, shown ∈ names ↔ ∃ way, way.length = (Path.pieces pattern).length ∧
          Matches calls (topOf cwd pattern) (Path.pieces pattern) way ∧
          shown = spelled pattern way) ∧
    ∀ err w', glob m identity cwd pattern w = (.error err,w') →
      (∃ s ∈ Path.pieces pattern, Glob.compile s = .error err) ∨ Breaks m identity w err w' := by
  have hany : (Path.pieces pattern).any hasGlob = true := by
    obtain ⟨s,hs⟩ := List.exists_mem_of_ne_nil _ hne
    exact List.any_eq_true.2 ⟨s,hs,hmarks s hs⟩
  have htop := areNames_topOf cwd pattern
  have hstart : (⟨if Path.isAbsolute pattern then ['/'] else Path.normalize cwd,[]⟩ : Candidate) =
      .ofWay (Path.isAbsolute pattern) (topOf cwd pattern) [] := by
    rw [Candidate.ofWay,List.append_nil,topOf]
    split <;> rfl
  refine ⟨fun names w' h => ?_,fun err w' h => ?_⟩
  · obtain ⟨found,w₁,hfollow,h⟩ := Action.bind_ok h
    rw [if_pos hany] at h
    cases h
    rw [hstart] at hfollow
    obtain ⟨calls,ways,hcalls,rfl,hfound⟩ :=
      follow_found (hm.listsTidily identity) htop hne hmarks hw (.start _) hfollow
    rw [List.nil_append,List.nil_append] at hfound
    have hlength : ∀ way ∈ ways, way.length = (Path.pieces pattern).length :=
      fun way hway => ((hfound.mem way).1 hway).length_eq
    have hway : ∀ way ∈ ways, way ≠ [] := by
      rintro way hway rfl
      exact hne (List.length_eq_zero_iff.1 (hlength [] hway).symm)
    have hshown : (ways.map (Candidate.ofWay (Path.isAbsolute pattern) (topOf cwd pattern))).map
        Candidate.shown = ways.map (spelled pattern) := by
      rw [List.map_map]
      exact List.map_congr_left fun way hmem =>
        shownAs_eq_spelled (hfound.names way hmem) (hway way hmem)
    rw [hshown]
    refine ⟨calls,hcalls,hfound.asks,pairwise_sort ?_,fun shown => ?_⟩
    · refine hfound.nodup.map_on fun way hmem way' hmem' he => ?_
      rw [← shownAs_eq_spelled (hfound.names way hmem) (hway way hmem),
        ← shownAs_eq_spelled (hfound.names way' hmem') (hway way' hmem')] at he
      exact shownAs_inj cwd (hfound.names way hmem) (hway way hmem) (hfound.names way' hmem')
        (hway way' hmem') he
    · rw [sort,List.mem_mergeSort,List.mem_map]
      constructor
      · rintro ⟨way,hmem,rfl⟩
        exact ⟨way,hlength way hmem,(hfound.mem way).1 hmem,rfl⟩
      · rintro ⟨way,-,hmatches,rfl⟩
        exact ⟨way,(hfound.mem way).2 hmatches,rfl⟩
  · rw [glob,Action.bind_eq] at h
    split at h
    · cases h
    · next hfollow =>
      cases h
      exact follow_error hfollow

/-- A tree with a directory of the name d, one of the name .h, and one of the name e in each. -/
def nested : Site Unit Unit where
  trees _ := (Memory.fileSystem.run [.makeDir ['/','d','/','e'] true,
    .makeDir ['/','.','h','/','e'] true] FileTree.empty).2
  rest := ()

/-- Two marks find the directory in the one that does not begin with a dot, and not the other. -/
theorem glob_complete_nested : ∃ w' calls,
    glob (.ofTable openTop) [] ['/'] ['*','/','*'] nested = (.ok [['d','/','e']],w') ∧
    Lists (.ofTable openTop) [] calls nested w' ∧ Asks calls [] [['*'],['*']] ∧
    (∃ way, Matches calls [] [['*'],['*']] way ∧ ['d','/','e'] = spelled ['*','/','*'] way) ∧
    ¬ Matches calls [] [['*'],['*']] [['.','h'],['e']] := by
  have horder : InOrder Site.tree nested :=
    fun _ => Memory.orderly_run FileTree.orderly_empty _
  have hglob : (glob (.ofTable openTop) [] ['/'] ['*','/','*'] nested).1 =
      .ok [['d','/','e']] := by
    decide +kernel
  have hsplit : glob (.ofTable openTop) [] ['/'] ['*','/','*'] nested =
      (.ok [['d','/','e']],_) := Prod.ext hglob rfl
  obtain ⟨hall,-⟩ := glob_complete (overMemory_ofTable openTop) [] ['/'] ['*','/','*'] (by decide)
    (by decide) horder
  obtain ⟨calls,hcalls,hasks,-,hshown⟩ := hall _ _ hsplit
  refine ⟨_,calls,hsplit,hcalls,hasks,?_,fun hhidden => ?_⟩
  · obtain ⟨way,-,hmatches,hway⟩ := (hshown ['d','/','e']).1 (.head _)
    exact ⟨way,hmatches,hway⟩
  · have hmem : ['.','h','/','e'] ∈ [['d','/','e']] :=
      (hshown _).2 ⟨[['.','h'],['e']],rfl,hhidden,rfl⟩
    exact absurd hmem (by decide)

end Expansion
end Realm
