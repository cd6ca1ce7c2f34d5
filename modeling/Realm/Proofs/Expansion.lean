import Mathlib.Data.List.Induction
import Mathlib.Logic.Relation
import Realm.Expansion
import Realm.Proofs.Command.Linking
import Realm.Proofs.FileSystem.Connected
import Realm.Proofs.Mediation

/-! What file expressions find. A segment with a mark stands for names that the identity is shown
in a directory; any other stands for itself, be there something of this name or not. So there is
an entry at every way that ends with the former, and what is written behind it is not looked up. -/
namespace Realm.Expansion

open Realm.Path (ofSegments AreNames IsName)

section Listing

variable {σ : Type} {m : FileManager σ} {identity : Text}

/-- States that follow one another by listing directories for an identity. -/
def Browses (m : FileManager σ) (identity : Text) : σ → σ → Prop :=
  Relation.ReflTransGen fun w w' => ∃ path, w' = (m.list identity path w).2

theorem browses_list (m : FileManager σ) (identity path : Text) (w : σ) :
    Browses m identity w (m.list identity path w).2 :=
  .single ⟨path,rfl⟩

/-- An entry that an identity is shown in a directory, at some time between two states. -/
def Shows (m : FileManager σ) (identity : Text) (w w' : σ) (directory : Text)
    (e : DirectoryEntry) : Prop :=
  ∃ w₁ entries w₂, Browses m identity w w₁ ∧
    m.list identity directory w₁ = (.ok (.granted entries),w₂) ∧ Browses m identity w₂ w' ∧
    e ∈ entries

theorem Shows.mono {u v w w' : σ} {directory : Text} {e : DirectoryEntry}
    (h : Shows m identity w w' directory e) (hu : Browses m identity u w)
    (hv : Browses m identity w' v) : Shows m identity u v directory e := by
  obtain ⟨w₁,entries,w₂,hw₁,hlist,hw₂,he⟩ := h
  exact ⟨w₁,entries,w₂,hu.trans hw₁,hlist,hw₂.trans hv,he⟩

theorem visible_sublist {security : SecurityManager σ} {directory : Text}
    {es seen : List DirectoryEntry} {w w' : σ}
    (h : FileManager.visible security identity directory es w = (.ok seen,w')) : seen.Sublist es := by
  induction es generalizing seen w with
  | nil => cases h; exact List.Sublist.refl _
  | cons e es ih =>
    rw [FileManager.visible] at h
    obtain ⟨hidden,w₁,-,h⟩ := Action.bind_ok h
    obtain ⟨rest,w₂,hrest,h⟩ := Action.bind_ok h
    cases h
    split
    · exact (ih hrest).cons e
    · exact (ih hrest).cons_cons e

theorem listing_ok {path : Text} {entries : List DirectoryEntry} {w w' : σ}
    (h : listing m identity path w = (.ok entries,w')) :
    Browses m identity w w' ∧ ∀ e ∈ entries, Shows m identity w w' path e := by
  have hbrowses := browses_list m identity path w
  unfold listing at h
  split at h
  case h_1 hlist =>
    cases h
    rw [hlist] at hbrowses
    exact ⟨hbrowses,fun e he => ⟨w,_,_,.refl,hlist,.refl,he⟩⟩
  case h_2 hlist | h_3 hlist | h_4 hlist =>
    cases h
    rw [hlist] at hbrowses
    exact ⟨hbrowses,List.forall_mem_nil _⟩
  case h_5 => cases h

/-- A segment makes of each candidate the entries of its directory that suit. -/
theorem extend_ok {absolute : Bool} {good : DirectoryEntry → Bool} {cs next : List Candidate}
    {w w' : σ} (h : extend m identity absolute good cs w = (.ok next,w')) :
    Browses m identity w w' ∧ ∀ c' ∈ next, ∃ c ∈ cs, ∃ e, Shows m identity w w' c.path e ∧
      good e = true ∧ c' = ⟨Path.child c.path e.name,joinShown absolute c.shown e.name⟩ := by
  induction cs generalizing next w with
  | nil =>
    cases h
    exact ⟨.refl,List.forall_mem_nil _⟩
  | cons c cs ih =>
    rw [extend] at h
    obtain ⟨entries,w₁,hlisting,h⟩ := Action.bind_ok h
    obtain ⟨rest,w₂,hrest,h⟩ := Action.bind_ok h
    cases h
    obtain ⟨hw₁,hentries⟩ := listing_ok hlisting
    obtain ⟨hw₂,hmore⟩ := ih hrest
    refine ⟨hw₁.trans hw₂,List.forall_mem_append.2 ⟨?_,fun c' hc' => ?_⟩⟩
    · refine List.forall_mem_map.2 fun e he => ?_
      obtain ⟨hmem,hgood⟩ := List.mem_filter.1 he
      exact ⟨c,.head _,e,(hentries e hmem).mono .refl hw₂,hgood,rfl⟩
    · obtain ⟨d,hd,e,hshows,hgood,rfl⟩ := hmore c' hc'
      exact ⟨d,.tail _ hd,e,hshows.mono hw₁ .refl,hgood,rfl⟩

def shownAs (absolute : Bool) (way : List Text) : Text :=
  way.foldl (joinShown absolute) []

theorem shownAs_append (absolute : Bool) (way : List Text) (name : Text) :
    shownAs absolute (way ++ [name]) = joinShown absolute (shownAs absolute way) name := by
  rw [shownAs,List.foldl_append]
  rfl

/-- A way down from the directory `top`, by the segments of an expression: an entry that is shown
and matches for a segment with a mark, and for any other the segment itself. -/
inductive Leads (m : FileManager σ) (identity : Text) (w w' : σ) (top : List Text) :
    List Text → List Text → Prop
  | nil : Leads m identity w w' top [] []
  | literal {segments way : List Text} {segment : Text} :
      Leads m identity w w' top segments way → hasGlob segment = false →
    Leads m identity w w' top (segments ++ [segment]) (way ++ [segment])
  | shown {segments way : List Text} {segment : Text} {p : Pattern} {e : DirectoryEntry} :
      Leads m identity w w' top segments way → hasGlob segment = true →
      Glob.compile segment = .ok p → p.isMatch e.name = true →
      Shows m identity w w' (ofSegments (top ++ way)) e →
    Leads m identity w w' top (segments ++ [segment]) (way ++ [e.name])

variable {u v w w' : σ} {top segments way : List Text}

theorem Leads.mono (h : Leads m identity w w' top segments way) (hu : Browses m identity u w)
    (hv : Browses m identity w' v) : Leads m identity u v top segments way := by
  induction h with
  | nil => exact .nil
  | literal _ hs ih => exact .literal ih hs
  | shown _ hs hcompile hmatch hshows ih => exact .shown ih hs hcompile hmatch (hshows.mono hu hv)

/-- Behind the last segment with a mark, a way goes on as the expression is written. -/
theorem Leads.split (h : Leads m identity w w' top segments way) (hs : segments.any hasGlob = true) :
    ∃ before segment literals above e, segments = before ++ segment :: literals ∧
      hasGlob segment = true ∧ (∀ s ∈ literals, hasGlob s = false) ∧
      way = above ++ e.name :: literals ∧ Shows m identity w w' (ofSegments (top ++ above)) e := by
  induction h with
  | nil => cases hs
  | @literal _ _ segment _ hsegment ih =>
    rw [List.any_append,List.any_cons,hsegment] at hs
    obtain ⟨before,marked,literals,above,e,rfl,hmarked,hliterals,rfl,hshows⟩ := ih (by simpa using hs)
    exact ⟨before,marked,literals ++ [segment],above,e,by simp,hmarked,
      List.forall_mem_append.2 ⟨hliterals,List.forall_mem_singleton.2 hsegment⟩,by simp,hshows⟩
  | @shown segments way segment _ e _ hsegment _ _ hshows =>
    exact ⟨segments,segment,[],way,e,rfl,hsegment,List.forall_mem_nil _,rfl,hshows⟩

def Candidate.Ends (m : FileManager σ) (identity : Text) (w w' : σ) (absolute : Bool)
    (top segments : List Text) (c : Candidate) : Prop :=
  ∃ way, AreNames (top ++ way) ∧ Leads m identity w w' top segments way ∧
    c = ⟨ofSegments (top ++ way),shownAs absolute way⟩

/-- All that is listed to an identity from some state on can be a part of a path. -/
def ListsNames (m : FileManager σ) (identity : Text) (w : σ) : Prop :=
  ∀ w' directory e, Shows m identity w w' directory e → IsName e.name

variable {absolute : Bool} {segment : Text} {c : Candidate}

theorem Candidate.Ends.literal (h : c.Ends m identity w w' absolute top segments)
    (hsegment : IsName segment) (hs : hasGlob segment = false) :
    Candidate.Ends m identity w w' absolute top (segments ++ [segment])
      ⟨Path.resolve c.path segment,joinShown absolute c.shown segment⟩ := by
  obtain ⟨way,hway,hleads,rfl⟩ := h
  refine ⟨way ++ [segment],?_,.literal hleads hs,?_⟩
  · rw [← List.append_assoc]
    exact hway.append (List.forall_mem_singleton.2 hsegment)
  · rw [Path.resolve_ofSegments hway hsegment,shownAs_append,List.append_assoc]

theorem Candidate.Ends.shown {p : Pattern} {e : DirectoryEntry}
    (h : c.Ends m identity w w' absolute top segments) (hs : hasGlob segment = true)
    (hcompile : Glob.compile segment = .ok p) (hmatch : p.isMatch e.name = true)
    (hshows : Shows m identity w w' c.path e) (hname : IsName e.name) :
    Candidate.Ends m identity w w' absolute top (segments ++ [segment])
      ⟨Path.child c.path e.name,joinShown absolute c.shown e.name⟩ := by
  obtain ⟨way,hway,hleads,rfl⟩ := h
  refine ⟨way ++ [e.name],?_,.shown hleads hs hcompile hmatch hshows,?_⟩
  · rw [← List.append_assoc]
    exact hway.append (List.forall_mem_singleton.2 hname)
  · rw [Path.child_ofSegments hway,shownAs_append,List.append_assoc]

theorem Candidate.Ends.mono (h : c.Ends m identity w w' absolute top segments)
    (hu : Browses m identity u w) (hv : Browses m identity w' v) :
    c.Ends m identity u v absolute top segments := by
  obtain ⟨way,hway,hleads,hc⟩ := h
  exact ⟨way,hway,hleads.mono hu hv,hc⟩

theorem follow_ok {before : List Text} {cs found : List Candidate}
    (h : follow m identity absolute segments cs w = (.ok found,w'))
    (hlists : ListsNames m identity u) (hu : Browses m identity u w)
    (hsegments : AreNames segments)
    (hcs : ∀ c ∈ cs, c.Ends m identity u w absolute top before) :
    Browses m identity w w' ∧
      ∀ c ∈ found, c.Ends m identity u w' absolute top (before ++ segments) := by
  induction segments generalizing before cs w with
  | nil =>
    cases h
    exact ⟨.refl,by rwa [List.append_nil]⟩
  | cons segment segments ih =>
    obtain ⟨hsegment,hmore⟩ := List.forall_mem_cons.1 hsegments
    rw [List.append_cons]
    rw [follow] at h
    split at h
    · next hs =>
      cases hcompile : Glob.compile segment with
      | error e => rw [hcompile] at h; cases h
      | ok p =>
        rw [hcompile] at h
        obtain ⟨next,w₁,hextend,h⟩ := Action.bind_ok h
        obtain ⟨hw₁,hnext⟩ := extend_ok hextend
        have hends : ∀ c ∈ next, c.Ends m identity u w₁ absolute top (before ++ [segment]) := by
          intro c hc
          obtain ⟨d,hd,e,hshows,hgood,rfl⟩ := hnext c hc
          have hmatch : p.isMatch e.name = true := by
            unfold fits at hgood
            simp only [Bool.and_eq_true] at hgood
            exact hgood.1.2
          have hshows := hshows.mono hu .refl
          exact ((hcs d hd).mono .refl hw₁).shown hs hcompile hmatch hshows (hlists _ _ _ hshows)
        split at h
        · cases h
          exact ⟨hw₁,List.forall_mem_nil _⟩
        · obtain ⟨hw',hfound⟩ := ih h (hu.trans hw₁) hmore hends
          exact ⟨hw₁.trans hw',hfound⟩
    · next hs =>
      refine ih h hu hmore (List.forall_mem_map.2 fun c hc => ?_)
      exact (hcs c hc).literal hsegment (Bool.eq_false_iff.2 hs)

/-- The directory at which an expression is looked up. -/
def topOf (cwd pattern : Text) : List Text :=
  if Path.isAbsolute pattern then [] else Path.segments cwd

theorem areNames_topOf (cwd pattern : Text) : AreNames (topOf cwd pattern) := by
  unfold topOf
  split
  · exact Path.areNames_nil
  · exact Path.areNames_segments cwd

/-- What an expression comes to: ways that its segments lead to, if one of them has a mark. -/
theorem glob_ok {cwd pattern : Text} {names : List Text}
    (h : glob m identity cwd pattern w = (.ok names,w')) (hlists : ListsNames m identity w)
    (hpattern : AreNames (Path.pieces pattern)) :
    Browses m identity w w' ∧ ∀ shown ∈ names, (Path.pieces pattern).any hasGlob = true ∧
      ∃ way, AreNames (topOf cwd pattern ++ way) ∧
        Leads m identity w w' (topOf cwd pattern) (Path.pieces pattern) way ∧
        shown = shownAs (Path.isAbsolute pattern) way := by
  obtain ⟨found,w₁,hfollow,h⟩ := Action.bind_ok h
  have hstart : Candidate.Ends m identity w w (Path.isAbsolute pattern) (topOf cwd pattern) []
      ⟨if Path.isAbsolute pattern then ['/'] else Path.normalize cwd,[]⟩ := by
    refine ⟨[],by simpa using areNames_topOf cwd pattern,.nil,?_⟩
    rw [List.append_nil,topOf]
    split <;> rfl
  obtain ⟨hw₁,hfound⟩ := follow_ok hfollow hlists .refl hpattern
    (List.forall_mem_singleton.2 hstart)
  cases h
  refine ⟨hw₁,fun shown hshown => ?_⟩
  split at hshown
  · next hmarked =>
    rw [sort,List.mem_mergeSort] at hshown
    obtain ⟨c,hc,rfl⟩ := List.mem_map.1 hshown
    obtain ⟨way,hway,hleads,rfl⟩ := hfound c hc
    exact ⟨hmarked,way,hway,hleads,rfl⟩
  · cases hshown

end Listing

section Shown

theorem shownAs_absolute (way : List Text) : shownAs true way = way.flatMap ('/' :: ·) := by
  induction way using List.reverseRecOn with
  | nil => rfl
  | append_singleton way name ih =>
    rw [shownAs_append,ih,joinShown]
    simp

theorem shownAs_relative {way : List Text} (hway : AreNames way) (hne : way ≠ []) :
    '/' :: shownAs false way = way.flatMap ('/' :: ·) := by
  induction way using List.reverseRecOn with
  | nil => exact absurd rfl hne
  | append_singleton way name ih =>
    rw [shownAs_append,List.flatMap_append,joinShown]
    by_cases hway' : way = []
    · subst hway'
      simp [shownAs]
    · have ih := ih hway.of_append.1 hway'
      have hshown : (shownAs false way).isEmpty = false := by
        obtain ⟨first,more,rfl⟩ := List.exists_cons_of_ne_nil hway'
        rw [List.flatMap_cons] at ih
        rw [(List.cons.inj ih).2]
        simp [(hway first (by simp)).1]
      rw [hshown,← ih]
      simp

theorem resolve_shownAs {cwd pattern : Text} {way : List Text} (hway : AreNames way)
    (hne : way ≠ []) : Path.resolve cwd (shownAs (Path.isAbsolute pattern) way) =
      ofSegments (topOf cwd pattern ++ way) := by
  obtain ⟨first,more,rfl⟩ := List.exists_cons_of_ne_nil hne
  cases habsolute : Path.isAbsolute pattern with
  | true =>
    have hslash : Path.isAbsolute (shownAs true (first :: more)) = true := by
      rw [shownAs_absolute]
      rfl
    have hsegments := Path.segments_flatMap hway []
    rw [List.nil_append] at hsegments
    rw [Path.resolve,if_pos hslash,Path.normalize,shownAs_absolute,hsegments,topOf,habsolute]
    rfl
  | false =>
    have hrelative := shownAs_relative hway hne
    have hslash : Path.isAbsolute (shownAs false (first :: more)) = false := by
      have hfirst := hway first (.head _)
      obtain ⟨c,name,rfl⟩ := List.exists_cons_of_ne_nil hfirst.1
      rw [(List.cons.inj hrelative).2]
      exact (Path.isAbsolute_of_isName hfirst :)
    rw [Path.resolve,hslash,if_neg Bool.false_ne_true,hrelative,Path.normalize,
      Path.segments_flatMap hway,topOf,habsolute]
    rfl

end Shown

section Sites

variable {ι ρ : Type} [DecidableEq ι] {t : Table Text (ι × Policy ρ)} {identity : Text}
  {w w' : Site ι ρ}

theorem browses_still (h : Browses (.ofTable t) identity w w') : w'.trees = w.trees := by
  induction h with
  | refl => rfl
  | tail _ hstep ih =>
    obtain ⟨path,rfl⟩ := hstep
    exact (perform_still identity .list (fun r i policy => still_list i policy identity r) _).trans ih

theorem contains_of_list {directory : Text} {entries : List DirectoryEntry}
    (h : (FileManager.ofTable t).list identity directory w = (.ok (.granted entries),w')) :
    ∃ r i policy, (FileManager.ofTable t).request directory = .ok r ∧ r.mount = mounted i policy ∧
      ∀ e ∈ entries, (w.trees i).contains (Memory.locate r.relativePath ++ [e.name]) = true := by
  cases hr : (FileManager.ofTable t).request directory with
  | error err =>
    rw [FileManager.list,perform_of_error hr] at h
    cases h
  | ok r =>
    obtain ⟨top,i,policy,-,hm⟩ := mount_of_request hr
    have htrees := (apart_allows (ι := ι) policy identity .list r.toTarget).trees_eq w
    rw [show (policy.manager : SecurityManager (Site ι ρ)) = r.mount.security by rw [hm]; rfl]
      at htrees
    have hlisted : Performs r identity .list _ w ((FileManager.ofTable t).list identity directory w) :=
      performs hr w
    rw [h] at hlisted
    cases hlisted with
    | @granted w₁ _ _ hallows hoperation =>
      rw [hallows] at htrees
      obtain ⟨all,w₃,hlist,hvisible⟩ := Action.bind_ok hoperation
      rw [hm] at hlist
      have hall : (Memory.list r.relativePath (w₁.trees i)).1 = .ok all := congrArg Prod.fst hlist
      refine ⟨r,i,policy,rfl,hm,fun e he => ?_⟩
      rw [show w₁.trees = w.trees from htrees] at hall
      exact FileTree.contains_of_children (Memory.list_ok hall ▸ (visible_sublist hvisible).subset he)

theorem isName_of_shows (htrees : ∀ i, (w.trees i).Orderly) :
    ListsNames (.ofTable t) identity w := by
  rintro w' directory e ⟨w₁,entries,w₂,hw₁,hlist,-,he⟩
  obtain ⟨r,i,policy,-,-,hcontains⟩ := contains_of_list hlist
  have hnames := (htrees i).names (browses_still hw₁ ▸ hcontains e he)
  exact hnames e.name (List.mem_append_right _ (.head _))

/-- An entry at a path: it stands in the file system of the directory above, where the identity is
shown it at some time between two states. -/
structure Found (t : Table Text (ι × Policy ρ)) (identity : Text) (w w' : Site ι ρ)
    (path : Text) : Prop where
  shown : ∃ e, e.name = Path.fileName path ∧
    Shows (.ofTable t) identity w w' (Path.parent path) e
  present : ∃ r i policy, (FileManager.ofTable t).request (Path.parent path) = .ok r ∧
    r.mount = mounted i policy ∧
    (w.trees i).contains (Memory.locate r.relativePath ++ [Path.fileName path]) = true

variable {u v : Site ι ρ} {path : Text}

theorem found_of_shows {directory : List Text} {e : DirectoryEntry}
    (h : Shows (.ofTable t) identity w w' (ofSegments directory) e) (hname : IsName e.name) :
    Found t identity w w' (ofSegments (directory ++ [e.name])) := by
  obtain ⟨w₁,entries,w₂,hw₁,hlist,-,he⟩ := id h
  obtain ⟨r,i,policy,hr,hm,hcontains⟩ := contains_of_list hlist
  rw [browses_still hw₁] at hcontains
  constructor
  · rw [Path.fileName_ofSegments hname.2.2.2,Path.parent_ofSegments hname.2.2.2]
    exact ⟨e,rfl,h⟩
  · rw [Path.fileName_ofSegments hname.2.2.2,Path.parent_ofSegments hname.2.2.2]
    exact ⟨r,i,policy,hr,hm,hcontains e he⟩

theorem Found.mono (h : Found t identity w w' path) (hu : Browses (.ofTable t) identity u w)
    (hv : Browses (.ofTable t) identity w' v) : Found t identity u v path := by
  obtain ⟨⟨e,hname,hshows⟩,hpresent⟩ := h
  rw [browses_still hu] at hpresent
  exact ⟨⟨e,hname,hshows.mono hu hv⟩,hpresent⟩

/-- An expression that names every directory it leads to. -/
def IsDotless (pattern : Text) : Prop :=
  ∀ s ∈ Path.pieces pattern, s ≠ ['.'] ∧ s ≠ ['.','.']

instance (pattern : Text) : Decidable (IsDotless pattern) :=
  inferInstanceAs (Decidable (∀ _ ∈ _, _))

theorem IsDotless.areNames {pattern : Text} (h : IsDotless pattern) :
    AreNames (Path.pieces pattern) :=
  fun s hs => Path.isName_of_mem_pieces hs (h s hs).1 (h s hs).2

/-- What an expression stands for, read in a working directory. -/
structure Finds (t : Table Text (ι × Policy ρ)) (identity : Text) (w w' : Site ι ρ)
    (cwd pattern shown : Text) : Prop where
  /-- There is an entry, if the last segment of the expression has a mark. -/
  found : (∀ s, (Path.pieces pattern).getLast? = some s → hasGlob s = true) →
    Found t identity w w' (Path.resolve cwd shown)
  /-- In any case there is one up to the last segment with a mark. What follows is written as in
  the expression. -/
  written : ∃ before segment literals names, Path.pieces pattern = before ++ segment :: literals ∧
    hasGlob segment = true ∧ (∀ s ∈ literals, hasGlob s = false) ∧
    Path.resolve cwd shown = ofSegments (names ++ literals) ∧
    Found t identity w w' (ofSegments names)

variable {cwd pattern shown : Text}

theorem Finds.mono (h : Finds t identity w w' cwd pattern shown)
    (hu : Browses (.ofTable t) identity u w) (hv : Browses (.ofTable t) identity w' v) :
    Finds t identity u v cwd pattern shown := by
  obtain ⟨hfound,before,segment,literals,names,hpieces,hs,hliterals,hresolve,hnames⟩ := h
  exact ⟨fun hlast => (hfound hlast).mono hu hv,before,segment,literals,names,hpieces,hs,hliterals,
    hresolve,hnames.mono hu hv⟩

theorem glob_finds (htrees : ∀ i, (w.trees i).Orderly) (hpattern : IsDotless pattern)
    {names : List Text} (h : glob (.ofTable t) identity cwd pattern w = (.ok names,w')) :
    Browses (.ofTable t) identity w w' ∧
      ∀ shown ∈ names, Finds t identity w w' cwd pattern shown := by
  obtain ⟨hbrowses,hnames⟩ := glob_ok h (isName_of_shows htrees) hpattern.areNames
  refine ⟨hbrowses,fun shown hshown => ?_⟩
  obtain ⟨hmarked,way,hway,hleads,rfl⟩ := hnames shown hshown
  obtain ⟨before,segment,literals,above,e,hpieces,hsegment,hliterals,rfl,hshows⟩ :=
    hleads.split hmarked
  have hname := isName_of_shows htrees _ _ _ hshows
  have hfound := found_of_shows hshows hname
  have hresolve : Path.resolve cwd (shownAs (Path.isAbsolute pattern) (above ++ e.name :: literals)) =
      ofSegments ((topOf cwd pattern ++ above ++ [e.name]) ++ literals) := by
    rw [resolve_shownAs hway.of_append.2 (by simp)]
    simp
  refine ⟨fun hlast => ?_,before,segment,literals,_,hpieces,hsegment,hliterals,hresolve,hfound⟩
  cases literals using List.reverseRecOn with
  | nil =>
    rw [List.append_nil] at hresolve
    rw [hresolve]
    exact hfound
  | append_singleton literals literal =>
    have hend : (Path.pieces pattern).getLast? = some literal := by
      rw [hpieces,← List.cons_append,← List.append_assoc,List.getLast?_concat]
    have hno := hliterals literal (by simp)
    rw [hlast literal hend] at hno
    cases hno

theorem globAll_finds (htrees : ∀ i, (w.trees i).Orderly) {patterns : List Text}
    (hpatterns : ∀ p ∈ patterns, IsDotless p) {found : List (Text × List Text)}
    (h : globAll (.ofTable t) identity cwd patterns w = (.ok found,w')) :
    Browses (.ofTable t) identity w w' ∧
      ∀ p names, (p,names) ∈ found → ∀ shown ∈ names, Finds t identity w w' cwd p shown := by
  induction patterns generalizing found w with
  | nil =>
    cases h
    exact ⟨.refl,nofun⟩
  | cons pattern patterns ih =>
    obtain ⟨hpattern,hpatterns⟩ := List.forall_mem_cons.1 hpatterns
    rw [globAll] at h
    obtain ⟨names,w₁,hglob,h⟩ := Action.bind_ok h
    obtain ⟨rest,w₂,hrest,h⟩ := Action.bind_ok h
    cases h
    obtain ⟨hw₁,hnames⟩ := glob_finds htrees hpattern hglob
    obtain ⟨hw₂,hmore⟩ := ih (by rwa [browses_still hw₁]) hpatterns hrest
    have hrest : ∀ p names, (p,names) ∈ rest → ∀ shown ∈ names,
        Finds t identity w w' cwd p shown :=
      fun p names hmem shown hshown => (hmore p names hmem shown hshown).mono hw₁ .refl
    refine ⟨hw₁.trans hw₂,?_⟩
    split
    · exact hrest
    · intro p names' hmem shown hshown
      rcases List.mem_cons.1 hmem with he | hmem
      · cases he
        exact (hnames shown hshown).mono .refl hw₂
      · exact hrest p names' hmem shown hshown

end Sites

/-- An argument is kept, or one of the matches of an expression in its place. -/
theorem mem_args_splice {found : List (Text × List Text)} {c : Command} {arg : Text}
    (h : arg ∈ (splice found c).args) :
    arg ∈ c.args ∨ ∃ p ∈ patternsOf c, ∃ names, (p,names) ∈ found ∧ arg ∈ names := by
  obtain ⟨⟨old,i⟩,hold,harg⟩ := List.mem_flatMap.1 h
  have hat : c.args[i]? = some old := List.mem_zipIdx_iff_getElem?.1 hold
  have hmem : old ∈ c.args := List.mem_of_getElem? hat
  dsimp only at harg
  split at harg
  · next hi =>
    cases hlookup : found.lookup old with
    | none =>
      rw [hlookup] at harg
      cases List.mem_singleton.1 harg
      exact .inl hmem
    | some names =>
      rw [hlookup] at harg
      obtain ⟨l₁,l₂,rfl,-⟩ := List.lookup_eq_some_iff.1 hlookup
      exact .inr ⟨old,List.mem_filterMap.2 ⟨i,hi,hat⟩,names,by simp,harg⟩
  · cases List.mem_singleton.1 harg
    exact .inl hmem

theorem mem_of_mem_distinct {seen ts : List Text} {t : Text} (h : t ∈ distinct seen ts) : t ∈ ts := by
  induction ts generalizing seen with
  | nil => cases h
  | cons u ts ih =>
    change t ∈ if u ∈ seen then distinct seen ts else u :: distinct (u :: seen) ts at h
    split at h
    · exact .tail _ (ih h)
    · rcases List.mem_cons.1 h with rfl | h
      · exact .head _
      · exact .tail _ (ih h)

section Sites

variable {ι ρ : Type} [DecidableEq ι]

/-- File expressions find what is there, as long as they end with a segment that has a mark. What
they find stands in a directory where the identity is shown it, with the segments behind the last
such one added as they are written; and an argument that is expanded is kept, or gives way to
what it finds. -/
theorem glob_exists (t : Table Text (ι × Policy ρ)) (identity cwd : Text) {w : Site ι ρ}
    (htrees : ∀ i, (w.trees i).Orderly) :
    (∀ pattern names w', IsDotless pattern →
      glob (.ofTable t) identity cwd pattern w = (.ok names,w') →
      w'.trees = w.trees ∧ ∀ shown ∈ names, Finds t identity w w' cwd pattern shown) ∧
    ∀ (tree tree' : CommandTree) w', (∀ c ∈ tree.walk, ∀ p ∈ patternsOf c, IsDotless p) →
      expand (.ofTable t) identity cwd tree w = (.ok tree',w') →
      w'.trees = w.trees ∧ ∃ f, tree' = tree.map f ∧
        ∀ c ∈ tree.walk, ∀ arg ∈ (f c).args, arg ∈ c.args ∨
          ∃ p ∈ patternsOf c, Finds t identity w w' cwd p arg := by
  refine ⟨fun pattern names w' hpattern h => ?_,fun tree tree' w' hpatterns h => ?_⟩
  · obtain ⟨hbrowses,hnames⟩ := glob_finds htrees hpattern h
    exact ⟨browses_still hbrowses,hnames⟩
  · unfold expand at h
    split at h
    · cases h
      exact ⟨rfl,id,tree.map_id.symm,fun _ _ _ harg => .inl harg⟩
    · obtain ⟨found,w₁,hall,h⟩ := Action.bind_ok h
      cases h
      have hdotless : ∀ p ∈ distinct [] (tree.walk.flatMap patternsOf), IsDotless p := by
        intro p hp
        obtain ⟨c,hc,hp⟩ := List.mem_flatMap.1 (mem_of_mem_distinct hp)
        exact hpatterns c hc p hp
      obtain ⟨hbrowses,hfinds⟩ := globAll_finds htrees hdotless hall
      refine ⟨browses_still hbrowses,splice found,rfl,fun c _ arg harg => ?_⟩
      refine (mem_args_splice harg).imp id ?_
      rintro ⟨p,hp,names,hmem,hname⟩
      exact ⟨p,hp,hfinds p names hmem arg hname⟩

end Sites

/-- A file system in memory, mounted at the top and open to all. -/
def openTop : Table Text (Unit × Policy Unit) :=
  [(['/'],((),.permissive false))]

/-- A tree with a directory of the name d and nothing in it. -/
def oneDirectory : Site Unit Unit where
  trees _ := (Memory.fileSystem.run [.makeDir ['/','d'] false] FileTree.empty).2
  rest := ()

theorem orderly_oneDirectory (i : Unit) : (oneDirectory.trees i).Orderly :=
  Memory.orderly_run FileTree.orderly_empty _

/-- A mark finds the directory. -/
theorem glob_exists_mark : ∃ w',
    glob (.ofTable openTop) [] ['/'] ['*'] oneDirectory = (.ok [['d']],w') ∧
      w'.trees = oneDirectory.trees ∧ Found openTop [] oneDirectory w' ['/','d'] := by
  have hglob : (glob (.ofTable openTop) [] ['/'] ['*'] oneDirectory).1 = .ok [['d']] := by
    decide +kernel
  have hsplit : glob (.ofTable openTop) [] ['/'] ['*'] oneDirectory = (.ok [['d']],_) :=
    Prod.ext hglob rfl
  obtain ⟨hexpression,-⟩ := glob_exists openTop [] ['/'] orderly_oneDirectory
  obtain ⟨htrees,hfinds⟩ := hexpression ['*'] _ _ (by decide) hsplit
  exact ⟨_,hsplit,htrees,(hfinds ['d'] (.head _)).found (by decide)⟩

/-- In the directory it finds a name that is not there, if this is all that is written of it. -/
theorem not_glob_exists :
    ¬ ∀ (t : Table Text (Unit × Policy Unit)) (identity cwd pattern : Text)
      (w w' : Site Unit Unit) (names : List Text), (∀ i, (w.trees i).Orderly) →
      IsDotless pattern → glob (.ofTable t) identity cwd pattern w = (.ok names,w') →
      ∀ shown ∈ names, Found t identity w w' (Path.resolve cwd shown) := by
  intro hall
  have hglob : (glob (.ofTable openTop) [] ['/'] ['*','/','x'] oneDirectory).1 =
      .ok [['d','/','x']] := by
    decide +kernel
  have hfound := hall openTop [] ['/'] ['*','/','x'] oneDirectory _ _ orderly_oneDirectory
    (by decide) (Prod.ext hglob rfl) ['d','/','x'] (.head _)
  obtain ⟨r,i,policy,hr,-,hcontains⟩ := hfound.present
  have hrequest : (FileManager.ofTable openTop).request ['/','d'] =
      .ok ⟨⟨['/','d'],['/','d']⟩,mounted () (.permissive false)⟩ := by
    rfl
  cases hrequest.symm.trans hr
  cases i
  exact absurd hcontains (by decide +kernel)

end Realm.Expansion
