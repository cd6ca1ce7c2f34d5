import Realm.FileManager
import Realm.Proofs.Path
import Realm.Proofs.Table

/-! Which mount a path belongs to. The mounts are at normal paths, each at one of its own, and a
path belongs to the one that lies furthest down among those at or above it. Texts are compared
for this, and it comes to the same as comparing the names that they lead through. -/
namespace Realm

open Realm.Path (ofSegments AreNames IsNormal segments)

variable {σ : Type}

/-! Above and below, in texts and in names. -/

namespace Path

@[simp] theorem parts_append (path rest : Text) :
    parts (path ++ '/' :: rest) = parts path ++ parts rest := by
  simp [parts,pieces,splitOn_behind]

/-- A path in normal form lies at or below another if its names begin with those of the other. -/
theorem isWithin_ofSegments {segs top : List Text} (h : AreNames segs) (ht : AreNames top) :
    isWithin (ofSegments segs) (ofSegments top) = true ↔ top <+: segs := by
  by_cases hnil : top = []
  · subst hnil
    exact iff_of_true rfl List.nil_prefix
  have htop : ofSegments top ≠ ['/'] := mt (ofSegments_eq_top_iff ht).1 hnil
  rw [isWithin,decide_eq_false htop,Bool.false_or]
  constructor
  · intro hwithin
    cases hrest : Text.stripPrefix? (ofSegments top) (ofSegments segs) with
    | none => simp [hrest] at hwithin
    | some rest =>
      have hsegs := Text.stripPrefix?_eq_some_iff.1 hrest
      rw [hrest] at hwithin
      cases rest with
      | nil =>
        rw [List.append_nil] at hsegs
        exact ofSegments_inj h ht hsegs ▸ List.prefix_refl _
      | cons c rest =>
        obtain rfl : c = '/' := by simpa using hwithin
        have hparts := congrArg parts hsegs
        rw [parts_append,parts_ofSegments h,parts_ofSegments ht] at hparts
        exact ⟨_,hparts.symm⟩
  · rintro ⟨more,rfl⟩
    have hrest : Text.stripPrefix? (ofSegments top) (ofSegments (top ++ more)) =
        some (more.flatMap ('/' :: ·)) :=
      Text.stripPrefix?_eq_some_iff.2 (ofSegments_append hnil more)
    rw [hrest]
    cases more <;> simp

theorem isNormal_normalize (path : Text) : IsNormal (normalize path) :=
  ⟨segments path,rfl,areNames_segments path⟩

theorem IsNormal.normalize_eq {path : Text} (h : IsNormal path) : normalize path = path := by
  obtain ⟨segs,rfl,hsegs⟩ := h
  rw [normalize,segments_ofSegments hsegs]

theorem isWithin_normalize {path top : Text} (ht : IsNormal top) :
    isWithin (normalize path) top = true ↔ segments top <+: segments path := by
  rw [← isWithin_ofSegments (areNames_segments path) (areNames_segments top),normalize,
    ← normalize,← normalize,ht.normalize_eq]

theorem ofSegments_prefix {segs segs' : List Text} (h : segs <+: segs') :
    ofSegments segs <+: ofSegments segs' := by
  obtain ⟨more,rfl⟩ := h
  by_cases hnil : segs = []
  · subst hnil
    cases more with
    | nil => exact List.prefix_refl _
    | cons s more => exact ⟨s ++ more.flatMap ('/' :: ·),by simp [ofSegments]⟩
  · exact ⟨_,(ofSegments_append hnil more).symm⟩

theorem length_lt_of_prefix {top top' : Text} (ht : IsNormal top) (ht' : IsNormal top')
    (h : segments top <+: segments top') (hne : top ≠ top') :
    top.length < top'.length ∧ Text.byteSize top < Text.byteSize top' := by
  have hpre := ofSegments_prefix h
  rw [← normalize,← normalize,ht.normalize_eq,ht'.normalize_eq] at hpre
  obtain ⟨_ | ⟨c,rest⟩,rfl⟩ := hpre
  · exact absurd (List.append_nil top).symm hne
  · have hc := c.utf8Size_pos
    simp only [List.length_append,List.length_cons,Text.byteSize_append,Text.byteSize_cons]
    omega

end Path

/-! The table of mounts. -/

/-- An attempt to mount a file system, or to take one out. -/
inductive Mounting (σ : Type) where
  | mount (path : Text) (mounted : Mount σ)
  | unmount (path : Text)

/-- Carry out an attempt. One that fails leaves the mounts as they are. -/
def Mounting.apply (m : FileManager σ) : Mounting σ → FileManager σ
  | mount path mounted => (m.mount path mounted).toOption.getD m
  | unmount path => (m.unmount path).toOption.getD m

namespace FileManager

/-- The manager after some attempts. -/
def after (m : FileManager σ) (attempts : List (Mounting σ)) : FileManager σ :=
  attempts.foldl Mounting.apply m

/-- The mounts are in order, and at normal paths. -/
structure InOrder (m : FileManager σ) : Prop where
  sorted : m.mounts.Sorted
  normal : ∀ e ∈ m.mounts, IsNormal e.1

theorem inOrder_empty : ({} : FileManager σ).InOrder :=
  ⟨Table.sorted_nil,by simp⟩

theorem InOrder.apply {m : FileManager σ} (h : m.InOrder) (attempt : Mounting σ) :
    (attempt.apply m).InOrder := by
  cases attempt with
  | mount path mounted =>
    rw [Mounting.apply,FileManager.mount]
    split
    · exact h
    · refine ⟨h.sorted.insert _ _,fun e he => ?_⟩
      rcases Table.mem_insert he with rfl | he
      · exact Path.isNormal_normalize path
      · exact h.normal e he
  | unmount path =>
    rw [Mounting.apply,FileManager.unmount]
    split
    · exact ⟨h.sorted.erase _,fun e he => h.normal e (List.mem_filter.1 he).1⟩
    · exact h

theorem inOrder_after {m : FileManager σ} (h : m.InOrder) (attempts : List (Mounting σ)) :
    (m.after attempts).InOrder := by
  induction attempts generalizing m with
  | nil => exact h
  | cons attempt attempts ih => exact ih (h.apply attempt)

theorem InOrder.distinct {m : FileManager σ} (h : m.InOrder) :
    m.mounts.Pairwise fun a b => Path.normalize a.1 ≠ Path.normalize b.1 := by
  refine h.sorted.imp_of_mem fun {a b} ha hb hlt he => ?_
  rw [(h.normal a ha).normalize_eq,(h.normal b hb).normalize_eq] at he
  rw [he] at hlt
  exact Std.Asymm.asymm _ _ hlt hlt

/-! The longest of some mounts. -/

theorem mem_of_foldl_longer {ms : List (Text × Mount σ)} {best : Option (Text × Mount σ)}
    {m : Text × Mount σ} (h : ms.foldl longer best = some m) : m ∈ ms ∨ best = some m := by
  induction ms generalizing best with
  | nil => exact .inr h
  | cons a ms ih =>
    rcases ih h with h | h
    · exact .inl (by simp [h])
    · cases best with
      | none =>
        cases h
        exact .inl (by simp)
      | some b =>
        rw [longer] at h
        split at h
        · exact .inr h
        · cases h
          exact .inl (by simp)

theorem longer_spec (best : Option (Text × Mount σ)) (a : Text × Mount σ) :
    ∃ m, longer best a = some m ∧ a.1.length ≤ m.1.length ∧
      ∀ b, best = some b → b.1.length ≤ m.1.length := by
  cases best with
  | none => exact ⟨a,rfl,Nat.le_refl _,by simp⟩
  | some b =>
    rw [longer]
    split
    · next hlt => exact ⟨b,rfl,Nat.le_of_lt hlt,by simp⟩
    · next hge => exact ⟨a,rfl,Nat.le_refl _,by simpa using hge⟩

/-- One of the mounts that are compared is left, and none of them is longer. -/
theorem foldl_longer {ms : List (Text × Mount σ)} (best : Option (Text × Mount σ))
    (h : ms ≠ [] ∨ best.isSome) :
    ∃ m, ms.foldl longer best = some m ∧ (∀ a ∈ ms, a.1.length ≤ m.1.length) ∧
      ∀ b, best = some b → b.1.length ≤ m.1.length := by
  induction ms generalizing best with
  | nil =>
    obtain ⟨b,rfl⟩ := Option.isSome_iff_exists.1 (h.resolve_left (· rfl))
    exact ⟨b,rfl,by simp,by simp⟩
  | cons a ms ih =>
    obtain ⟨b,hb,hab,hbest⟩ := longer_spec best a
    obtain ⟨m,hm,hms,hbm⟩ := ih (longer best a) (.inr (by simp [hb]))
    have hle := hbm b hb
    refine ⟨m,hm,?_,fun c hc => Nat.le_trans (hbest c hc) hle⟩
    rw [List.forall_mem_cons]
    exact ⟨Nat.le_trans hab hle,hms⟩

/-! The mount of a path. -/

variable {m : FileManager σ} {path : Text}

theorem mem_above (h : m.InOrder) {e : Text × Mount σ} :
    e ∈ m.mounts.filter (fun e => Path.isWithin (Path.normalize path) e.1) ↔
      e ∈ m.mounts ∧ segments e.1 <+: segments path := by
  rw [List.mem_filter]
  exact and_congr_right fun he => Path.isWithin_normalize (h.normal e he)

theorem mountOf_eq_none (h : m.InOrder) (path : Text) :
    m.mountOf (Path.normalize path) = none ↔ ∀ e ∈ m.mounts, ¬ segments e.1 <+: segments path := by
  rw [mountOf]
  constructor
  · intro hnone e he hpre
    have hmem := (mem_above h).2 ⟨he,hpre⟩
    obtain ⟨_,hsome,-⟩ := foldl_longer none (.inl (List.ne_nil_of_mem hmem))
    cases hnone.symm.trans hsome
  · intro hall
    have hnil : m.mounts.filter (fun e => Path.isWithin (Path.normalize path) e.1) = [] := by
      refine List.eq_nil_iff_forall_not_mem.2 fun e he => ?_
      obtain ⟨hmem,hpre⟩ := (mem_above h).1 he
      exact hall e hmem hpre
    rw [hnil]
    rfl

/-- The mount of a path is the one with the most names among those at or above it. It is the
longest also if characters or bytes are counted. -/
theorem mountOf_eq_some (h : m.InOrder) {e : Text × Mount σ}
    (he : m.mountOf (Path.normalize path) = some e) :
    e ∈ m.mounts ∧ segments e.1 <+: segments path ∧
      ∀ e' ∈ m.mounts, segments e'.1 <+: segments path → e'.1 ≠ e.1 →
        (segments e'.1).length < (segments e.1).length ∧
          Text.byteSize e'.1 < Text.byteSize e.1 := by
  rw [mountOf] at he
  obtain ⟨hmem,hpre⟩ := (mem_above h).1 ((mem_of_foldl_longer he).resolve_right nofun)
  refine ⟨hmem,hpre,fun e' hmem' hpre' hne => ?_⟩
  have habove := (mem_above h).2 ⟨hmem',hpre'⟩
  obtain ⟨e₀,he₀,hall,-⟩ := foldl_longer none (.inl (List.ne_nil_of_mem habove))
  obtain rfl : e₀ = e := Option.some.inj (he₀.symm.trans he)
  have hlength := hall e' habove
  -- Of two mounts above one path, one lies above the other; it is not the longer one.
  rcases List.prefix_or_prefix_of_prefix hpre' hpre with hle | hle
  · obtain ⟨-,hbytes⟩ :=
      Path.length_lt_of_prefix (h.normal e' hmem') (h.normal e₀ hmem) hle hne
    refine ⟨?_,hbytes⟩
    rcases Nat.lt_or_ge (segments e'.1).length (segments e₀.1).length with hlt | hge
    · exact hlt
    · have hsame := congrArg ofSegments (hle.eq_of_length_le hge)
      exact absurd ((h.normal e' hmem').normalize_eq.symm.trans
        (hsame.trans (h.normal e₀ hmem).normalize_eq)) hne
  · have hlt := Path.length_lt_of_prefix (h.normal e₀ hmem) (h.normal e' hmem') hle hne.symm
    omega

theorem segments_relative {top : Text} (ht : IsNormal top) (hpre : segments top <+: segments path) :
    segments top ++ segments (if top = ['/'] then Path.normalize path
      else Path.normalize ((Path.normalize path).drop top.length)) = segments path := by
  obtain ⟨more,hmore⟩ := hpre
  split
  · next htop =>
    subst htop
    rw [Path.segments_normalize]
    rfl
  · next htop =>
    have hnil : segments top ≠ [] := by
      intro hnil
      rw [← ht.normalize_eq,Path.normalize,hnil] at htop
      exact htop rfl
    have hnames := Path.areNames_segments path
    rw [← hmore] at hnames
    have hwritten : Path.normalize path = top ++ more.flatMap ('/' :: ·) := by
      rw [Path.normalize,← hmore,Path.ofSegments_append hnil,← Path.normalize,ht.normalize_eq]
    have hrest := Path.segments_flatMap hnames.of_append.2 []
    rw [hwritten,List.drop_left,Path.segments_normalize,← hmore]
    exact congrArg _ hrest

/-- A request for a path goes to the mount that lies furthest down above it, and the way on from
there makes the path again. -/
structure Routes (m : FileManager σ) (path : Text) (r : Request σ) : Prop where
  full : r.fullPath = Path.normalize path
  relative : IsNormal r.relativePath
  mount : ∃ top, (top,r.mount) ∈ m.mounts ∧
    segments top ++ segments r.relativePath = segments r.fullPath ∧
    ∀ e ∈ m.mounts, segments e.1 <+: segments r.fullPath → e.1 ≠ top →
      (segments e.1).length < (segments top).length ∧ Text.byteSize e.1 < Text.byteSize top

theorem routes_of_request (h : m.InOrder) {r : Request σ} (hr : m.request path = .ok r) :
    m.Routes path r := by
  rw [request] at hr
  cases hm : m.mountOf (Path.normalize path) with
  | none =>
    rw [hm] at hr
    cases hr
  | some e =>
    rw [hm] at hr
    cases hr
    obtain ⟨hmem,hpre,hmost⟩ := mountOf_eq_some h hm
    refine ⟨rfl,?_,e.1,hmem,?_,?_⟩
    · dsimp only
      split <;> exact Path.isNormal_normalize _
    · rw [Path.segments_normalize]
      exact segments_relative (h.normal e hmem) hpre
    · simpa only [Path.segments_normalize] using hmost

/-- Whatever has been mounted and taken out before, wherever: a path has no mount if none is at
or above it, and otherwise it goes to the one of those with the most names, together with the
path that leads on from there. How the path is spelled does not matter, and no two mounts are at
paths that come to the same. -/
theorem request_routes (attempts : List (Mounting σ)) (path : Text) :
    let m := ({} : FileManager σ).after attempts
    (m.request path = .error (.noMount (Path.normalize path)) ↔
      ∀ e ∈ m.mounts, ¬ segments e.1 <+: segments (Path.normalize path)) ∧
    ((∃ e ∈ m.mounts, segments e.1 <+: segments (Path.normalize path)) →
      ∃ r, m.request path = .ok r ∧ m.Routes path r) ∧
    (∀ path', Path.normalize path' = Path.normalize path → m.request path' = m.request path) ∧
    m.mounts.Pairwise fun a b => Path.normalize a.1 ≠ Path.normalize b.1 := by
  intro m
  have h : m.InOrder := inOrder_after inOrder_empty attempts
  rw [Path.segments_normalize]
  have hnone := mountOf_eq_none h path
  refine ⟨?missing,?present,fun path' hsame => by rw [request,request,hsame],h.distinct⟩
  case missing =>
    rw [← hnone,request]
    cases m.mountOf (Path.normalize path) <;> simp
  case present =>
    rintro ⟨e,he,hpre⟩
    cases hr : m.request path with
    | ok r => exact ⟨r,rfl,routes_of_request h hr⟩
    | error err =>
      rw [request] at hr
      cases hm : m.mountOf (Path.normalize path) with
      | none => exact absurd hpre (hnone.1 hm e he)
      | some top =>
        rw [hm] at hr
        cases hr

end FileManager

end Realm
