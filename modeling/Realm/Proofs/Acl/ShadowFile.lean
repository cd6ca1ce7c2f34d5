import Realm.Acl.Shadow
import Realm.Proofs.Json.Reads

/-! Shadow files are read back as they were written, unless the rules of patterns in them
lie so deeply inside each other that the reader gives up. -/
namespace Realm.Acl.Shadow

open Json (Draft Fields Source nesting nestingItems nestingMembers Storable StorableItems
  StorableMembers)
open Json.Draft (Flaw Quotation SayItems SayMembers Finds)

/-- Rules in which every table is one. -/
inductive WellFormed : Shadow → Prop
  | node {permissions : Grants} {files : Table Text FileEntry} {inherits : Bool}
    {patterns children : List (Text × Shadow)} (permissions_sorted : permissions.Sorted)
    (files_sorted : files.Sorted) (entries_sorted : ∀ f ∈ files, f.2.permissions.Sorted)
    (patterns_wf : ∀ p ∈ patterns, WellFormed p.2) (children_sorted : Table.Sorted children)
    (children_wf : ∀ c ∈ children, WellFormed c.2) :
    WellFormed (.node permissions files inherits patterns children)

/-- How many arrays and objects stand inside each other in the file of some rules. -/
def depth (s : Shadow) : Nat :=
  nesting s.toJson

/-! What is written. -/

theorem grantsJson_eq (g : Grants) :
    grantsJson g = .object (g.map fun e => (e.1,.number e.2.toNat)) :=
  rfl

theorem childrenJson_eq_map (cs : List (Text × Shadow)) :
    childrenJson cs = cs.map fun c => (c.1,c.2.toJson) := by
  induction cs with
  | nil => rfl
  | cons c cs ih => rw [childrenJson,ih]; rfl

def patternJson (p : Text × Shadow) : Json :=
  .object (("pattern".toList,.string p.1) :: members p.2)

theorem patternsJson_eq_map (ps : List (Text × Shadow)) : patternsJson ps = ps.map patternJson := by
  induction ps with
  | nil => rfl
  | cons p ps ih => rw [patternsJson,ih]; rfl

@[simp] theorem nesting_patternJson (p : Text × Shadow) : nesting (patternJson p) = p.2.depth := by
  simp [patternJson,depth,toJson,nesting,nestingMembers]

theorem storableMembers_append {ms ms' : List (Text × Json)} (h : StorableMembers ms)
    (h' : StorableMembers ms') : StorableMembers (ms ++ ms') := by
  induction ms with
  | nil => exact h'
  | cons m ms ih =>
    cases h with
    | cons hv hms => exact .cons hv (ih hms)

theorem storableMembers_map {α : Type} {xs : List (Text × α)} (write : α → Json)
    (h : ∀ x ∈ xs, Storable (write x.2)) :
    StorableMembers (xs.map fun x => (x.1,write x.2)) := by
  induction xs with
  | nil => exact .nil
  | cons x xs ih => exact .cons (h x (by simp)) (ih fun x hx => h x (by simp [hx]))

theorem storableMembers_optional {c : Bool} {name : Text} {v : Json} (h : Storable v) :
    StorableMembers (if c then [] else [(name,v)]) := by
  cases c with
  | true => exact .nil
  | false => exact .cons h .nil

theorem storable_permission (p : Permission) : Storable (.number p.toNat) := by
  have hp : p.toNat < 0x2000 := p.bits.isLt
  refine .number ?_
  unfold Draft.InRange
  omega

theorem storable_grantsJson (g : Grants) : Storable (grantsJson g) := by
  rw [grantsJson_eq]
  exact .object (storableMembers_map (fun p : Permission => .number p.toNat)
    fun e _ => storable_permission e.2)

theorem storable_fileJson (f : FileEntry) : Storable (fileJson f) :=
  .object (.cons (storable_grantsJson f.permissions) (.cons (.bool _) .nil))

mutual

theorem storable_members (s : Shadow) : StorableMembers (members s) := by
  cases s with
  | node permissions files inherits patterns children =>
    have hfiles : Storable (.object (files.map fun (name,f) => (name,fileJson f))) :=
      .object (storableMembers_map fileJson fun f _ => storable_fileJson f.2)
    have hpatterns : Storable (.array (patternsJson patterns)) :=
      .array (storable_patternsJson patterns)
    have hchildren : Storable (.object (childrenJson children)) :=
      .object (storable_childrenJson children)
    rw [members]
    refine storableMembers_append (storableMembers_append (storableMembers_append ?_ ?_) ?_) ?_
    · exact .cons (storable_grantsJson permissions) (storableMembers_optional hfiles)
    · exact storableMembers_optional (.bool false)
    · exact storableMembers_optional hpatterns
    · exact storableMembers_optional hchildren

theorem storable_patternsJson (ps : List (Text × Shadow)) : StorableItems (patternsJson ps) := by
  cases ps with
  | nil => exact .nil
  | cons p ps =>
    obtain ⟨pattern,s⟩ := p
    exact .cons (.object (.cons (.string pattern) (storable_members s)))
      (storable_patternsJson ps)

theorem storable_childrenJson (cs : List (Text × Shadow)) :
    StorableMembers (childrenJson cs) := by
  cases cs with
  | nil => exact .nil
  | cons c cs =>
    obtain ⟨name,s⟩ := c
    exact .cons (.object (storable_members s)) (storable_childrenJson cs)

end

theorem storable_toJson (s : Shadow) : Storable s.toJson :=
  .object (storable_members s)

/-! Looking at what is said of some rules. -/

theorem finds_grants {g : Grants} (hg : g.Sorted) {d : Draft} (h : d.Says (grantsJson g))
    (depth : Nat) : Finds (readGrants depth d) (nesting (grantsJson g) < depth) g := by
  rw [grantsJson_eq] at h ⊢
  refine Draft.finds_table (fun p : Permission => .number p.toNat) hg h ?_
  intro h₀ e _ d hd
  exact Finds.congr (Finds.of_eq (Draft.finds_permission hd)) (by simpa [nesting] using h₀)

theorem read_permissions (depth : Nat) (d : Draft) (f : FileEntry) :
    (fileFields depth).read "permissions".toList d f =
      (readGrants depth d >>= fun g => pure { f with permissions := g }) := by
  simp only [fileFields,if_true]

theorem read_inherits (depth : Nat) (d : Draft) (f : FileEntry) :
    (fileFields depth).read "inherits".toList d f =
      (d.flag >>= fun b => pure { f with inherits := b }) := by
  simp only [fileFields]
  rw [if_neg (by decide)]

theorem finds_file {f : FileEntry} (hf : f.permissions.Sorted) {d : Draft}
    (h : d.Says (fileJson f)) (source : Source) {depth : Nat} (h₀ : 0 < depth) :
    Finds (readFile source depth d) (nesting (fileJson f) < depth) f := by
  cases h with
  | @object ds _ s hs =>
    have hr : ∀ depth, 0 < depth → Finds ((fileFields depth).record source {} (.object ds none s))
        (nestingMembers [("permissions".toList,grantsJson f.permissions),
          ("inherits".toList,.bool f.inherits)] < depth) f := by
      intro depth h₀
      refine Fields.finds_record rfl ?_
      refine Fields.finds_member { permissions := f.permissions } hs
        (.head _) (by simp) ?_ fun ds hs => ?_
      · intro d hd
        rw [read_permissions]
        exact Finds.congr (Finds.bind (finds_grants hf hd depth) fun _ => Finds.ok _)
          (Iff.of_eq (and_true _))
      · refine Fields.finds_member f hs (.tail _ (.head _)) (by decide) ?_
          fun ds hs => ?_
        · intro d hd
          rw [read_inherits,Draft.finds_flag hd]
          exact Finds.congr (Finds.ok f) (by simpa [nesting] using h₀)
        · exact Finds.congr (Fields.finds_noMembers hs) (by simpa [nestingMembers] using h₀)
    refine Finds.congr (Finds.bind (Draft.finds_enter s depth) fun h₂ => hr _ (by omega)) ?_
    simp only [fileJson,nesting]
    omega

theorem read_field (source : Source) (n : Nat) (readChild readRules : Draft → Except Flaw Shadow)
    (g : Grants) (fs : Table Text FileEntry) (i : Bool) (ps cs : List (Text × Shadow))
    (d : Draft) :
    (fields source n readChild readRules).read "permissions".toList d (.node g fs i ps cs) =
        (readGrants n d >>= fun g => pure (.node g fs i ps cs)) ∧
      (fields source n readChild readRules).read "files".toList d (.node g fs i ps cs) =
        (d.table (readFile source) n >>= fun fs => pure (.node g fs i ps cs)) ∧
      (fields source n readChild readRules).read "inherits".toList d (.node g fs i ps cs) =
        (d.flag >>= fun i => pure (.node g fs i ps cs)) ∧
      (fields source n readChild readRules).read "regexEntries".toList d (.node g fs i ps cs) =
        (d.list (readPattern readRules) n >>= fun ps => pure (.node g fs i ps cs)) ∧
      (fields source n readChild readRules).read "children".toList d (.node g fs i ps cs) =
        (d.table (fun _ => readChild) n >>= fun cs => pure (.node g fs i ps cs)) := by
  simp only [fields]
  refine ⟨if_pos trivial,?_,?_,?_,?_⟩
  · rw [if_neg (by decide),if_pos trivial]
  · simp
  · simp
  · simp

/-- The members of rules one after the other, each but the first of them optional. -/
theorem members_eq (g : Grants) (fs : Table Text FileEntry) (i : Bool)
    (ps cs : List (Text × Shadow)) :
    members (.node g fs i ps cs) =
      ("permissions".toList,grantsJson g) ::
        ((if fs.isEmpty then []
            else [("files".toList,.object (fs.map fun f => (f.1,fileJson f.2)))]) ++
          ((if i then [] else [("inherits".toList,.bool false)]) ++
            ((if ps.isEmpty then []
                else [("regexEntries".toList,.array (ps.map patternJson))]) ++
              ((if cs.isEmpty then []
                  else [("children".toList,.object (cs.map fun c => (c.1,c.2.toJson)))]) ++
                [])))) := by
  rw [members,patternsJson_eq_map,childrenJson_eq_map]
  simp only [unlessEmpty,List.append_assoc,List.cons_append,List.append_nil]

theorem name_ne_pattern {s : Shadow} {m : Text × Json} (h : m ∈ members s) :
    m.1 ≠ "pattern".toList := by
  cases s with
  | node g fs i ps cs =>
    rw [members_eq] at h
    simp only [List.mem_cons,List.mem_append,List.mem_ite_nil_left,List.not_mem_nil,or_false] at h
    have hname : m.1 ∈ ["permissions","files","inherits","regexEntries","children"].map
        String.toList := by
      obtain rfl | ⟨-,rfl⟩ | ⟨-,rfl⟩ | ⟨-,rfl⟩ | ⟨-,rfl⟩ := h <;> simp
    intro hp
    rw [hp] at hname
    exact absurd hname (by decide)

theorem finds_split {ds : List (Quotation × Draft)} {ms : List (Text × Json)}
    (h : SayMembers ds ms) (hms : ∀ m ∈ ms, m.1 ≠ "pattern".toList) (pattern : Text) {n : Nat}
    (h₀ : 0 < n) :
    Finds (splitPattern n (some pattern) ds) (nestingMembers ms < n) (some pattern,ds) := by
  induction ms generalizing ds with
  | nil =>
    cases h
    exact (Finds.ok _).congr (by simpa [nestingMembers] using h₀)
  | cons m ms ih =>
    cases h with
    | @cons q d name v ds _ hq hd hs =>
      obtain ⟨j,hj⟩ := Draft.finds_anything hd
      have hname : name ≠ "pattern".toList := hms (name,v) (by simp)
      rw [splitPattern]
      refine Finds.congr (Finds.bind (Finds.of_eq hq.value) fun _ => ?_)
        (Iff.of_eq (true_and _))
      rw [if_neg hname]
      refine Finds.congr (Finds.bind (hj h₀) fun _ =>
        Finds.bind (ih hs fun m hm => hms m (by simp [hm])) fun _ => Finds.ok _) ?_
      rw [and_true,Json.nestingMembers_cons_lt]

/-- The rules of a pattern are looked at as a whole and then read; both go equally deep. -/
theorem finds_readPattern {pattern : Text} {ms : List (Text × Json)} {s : Shadow} {d : Draft}
    (h : d.Says (.object (("pattern".toList,.string pattern) :: ms)))
    (hms : ∀ m ∈ ms, m.1 ≠ "pattern".toList) {n : Nat}
    {readRules : Draft → Except Flaw Shadow}
    (hread : ∀ d : Draft, d.Says (.object ms) →
      Finds (readRules d) (nesting (.object ms) < n) s) :
    Finds (readPattern readRules n d)
      (nesting (.object (("pattern".toList,.string pattern) :: ms)) < n) (pattern,s) := by
  cases h with
  | @object _ _ span hs =>
    cases hs with
    | @cons q d _ _ ds _ hq hd hs =>
      have hsplit : 2 ≤ n → Finds (splitPattern (n - 1) none ((q,d) :: ds))
          (nestingMembers ms < n - 1) (some pattern,ds) := by
        intro h₂
        rw [splitPattern]
        refine Finds.congr (Finds.bind (Finds.of_eq hq.value) fun _ => ?_)
          (Iff.of_eq (true_and _))
        rw [if_pos rfl]
        exact Finds.congr (Finds.bind (Finds.of_eq (Draft.finds_text hd)) fun _ =>
          finds_split hs hms pattern (by omega)) (Iff.of_eq (true_and _))
      rw [readPattern]
      refine Finds.congr (Finds.bind (Draft.finds_enter span n) fun h₂ =>
        Finds.bind (hsplit h₂) fun _ => Finds.bind (Finds.of_eq Draft.ask_none) fun _ =>
          Finds.bind ((hread _ (.object span hs)).mapError _) fun _ => Finds.ok (pattern,s)) ?_
      simp only [nesting,nestingMembers,true_and,and_true,Nat.zero_max]
      omega

theorem finds_pattern {p : Text × Shadow} {d : Draft} (h : d.Says (patternJson p)) {n : Nat}
    {readRules : Draft → Except Flaw Shadow}
    (hread : ∀ d : Draft, d.Says p.2.toJson → Finds (readRules d) (p.2.depth < n) p.2) :
    Finds (readPattern readRules n d) (nesting (patternJson p) < n) p :=
  finds_readPattern h (fun _ hm => name_ne_pattern hm) hread

/-- The members of rules are read one after the other, given how rules inside them are. -/
theorem finds_members {g : Grants} {fs : Table Text FileEntry} {i : Bool}
    {ps cs : List (Text × Shadow)} (hg : g.Sorted) (hfs : fs.Sorted)
    (hes : ∀ f ∈ fs, f.2.permissions.Sorted) (hcs : Table.Sorted cs) {source : Source} {n : Nat}
    {readChild readRules : Draft → Except Flaw Shadow}
    (hps : ∀ p ∈ ps, ∀ d : Draft, d.Says p.2.toJson →
      Finds (readRules d) (p.2.depth < n - 1) p.2)
    (hchildren : ∀ c ∈ cs, ∀ d : Draft, d.Says c.2.toJson →
      Finds (readChild d) (c.2.depth < n - 1) c.2)
    (h₀ : 0 < n) {ds : List (Quotation × Draft)}
    (h : SayMembers ds (members (.node g fs i ps cs))) :
    Finds ((fields source n readChild readRules).ofMembers [] empty ds)
      (nestingMembers (members (.node g fs i ps cs)) < n) (.node g fs i ps cs) := by
  rw [members_eq] at h ⊢
  refine Fields.finds_member (.node g [] true [] []) h (.head _) (by simp)
    (fun d hd => ?_) fun ds h => ?_
  · rw [empty,(read_field ..).1]
    exact Finds.congr (Finds.bind (finds_grants hg hd _) fun _ => Finds.ok _)
      (Iff.of_eq (and_true _))
  refine Fields.finds_optional (.node g fs true [] []) h (.tail _ (.head _)) (by decide)
    (fun he => by rw [List.isEmpty_iff.1 he]) (fun _ d hd => ?_) fun ds seen₂ hs₂ h => ?_
  · rw [(read_field ..).2.1]
    refine Finds.congr (Finds.bind (Draft.finds_table fileJson hfs hd fun h₀ f hf d hd =>
      finds_file (hes f hf) hd source h₀) fun _ => Finds.ok _) (Iff.of_eq (and_true _))
  refine Fields.finds_optional (.node g fs i [] []) h (.tail _ (.tail _ (.head _)))
    (fun hm => absurd (hs₂ hm) (by decide)) (fun he => by rw [he]) (fun he d hd => ?_)
    fun ds seen₃ hs₃ h => ?_
  · rw [(read_field ..).2.2.1,Draft.finds_flag hd,he]
    exact Finds.congr (Finds.ok _) (by simpa [nesting] using h₀)
  have hs₃ := List.Subset.trans hs₃ (List.cons_subset_cons _ hs₂)
  refine Fields.finds_optional (.node g fs i ps []) h
    (.tail _ (.tail _ (.tail _ (.head _)))) (fun hm => absurd (hs₃ hm) (by decide))
    (fun he => by rw [List.isEmpty_iff.1 he]) (fun _ d hd => ?_) fun ds seen₄ hs₄ h => ?_
  · rw [(read_field ..).2.2.2.1]
    refine Finds.congr (Finds.bind (Draft.finds_list hd fun _ p hp d hd => finds_pattern hd
      (hps p hp)) fun _ => Finds.ok _) (Iff.of_eq (and_true _))
  have hs₄ := List.Subset.trans hs₄ (List.cons_subset_cons _ hs₃)
  refine Fields.finds_optional (.node g fs i ps cs) h
    (.tail _ (.tail _ (.tail _ (.tail _ (.head _))))) (fun hm => absurd (hs₄ hm) (by decide))
    (fun he => by rw [List.isEmpty_iff.1 he]) (fun _ d hd => ?_) fun ds seen₅ _ h => ?_
  · rw [(read_field ..).2.2.2.2]
    refine Finds.congr (Finds.bind (Draft.finds_table toJson hcs hd fun _ =>
      hchildren) fun _ => Finds.ok _) (Iff.of_eq (and_true _))
  · exact Finds.congr (Fields.finds_noMembers h) (by simpa [nestingMembers] using h₀)

/-- Rules are read back if their file is not nested too deeply. -/
theorem finds_read {s : Shadow} (hs : s.WellFormed) {d : Draft} (h : d.Says s.toJson)
    (source : Source) (n : Nat) : Finds (read source n d) (s.depth < n) s := by
  induction hs generalizing d source n with
  | @node g fs i ps cs hg hfs hes _ hcs _ ihp ihc =>
    cases h with
    | @object ds _ span h =>
      match n with
      | 0 | 1 =>
        refine ⟨fun h => absurd h ?_,fun _ => ⟨_,rfl⟩⟩
        simp [depth,toJson,nesting]
      | n + 2 =>
        rw [read]
        refine Finds.congr (Fields.finds_record rfl (finds_members hg hfs hes hcs
          (fun p hp d hd => ihp p hp hd .buffer n) (fun c hc d hd => ihc c hc hd source n)
          (by omega) h)) ?_
        simp [depth,toJson,nesting]

@[simp] theorem nesting_grantsJson (g : Grants) : nesting (grantsJson g) = 1 := by
  have h : nestingMembers (g.map fun e => (e.1,.number e.2.toNat)) < 1 :=
    (Json.nestingMembers_lt (by decide)).2 fun m hm => by
      obtain ⟨e,-,rfl⟩ := List.mem_map.1 hm
      exact Nat.zero_lt_one
  rw [grantsJson_eq,nesting]
  omega

@[simp] theorem nesting_fileJson (f : FileEntry) : nesting (fileJson f) = 2 := by
  simp [fileJson,nesting,nestingMembers]

theorem forall_mem_optional {c : Bool} {name : Text} {v : Json} {k : Nat} :
    (∀ m ∈ (if c then [] else [(name,v)] : List (Text × Json)), nesting m.2 < k) ↔
      (c = false → nesting v < k) := by
  cases c <;> simp

theorem nesting_object_lt {α : Type} {xs : List (Text × α)} {write : α → Json} {k : Nat}
    (hk : 1 < k) :
    (xs.isEmpty = false → nesting (.object (xs.map fun x => (x.1,write x.2))) < k) ↔
      ∀ x ∈ xs, nesting (write x.2) + 1 < k := by
  have h : nestingMembers (xs.map fun x => (x.1,write x.2)) < k - 1 ↔
      ∀ m ∈ xs.map fun x => (x.1,write x.2), nesting m.2 < k - 1 :=
    Json.nestingMembers_lt (by omega)
  simp only [List.forall_mem_map] at h
  rw [nesting]
  constructor
  · intro hx x hm
    have := h.1 (by have := hx (by cases xs <;> simp_all); omega) x hm
    omega
  · intro hx _
    have := h.2 fun x hm => by have := hx x hm; omega
    omega

theorem nesting_array_lt {α : Type} {xs : List α} {write : α → Json} {k : Nat} (hk : 1 < k) :
    (xs.isEmpty = false → nesting (.array (xs.map write)) < k) ↔
      ∀ x ∈ xs, nesting (write x) + 1 < k := by
  have h : nestingItems (xs.map write) < k - 1 ↔ ∀ v ∈ xs.map write, nesting v < k - 1 :=
    Json.nestingItems_lt (by omega)
  simp only [List.forall_mem_map] at h
  rw [nesting]
  constructor
  · intro hx x hm
    have := h.1 (by have := hx (by cases xs <;> simp_all); omega) x hm
    omega
  · intro hx _
    have := h.2 fun x hm => by have := hx x hm; omega
    omega

/-- The files of rules are nested as deeply as those of the rules inside them, and two
levels more. -/
theorem depth_lt_iff {g : Grants} {fs : Table Text FileEntry} {i : Bool}
    {ps cs : List (Text × Shadow)} {k : Nat} (hk : 5 ≤ k) :
    (Shadow.node g fs i ps cs).depth < k ↔
      (∀ p ∈ ps, p.2.depth + 2 < k) ∧ ∀ c ∈ cs, c.2.depth + 2 < k := by
  have hlt : (Shadow.node g fs i ps cs).depth < k ↔
      ∀ m ∈ members (.node g fs i ps cs), nesting m.2 < k - 1 := by
    rw [← Json.nestingMembers_lt (by omega),depth,toJson,nesting]
    omega
  have hsub : ∀ n, n + 1 < k - 1 ↔ n + 2 < k := by omega
  rw [hlt,members_eq]
  simp only [List.forall_mem_cons,List.forall_mem_append,forall_mem_optional,
    nesting_object_lt (show 1 < k - 1 by omega),nesting_array_lt (show 1 < k - 1 by omega),
    nesting_grantsJson,nesting_fileJson,nesting_patternJson,hsub]
  constructor
  · rintro ⟨-,-,-,hps,hcs,-⟩
    exact ⟨hps,hcs⟩
  · rintro ⟨hps,hcs⟩
    exact ⟨by omega,fun _ _ => by omega,fun _ => by simp only [nesting]; omega,hps,hcs,by simp⟩

/-! Whole files. -/

/-- Reading the bytes of a document is looking at a draft of it, whatever its layout. -/
theorem finds_ofBytes (layout : Json.Layout) {v : Json} (hv : Storable v) {p : Prop} {s : Shadow}
    (h : ∀ d : Draft, d.Says v → Finds (read .document Json.depthLimit d) p s) :
    (p → ofBytes (Text.encode (v.writeAt layout 0)) = .ok s) ∧
      (¬ p → ∃ fault, ofBytes (Text.encode (v.writeAt layout 0)) = .error fault) := by
  obtain ⟨d,hdraft,hsaid⟩ := Json.Draft.ofSymbols_writeAt layout hv
  have hsym : Text.symbols (Text.encode (v.writeAt layout 0)) =
      Json.Draft.symbolsOf (Json.writeAt layout 0 v) := Text.symbols_encode _
  rw [ofBytes,parse,hsym,Json.parse,hdraft]
  constructor
  · intro hp
    simp only [(h d hsaid).found hp]
    rfl
  · intro hp
    obtain ⟨f,hread⟩ := (h d hsaid).refused hp
    simp only [hread]
    exact ⟨_,rfl⟩

/-- The text of some rules is read as them if it is not nested too deeply for its reader, and
cannot be read otherwise. -/
theorem ofBytes_writeAt (layout : Json.Layout) {s : Shadow} (hs : s.WellFormed) :
    (s.depth < Json.depthLimit → ofBytes (Text.encode (s.toJson.writeAt layout 0)) = .ok s) ∧
      (¬ s.depth < Json.depthLimit →
        ∃ fault, ofBytes (Text.encode (s.toJson.writeAt layout 0)) = .error fault) :=
  finds_ofBytes layout (storable_toJson s) fun _ h => finds_read hs h .document _

/-- A file holds what was written if it is not nested too deeply for its reader. -/
theorem ofBytes_toBytes {s : Shadow} (hs : s.WellFormed) (hd : s.depth < Json.depthLimit) :
    ofBytes s.toBytes = .ok s :=
  (ofBytes_writeAt .pretty hs).1 hd

theorem ofBytes_toBytes_error {s : Shadow} (hs : s.WellFormed)
    (hd : Json.depthLimit ≤ s.depth) : ∃ fault, ofBytes s.toBytes = .error fault :=
  (ofBytes_writeAt .pretty hs).2 (Nat.not_lt.2 hd)

/-! Whatever is read is well formed. -/

theorem sorted_of_readFile {source : Source} {n : Nat} {d : Draft} {f : FileEntry}
    (h : readFile source n d = .ok f) : f.permissions.Sorted := by
  obtain ⟨n',-,h⟩ := bind_eq_ok.1 h
  refine Fields.record_keeps (P := fun f => f.permissions.Sorted) ?_ Table.sorted_nil h
  intro name d f f' hf h
  simp only [fileFields] at h
  split at h
  · obtain ⟨g,hg,h⟩ := bind_eq_ok.1 h
    cases h
    exact (Draft.mem_of_table hg).1
  · obtain ⟨b,-,h⟩ := bind_eq_ok.1 h
    cases h
    exact hf

theorem wellFormed_of_readPattern {readRules : Draft → Except Flaw Shadow}
    (hrules : ∀ d s, readRules d = .ok s → s.WellFormed) {n : Nat} {d : Draft}
    {p : Text × Shadow} (h : readPattern readRules n d = .ok p) : p.2.WellFormed := by
  cases d with
  | object ds o s =>
    obtain ⟨_,-,h⟩ := bind_eq_ok.1 h
    obtain ⟨⟨pattern,others⟩,-,h⟩ := bind_eq_ok.1 h
    obtain ⟨_,-,h⟩ := bind_eq_ok.1 h
    cases pattern with
    | none => cases h
    | some pattern =>
      obtain ⟨rules,hr,h⟩ := bind_eq_ok.1 h
      cases h
      cases hread : readRules (.object others none s) with
      | error f =>
        rw [hread] at hr
        cases hr
      | ok s' =>
        rw [hread] at hr
        cases hr
        exact hrules _ _ hread
  | _ => cases h

theorem wellFormed_field {source : Source} {n : Nat}
    {readChild readRules : Draft → Except Flaw Shadow}
    (hchild : ∀ d s, readChild d = .ok s → s.WellFormed)
    (hrules : ∀ d s, readRules d = .ok s → s.WellFormed) {name : Text} {d : Draft}
    {s s' : Shadow} (hs : s.WellFormed)
    (h : (fields source n readChild readRules).read name d s = .ok s') : s'.WellFormed := by
  cases hs with
  | @node g fs i ps cs hg hfs hes hps hcs hchildren =>
    simp only [fields] at h
    split at h
    · obtain ⟨g',hg',h⟩ := bind_eq_ok.1 h
      cases h
      exact .node (Draft.mem_of_table hg').1 hfs hes hps hcs hchildren
    split at h
    · obtain ⟨fs',hfs',h⟩ := bind_eq_ok.1 h
      cases h
      obtain ⟨hsorted,hread⟩ := Draft.mem_of_table hfs'
      refine .node hg hsorted (fun f hf => ?_) hps hcs hchildren
      obtain ⟨n,d,hd⟩ := hread f hf
      exact sorted_of_readFile hd
    split at h
    · obtain ⟨b,-,h⟩ := bind_eq_ok.1 h
      cases h
      exact .node hg hfs hes hps hcs hchildren
    split at h
    · obtain ⟨ps',hps',h⟩ := bind_eq_ok.1 h
      cases h
      refine .node hg hfs hes (fun p hp => ?_) hcs hchildren
      obtain ⟨n,d,hd⟩ := Draft.mem_of_list hps' hp
      exact wellFormed_of_readPattern hrules hd
    · obtain ⟨cs',hcs',h⟩ := bind_eq_ok.1 h
      cases h
      obtain ⟨hsorted,hread⟩ := Draft.mem_of_table hcs'
      refine .node hg hfs hes hps hsorted fun c hc => ?_
      obtain ⟨_,d,hd⟩ := hread c hc
      exact hchild d c.2 hd

theorem wellFormed_of_read {source : Source} {n : Nat} {d : Draft} {s : Shadow}
    (h : read source n d = .ok s) : s.WellFormed := by
  induction n using Nat.strongRecOn generalizing source d s with
  | ind n ih =>
    match n with
    | 0 | 1 =>
      obtain ⟨_,-,h⟩ := bind_eq_ok.1 h
      cases h
    | n + 2 =>
      rw [read] at h
      have hempty : empty.WellFormed :=
        .node Table.sorted_nil Table.sorted_nil (by simp) (by simp) Table.sorted_nil (by simp)
      refine Fields.record_keeps (P := WellFormed) (fun name d a b ha h => ?_) hempty h
      exact wellFormed_field (fun d s => ih n (by omega)) (fun d s => ih n (by omega)) ha h

theorem wellFormed_of_ofBytes {bytes : Bytes} {s : Shadow} (h : ofBytes bytes = .ok s) :
    s.WellFormed := by
  rw [ofBytes,parse,Json.parse] at h
  cases hd : Draft.ofSymbols (Text.symbols bytes) with
  | mk d rest =>
    rw [hd] at h
    cases hr : read .document Json.depthLimit d with
    | error f =>
      simp only [hr,bind,Except.bind] at h
      cases h
    | ok s' =>
      simp only [hr,bind,Except.bind] at h
      split at h
      · cases h
        exact wellFormed_of_read hr
      · cases h

end Realm.Acl.Shadow
