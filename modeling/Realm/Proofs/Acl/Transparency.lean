import Realm.Proofs.Acl.Calls
import Realm.Proofs.Acl.Follows
import Realm.Proofs.Acl.InMemory

/-! Calls of an access engine one after the other, and what forgetting its cache between them
can change. -/
namespace Realm.Acl

open Realm.Path (ofSegments AreNames)

variable {σ τ α β : Type}

namespace Engine

/-- A call whose path is not that of a shadow file, and whose grants are a table. -/
def Call.Proper (call : Call) : Prop :=
  aclName ∉ Path.segments call.path ∧
    ∀ dir pattern permissions inherits, call = addPattern dir pattern permissions inherits →
      permissions.Sorted

namespace Alike

variable {R : σ → τ → Prop} {e : Engine σ} {e' : Engine τ}

theorem call (h : Engine.Alike R e e') (call : Call) :
    Action.Alike (Beside R) (call.run e) (call.run e') := by
  cases call with
  | effective path identity => exact (h.effective path identity).bind fun _ => .pure _
  | setPermissions dir key p => exact (h.update dir _).bind fun _ => .pure _
  | setInherits dir on => exact (h.update dir _).bind fun _ => .pure _
  | addPattern dir pattern permissions inherits =>
    exact (h.update dir _).bind fun _ => .pure _
  | touchFile file => exact (h.touchFile file).bind fun _ => .pure _
  | setFilePermissions file key p => exact (h.updateFile file _).bind fun _ => .pure _
  | setFileInherits file on => exact (h.updateFile file _).bind fun _ => .pure _
  | describe dir => exact (h.describe dir).bind fun _ => .pure _
  | clearCache => exact Alike.clearCache.bind fun _ => .pure _

theorem run (h : Engine.Alike R e e') (calls : List Call) {s : Cache × σ} {t : Cache × τ}
    (hst : Beside R s t) :
    (e.run calls s).1 = (e'.run calls t).1 ∧ Beside R (e.run calls s).2 (e'.run calls t).2 := by
  induction calls generalizing s t with
  | nil => exact ⟨rfl,hst⟩
  | cons c calls ih =>
    obtain ⟨h₁,h₂⟩ := h.call c s t hst
    obtain ⟨h₃,h₄⟩ := ih h₂
    rw [run_cons,run_cons]
    exact ⟨by rw [h₁,h₃],h₄⟩

end Alike

end Engine

/-! The same calls without a cache. -/

namespace Fresh

open Engine (Call Answer)

def update (e : Engine σ) (dir : Text) (c : Change) : Action σ Node :=
  visitTop e (visitDirectory e none (change e c) (Path.segments dir))

def updateFile (e : Engine σ) (file : Text) (c : Text → Change) : Action σ Node := do
  match Engine.splitFile file with
  | .error err => throw err
  | .ok (dir,name) => update e dir (c name)

def touchFile (e : Engine σ) (file : Text) : Action σ Bool := do
  let before ← updateFile e file .touch
  pure (!Table.contains (Path.fileName (Path.normalize file)) before.files)

/-- Carry out a call; there is nothing to forget. -/
def answer (e : Engine σ) : Call → Action σ Answer
  | .effective path identity => do
    let p ← visitTop e fun n =>
      resolve e identity (Path.segments path) n [] (n.lookup e.groups [] identity)
    pure (.permission p)
  | .setPermissions dir key p => do
    let _ ← update e dir (.grant key p)
    pure .done
  | .setInherits dir on => do
    let _ ← update e dir (.inherit on)
    pure .done
  | .addPattern dir pattern permissions inherits => do
    let _ ← update e dir (.addPattern pattern permissions inherits)
    pure .done
  | .touchFile file => do
    let b ← touchFile e file
    pure (.created b)
  | .setFilePermissions file key p => do
    let _ ← updateFile e file (.grantFile · key p)
    pure .done
  | .setFileInherits file on => do
    let _ ← updateFile e file (.inheritFile · on)
    pure .done
  | .describe dir => do
    let t ← visitTop e (visitDirectory e (some (Path.normalize dir ++ ": no ACL node\n".toList))
      (fun n => pure (Engine.describeNode 0 n)) (Path.segments dir))
    pure (.text t)
  | .clearCache => pure .done

end Fresh

section Matching

variable {e : Engine σ} {F : FileSystem.Contents e.shadow e.IsShadowFile}

theorem Matches.map {γ : Type} {f : α → β} {x : Action (Cache × (σ × Bool)) α}
    {y : Action (σ × Bool) β} (h : Matches F f x y) {g : α → γ} {g' : β → γ}
    (hg : ∀ a, g a = g' (f a)) :
    Matches F id (x >>= fun a => pure (g a)) (y >>= fun b => pure (g' b)) := by
  intro cache v hR hK r cache' v' hv
  rw [Action.bind_eq] at hv ⊢
  rcases hx : x (cache,v) with ⟨r₁,cache₁,v₁⟩
  obtain ⟨h₁,h₂⟩ := h cache v hR hK _ _ _ hx
  rw [hx] at hv
  rw [h₁]
  cases r₁ with
  | error err =>
    cases hv
    exact ⟨rfl,h₂⟩
  | ok a =>
    cases hv
    refine ⟨?_,h₂⟩
    show (Except.ok (g' (f a)),_) = (.ok (g a),_)
    rw [hg]

theorem Matches.throw {f : α → β} (err : Error) :
    Matches F f (throw err : Action (Cache × (σ × Bool)) α) (throw err) := by
  intro cache v hR hK r cache' v' hv
  cases hv
  exact ⟨rfl,fun _ => ⟨hR,hK⟩⟩

variable (hr : Path.IsNormal e.shadowRoot) (hsrc : ∀ d, (e.source d).Sorted)

include hr hsrc

theorem effective_matches (identity : Text) {path : Text} (hp : aclName ∉ Path.segments path) :
    Matches F id (e.noting.effective path identity)
      (Fresh.visitTop e.noting fun n => Fresh.resolve e.noting identity (Path.segments path) n []
        (n.lookup e.noting.groups [] identity)) := by
  refine visitTop_matches ?_
  intro n v hK hR r n' v' hv
  have hplain : Plain ([] ++ Path.segments path) := ⟨Path.areNames_segments path,hp⟩
  dsimp only
  rw [Node.lookup_bare]
  exact resolve_follows hr hsrc identity hplain [] (n.lookup e.noting.groups [] identity) n v hK hR
    r n' v' hv

theorem update_matches {c : Change} (hc : c.Orderly) {dir : Text}
    (hp : aclName ∉ Path.segments dir) :
    Matches F Node.bare (e.noting.update dir c) (Fresh.update e.noting dir c) := by
  have hplain : Plain ([] ++ Path.segments dir) := ⟨Path.areNames_segments dir,hp⟩
  exact visitTop_matches (visitDirectory_follows hr hsrc _ none hplain (change_follows hr hsrc hc))

theorem updateFile_matches {c : Text → Change} (hc : ∀ name, (c name).Orderly) {file : Text}
    (hp : aclName ∉ Path.segments file) :
    Matches F Node.bare (e.noting.updateFile file c) (Fresh.updateFile e.noting file c) := by
  rw [Engine.updateFile,Fresh.updateFile]
  cases hsplit : Engine.splitFile file with
  | error err => exact .throw err
  | ok r =>
    obtain ⟨dir,name⟩ := r
    refine update_matches hr hsrc (hc name) fun hm => hp ?_
    rw [Engine.segments_of_splitFile hsplit]
    exact List.mem_append_left _ hm

theorem describe_matches {dir : Text} (hp : aclName ∉ Path.segments dir) :
    Matches F id (e.noting.describe dir)
      (Fresh.visitTop e.noting (Fresh.visitDirectory e.noting
        (some (Path.normalize dir ++ ": no ACL node\n".toList))
        (fun n => pure (Engine.describeNode 0 n)) (Path.segments dir))) := by
  have hplain : Plain ([] ++ Path.segments dir) := ⟨Path.areNames_segments dir,hp⟩
  refine visitTop_matches (visitDirectory_follows (f := id) hr hsrc _ _ hplain ?_)
  intro n v hK hR r n' v' hv
  cases hv
  obtain ⟨hsound,-,-,-⟩ := hK.spec hsrc
  have hd : Engine.describeNode 0 n.bare = Engine.describeNode 0 n := by
    cases n with
    | mk _ _ _ _ _ _ isSpecial =>
      obtain rfl : isSpecial = false := hsound.regular
      rfl
  refine ⟨?_,fun _ => hK.settled hR⟩
  show (Except.ok (Engine.describeNode 0 n.bare),_) = _
  rw [hd]
  rfl

/-- Every proper call is answered beside a cache as it is without one. -/
theorem call_matches {call : Engine.Call} (hc : call.Proper) :
    Matches F id (call.run e.noting) (Fresh.answer e.noting call) := by
  obtain ⟨hp,hg⟩ := hc
  cases call with
  | effective path identity => exact (effective_matches hr hsrc identity hp).map fun _ => rfl
  | setPermissions dir key p =>
    exact (update_matches hr hsrc (c := .grant key p) trivial hp).map fun _ => rfl
  | setInherits dir on =>
    exact (update_matches hr hsrc (c := .inherit on) trivial hp).map fun _ => rfl
  | addPattern dir pattern permissions inherits =>
    exact (update_matches hr hsrc (c := .addPattern pattern permissions inherits)
      (hg _ _ _ _ rfl) hp).map fun _ => rfl
  | touchFile file =>
    have h : Matches F id (e.noting.touchFile file) (Fresh.touchFile e.noting file) :=
      (updateFile_matches hr hsrc (c := .touch) (fun _ => trivial) hp).map fun n => by
        rw [Node.files_bare]
    exact h.map fun _ => rfl
  | setFilePermissions file key p =>
    exact (updateFile_matches hr hsrc (c := (.grantFile · key p)) (fun _ => trivial) hp).map
      fun _ => rfl
  | setFileInherits file on =>
    exact (updateFile_matches hr hsrc (c := (.inheritFile · on)) (fun _ => trivial) hp).map
      fun _ => rfl
  | describe dir => exact (describe_matches hr hsrc hp).map fun _ => rfl
  | clearCache =>
    intro cache v hR hK r cache' v' hv
    cases hv
    exact ⟨rfl,fun _ => ⟨hR,by simp⟩⟩

omit hr hsrc in
/-- Nothing has been refused before if nothing has been refused in the end. -/
theorem unrefused_of_run {calls : List Engine.Call} {s : Cache × (σ × Bool)}
    (h : (e.noting.run calls s).2.2.2 = false) : s.2.2 = false := by
  cases hs : s.2.2 with
  | false => rfl
  | true =>
    have halike : Engine.Alike _ e.noting e.noting := ⟨e.shadow.noting_keeps,rfl,rfl,rfl⟩
    have hkeep := halike.run calls (s := s) (t := s) ⟨rfl,rfl,hs⟩
    exact absurd (h.symm.trans hkeep.2.2.2) Bool.false_ne_true

/-- After calls none of which was refused a change, all that is kept is as it is stored. -/
theorem run_keeps {calls : List Engine.Call} (hc : ∀ call ∈ calls, call.Proper)
    {s : Cache × (σ × Bool)} (hR : Ready F s.2) (hK : ∀ n, s.1 = some n → Kept F s.2 [] n)
    (hw : (e.noting.run calls s).2.2.2 = false) :
    Ready F (e.noting.run calls s).2.2 ∧
      ∀ n, (e.noting.run calls s).2.1 = some n → Kept F (e.noting.run calls s).2.2 [] n := by
  induction calls generalizing s with
  | nil => exact ⟨hR,hK⟩
  | cons call calls ih =>
    rw [Engine.run_cons] at hw ⊢
    obtain ⟨-,hset⟩ := call_matches (F := F) hr hsrc (hc call (by simp)) s.1 s.2 hR hK _ _ _ rfl
    obtain ⟨hR',hK'⟩ := hset (unrefused_of_run hw)
    exact ih (fun c hm => hc c (by simp [hm])) hR' hK' hw

/-- Calls are answered alike beside two caches that both keep what is stored. -/
theorem run_eq {calls : List Engine.Call} (hc : ∀ call ∈ calls, call.Proper)
    {cache : Cache} (cache' : Cache) {v : σ × Bool} (hR : Ready F v)
    (hK : ∀ n, cache = some n → Kept F v [] n) (hK' : ∀ n, cache' = some n → Kept F v [] n)
    (hw : (e.noting.run calls (cache,v)).2.2.2 = false) :
    (e.noting.run calls (cache',v)).1 = (e.noting.run calls (cache,v)).1 := by
  induction calls generalizing cache cache' v with
  | nil => rfl
  | cons call calls ih =>
    rw [Engine.run_cons] at hw ⊢
    rw [Engine.run_cons]
    have hcall := call_matches (F := F) hr hsrc (hc call (by simp))
    rcases hs : call.run e.noting (cache,v) with ⟨r,c₁,v₁⟩
    rcases hs' : call.run e.noting (cache',v) with ⟨r',c₁',v₁'⟩
    obtain ⟨hy,hset⟩ := hcall cache v hR hK _ _ _ hs
    obtain ⟨hy',hset'⟩ := hcall cache' v hR hK' _ _ _ hs'
    have hv : v₁ = v₁' := congrArg Prod.snd (hy.symm.trans hy')
    have hr : r.map id = r'.map id := congrArg Prod.fst (hy.symm.trans hy')
    subst hv
    obtain rfl : r = r' := by simpa using hr
    rw [hs] at hw
    have hb : v₁.2 = false := unrefused_of_run hw
    have hrest := ih (fun c hm => hc c (by simp [hm])) _ (hset hb).1 (hset hb).2 (hset' hb).2 hw
    simp only
    rw [hrest]

end Matching

/-- The shadow files of an engine can be read, and none of them is nested so deeply that it
could not be read again once it has been stored. -/
def Engine.Readable (e : Engine σ) (F : FileSystem.Contents e.shadow e.IsShadowFile) (w : σ) :
    Prop :=
  ∀ dir, Plain dir → ∀ bytes, F.seen w (e.shadowPath (ofSegments dir)) = some bytes →
    ∃ s n, Shadow.ofBytes bytes = .ok s ∧
      Node.ofShadow (ofSegments dir) dir.length (dir.getLastD []) s = .ok n ∧
      s.depth < Json.depthLimit

/-- Forgetting the cache at any point changes no later answer, as long as no change of the
shadow files is refused. -/
theorem clearCache_transparent {e : Engine σ} (F : FileSystem.Contents e.shadow e.IsShadowFile)
    (hroot : Path.IsNormal e.shadowRoot) (hsource : ∀ d, (e.source d).Sorted) {w : σ}
    (hfine : F.fine w) (hfiles : e.Readable F w) {before after : List Engine.Call}
    (hcalls : ∀ call ∈ before ++ after, call.Proper)
    (hwrites : (e.noting.run (before ++ after) (none,(w,false))).2.2.2 = false) :
    (e.run after (e.run (before ++ [.clearCache]) (none,w)).2).1 =
      (e.run after (e.run before (none,w)).2).1 := by
  have halike : Engine.Alike (fun w (v : σ × Bool) => v.1 = w) e e.noting :=
    ⟨e.shadow.alike_noting,rfl,rfl,rfl⟩
  have hready : Ready F (w,false) := by
    refine ⟨rfl,hfine,fun dir hp bytes hb => ?_⟩
    obtain ⟨s,n,hs,hn,hd⟩ := hfiles dir hp bytes hb
    exact ⟨n,⟨s,hs,hn⟩,.of_ofShadow hn (Shadow.wellFormed_of_ofBytes hs) hd⟩
  have hbefore := fun c hm => hcalls c (List.mem_append_left _ hm)
  have hafter := fun c hm => hcalls c (List.mem_append_right _ hm)
  rw [Engine.run_append] at hwrites
  obtain ⟨hR,hK⟩ := run_keeps hroot hsource hbefore (s := (none,(w,false))) hready (by simp)
    (unrefused_of_run hwrites)
  have heq := run_eq hroot hsource hafter none hR hK (by simp) hwrites
  obtain ⟨-,hstate⟩ := halike.run before (s := (none,w)) (t := (none,(w,false))) ⟨rfl,rfl⟩
  have hkept := (halike.run after hstate).1
  have hcleared : Beside (fun w (v : σ × Bool) => v.1 = w)
      (e.run (before ++ [.clearCache]) (none,w)).2
      (none,(e.noting.run before (none,(w,false))).2.2) := by
    rw [Engine.run_append]
    exact ⟨rfl,hstate.2⟩
  have hforgotten := (halike.run after hcleared).1
  rw [hforgotten,heq,hkept]

/-- An identity is granted something in a directory that is made for it. -/
def hallCalls : List Engine.Call :=
  [.setPermissions "/hall".toList "ann".toList (Permission.of .read)]

/-- Someone asks what the identity may do there. -/
def askCalls : List Engine.Call :=
  [.effective "/hall/box".toList "ann".toList,.describe "/hall".toList]

theorem clearCache_transparent_memory :
    Path.IsNormal memoryEngine.shadowRoot ∧ (∀ d, (memoryEngine.source d).Sorted) ∧
      (memoryContents memoryEngine isNormal_top).fine FileTree.empty ∧
      memoryEngine.Readable (memoryContents memoryEngine isNormal_top) FileTree.empty ∧
      (∀ call ∈ hallCalls ++ askCalls, call.Proper) ∧
      (memoryEngine.noting.run (hallCalls ++ askCalls) (none,(FileTree.empty,false))).2.2.2 =
        false ∧
      (memoryEngine.run askCalls
        (memoryEngine.run (hallCalls ++ [.clearCache]) (none,FileTree.empty)).2).1 =
      (memoryEngine.run askCalls (memoryEngine.run hallCalls (none,FileTree.empty)).2).1 := by
  have hnone : ∀ dir, Plain dir →
      FileTree.empty.at? (Memory.locate (memoryEngine.shadowPath (ofSegments dir))) = none := by
    intro dir hp
    rw [locate_shadowPath hp]
    simp [FileTree.empty,FileTree.at?,Table.get?]
  have hfine : (memoryContents memoryEngine isNormal_top).fine FileTree.empty := by
    rintro p ⟨dir,hp,rfl⟩
    rw [hnone dir hp]
    simp
  have hfiles : memoryEngine.Readable (memoryContents memoryEngine isNormal_top)
      FileTree.empty := by
    intro dir hp bytes hb
    simp [memoryContents,Memory.contents,hnone dir hp] at hb
  have hcalls : ∀ call ∈ hallCalls ++ askCalls, call.Proper := by
    intro call hc
    simp only [hallCalls,askCalls,List.mem_append,List.mem_cons,List.not_mem_nil,or_false] at hc
    rcases hc with rfl | rfl | rfl <;> exact ⟨by decide,fun _ _ _ _ h => by cases h⟩
  have hwrites : (memoryEngine.noting.run (hallCalls ++ askCalls)
      (none,(FileTree.empty,false))).2.2.2 = false := by decide +kernel
  exact ⟨isNormal_top,fun _ => Table.sorted_nil,hfine,hfiles,hcalls,hwrites,
    clearCache_transparent _ isNormal_top (fun _ => Table.sorted_nil) hfine hfiles hcalls
      hwrites⟩

/-! Rules at the limit: files that can be read, but not any more once they are stored, since
grants are written out even where there are none. -/

/-- The members of rules with patterns inside each other, and nothing else. -/
def thinMembers : Nat → List (Text × Json)
  | 0 => []
  | k + 1 =>
    [("regexEntries".toList,
      .array [.object (("pattern".toList,.string ['a']) :: thinMembers k)])]

/-- The rules that they stand for. -/
def nestedRules : Nat → Shadow
  | 0 => Shadow.empty
  | k + 1 => .node [] [] true [(['a'],nestedRules k)] []

open Json (Draft nesting nestingMembers nestingItems Storable StorableItems StorableMembers) in
theorem storable_thinMembers (k : Nat) : StorableMembers (thinMembers k) := by
  induction k with
  | zero => exact .nil
  | succ k ih =>
    exact .cons (.array (.cons (.object (.cons (.string _) ih)) .nil)) .nil

@[simp] theorem nesting_thinMembers (k : Nat) : Json.nestingMembers (thinMembers k) = 2 * k := by
  induction k with
  | zero => rfl
  | succ k ih =>
    simp only [thinMembers,Json.nestingMembers,Json.nesting,Json.nestingItems,ih]
    omega

theorem name_thinMembers (k : Nat) : ∀ m ∈ thinMembers k, m.1 ≠ "pattern".toList := by
  cases k with
  | zero => simp [thinMembers]
  | succ k =>
    intro m hm
    obtain rfl : m = _ := List.mem_singleton.1 hm
    show "regexEntries".toList ≠ "pattern".toList
    decide

theorem wellFormed_nestedRules (k : Nat) : (nestedRules k).WellFormed := by
  induction k with
  | zero => exact .node Table.sorted_nil Table.sorted_nil (by simp) (by simp) Table.sorted_nil (by simp)
  | succ k ih =>
    exact .node Table.sorted_nil Table.sorted_nil (by simp) (by simpa using ih)
      Table.sorted_nil (by simp)

theorem finds_nestedRules (k : Nat) {d : Json.Draft} (h : d.Says (.object (thinMembers k)))
    (source : Json.Source) (n : Nat) :
    Json.Draft.Finds (Shadow.read source n d) (Json.nesting (.object (thinMembers k)) < n)
      (nestedRules k) := by
  induction k generalizing d source n with
  | zero =>
    cases h with
    | @object ds _ span hs =>
      match n with
      | 0 | 1 => exact ⟨fun h => absurd h (by simp [Json.nesting]),fun _ => ⟨_,rfl⟩⟩
      | n + 2 =>
        rw [Shadow.read]
        refine Json.Draft.Finds.congr (Json.Fields.finds_record rfl
          (Json.Fields.finds_noMembers hs)) ?_
        simp [thinMembers,Json.nesting,Json.nestingMembers]
  | succ k ih =>
    cases h with
    | @object ds _ span hs =>
      match n with
      | 0 | 1 => exact ⟨fun h => absurd h (by simp [Json.nesting]),fun _ => ⟨_,rfl⟩⟩
      | n + 2 =>
        rw [Shadow.read]
        have hmember : Json.Draft.Finds ((Shadow.fields source (n + 1) (Shadow.read source n)
            (Shadow.read .buffer n)).ofMembers [] Shadow.empty ds)
            (Json.nestingMembers (thinMembers (k + 1)) < n + 1) (nestedRules (k + 1)) := by
          refine Json.Fields.finds_member (nestedRules (k + 1)) hs
            (.tail _ (.tail _ (.tail _ (.head _)))) (by simp) (fun d hd => ?_) fun ds hds => ?_
          · rw [Shadow.empty,(Shadow.read_field ..).2.2.2.1]
            let write (_ : Text × Shadow) : Json :=
              .object (("pattern".toList,.string ['a']) :: thinMembers k)
            have hlist : d.Says (.array ([((['a'] : Text),nestedRules k)].map write)) := hd
            refine Json.Draft.Finds.congr (Json.Draft.Finds.bind (Json.Draft.finds_list hlist
              fun _ p hp d hd => ?_) fun _ => Json.Draft.Finds.ok _) (Iff.of_eq (and_true _))
            obtain rfl := List.mem_singleton.1 hp
            exact Shadow.finds_readPattern hd (name_thinMembers k) fun d hd => ih hd .buffer _
          · exact Json.Draft.Finds.congr (Json.Fields.finds_noMembers hds)
              (by simp [Json.nestingMembers])
        refine Json.Draft.Finds.congr (Json.Fields.finds_record rfl hmember) ?_
        simp [thinMembers,Json.nesting]

/-- The bytes of a shadow file with patterns inside each other. -/
def thinBytes (k : Nat) : Bytes :=
  Text.encode (Json.object (thinMembers k)).pretty

theorem ofBytes_thinBytes {k : Nat} (h : 2 * k + 1 < Json.depthLimit) :
    Shadow.ofBytes (thinBytes k) = .ok (nestedRules k) := by
  refine (Shadow.finds_ofBytes .pretty (.object (storable_thinMembers k)) fun _ h =>
    finds_nestedRules k h .document _).1 ?_
  rw [Json.nesting,nesting_thinMembers]
  exact h

theorem le_depth_nestedRules (k : Nat) : 2 * (k + 1) + 2 ≤ (nestedRules (k + 1)).depth := by
  induction k with
  | zero => decide
  | succ k ih =>
    refine Nat.le_of_not_lt fun hlt => ?_
    rw [nestedRules,Shadow.depth_lt_iff (by omega)] at hlt
    have hinside := hlt.1 _ (List.mem_singleton_self _)
    simp only at hinside
    omega

theorem compilePattern_letter :
    ∃ p, Node.compilePattern ['a'] = .ok p ∧ Node.capture p "x".toList = none := by
  have h : ((Node.compilePattern ['a']).toOption.map (Node.capture · "x".toList)) =
      some none := by
    decide +kernel
  cases hp : Node.compilePattern ['a'] with
  | error err => simp [hp,Except.toOption] at h
  | ok p => exact ⟨p,rfl,by simpa [hp,Except.toOption] using h⟩

theorem build_nestedRules (k : Nat) (path : Text) (depth : Nat) (name : Text)
    (isSpecial : Bool) (pattern : Option Pattern) :
    ∃ n, Node.build path depth name isSpecial pattern (nestedRules k) = .ok n ∧
      n.permissions = [] ∧ n.files = [] ∧ n.inherits = true ∧
      n.match? "x".toList = none := by
  obtain ⟨p,hp,hmiss⟩ := compilePattern_letter
  induction k generalizing path depth name isSpecial pattern with
  | zero => exact ⟨_,rfl,rfl,rfl,rfl,rfl⟩
  | succ k ih =>
    obtain ⟨c,hc,-⟩ := ih (Path.child path ['a']) (depth + 1) ['a'] true (some p)
    obtain ⟨-,-,-,-,hcp,-⟩ := build_spec hc
    have hps : Node.buildPatterns path (depth + 1) [((['a'] : Text),nestedRules k)] = .ok [c] := by
      rw [Node.buildPatterns]
      exact bind_eq_ok.2 ⟨p,hp,bind_eq_ok.2 ⟨c,hc,bind_eq_ok.2 ⟨[],rfl,rfl⟩⟩⟩
    refine ⟨.mk path depth name [] [] true isSpecial pattern [c] [],?_,rfl,rfl,rfl,?_⟩
    · rw [nestedRules,Node.build,hps]
      rfl
    · show Node.firstMatch "x".toList [c] = none
      simp only [Node.firstMatch,hcp,Option.bind_some,hmiss,Option.map_none]

/-- A tree with one shadow file, that of the top. -/
def topTree (bytes : Bytes) : FileTree :=
  [([],.directory),([aclName],.file bytes)]

theorem load_top {bytes : Bytes} :
    memoryEngine.noting.load ['/'] 0 [] (topTree bytes,false) =
      (match Shadow.ofBytes bytes with
        | .error fault => (.error (.json fault),(topTree bytes,false))
        | .ok s =>
          match Node.ofShadow ['/'] 0 [] s with
          | .error err => (.error err,(topTree bytes,false))
          | .ok n => (.ok (some n),(topTree bytes,false))) := by
  show (match Shadow.ofBytes bytes with
    | .error fault => throw (.json fault)
    | .ok s =>
      match Node.ofShadow ['/'] 0 [] s with
      | .error err => throw err
      | .ok n => pure (some n) : Action (FileTree × Bool) (Option Node)) (topTree bytes,false) = _
  cases Shadow.ofBytes bytes with
  | error fault => rfl
  | ok s =>
    simp only
    cases Node.ofShadow ['/'] 0 [] s <;> rfl

theorem load_below (bytes : Bytes) :
    memoryEngine.noting.load "/x".toList 1 "x".toList (topTree bytes,false) =
      (.ok none,(topTree bytes,false)) :=
  rfl

theorem persist_top (bytes : Bytes) {n : Node} (hr : n.isSpecial = false) (hp : n.path = ['/']) :
    memoryEngine.noting.persist n (topTree bytes,false) =
      (.ok (),(topTree n.toShadow.toBytes,false)) := by
  rw [Engine.persist,hr,hp]
  rfl

theorem update_top {bytes : Bytes} {s : Shadow} {n : Node} (h : Shadow.ofBytes bytes = .ok s)
    (hn : Node.ofShadow ['/'] 0 [] s = .ok n) (hi : n.withInherits true = n) :
    (Engine.Call.setInherits ['/'] true).run memoryEngine.noting (none,(topTree bytes,false)) =
      (.ok .done,(some n,(topTree s.toBytes,false))) := by
  obtain ⟨hpath,-,-,hr,-,hs,-⟩ := build_spec hn
  have hvisit : (do
      let n ← Visit.node
      match (Change.inherit true).apply n with
      | .error err => throw err
      | .ok n' => do
        Visit.put n'
        Visit.outside (memoryEngine.noting.persist n')
        pure n : Visit (FileTree × Bool) Node) (n,(topTree bytes,false)) =
      (.ok n,(n,(topTree s.toBytes,false))) := by
    show (Visit.outside (memoryEngine.noting.persist (n.withInherits true)) >>= fun _ => pure n :
      Visit (FileTree × Bool) Node) (n.withInherits true,(topTree bytes,false)) = _
    rw [hi,Action.bind_eq,Visit.outside,persist_top bytes hr hpath,hs]
    rfl
  have hupdate : memoryEngine.noting.update ['/'] (.inherit true) (none,(topTree bytes,false)) =
      (.ok n,(some n,(topTree s.toBytes,false))) := by
    simp only [Engine.update,Engine.visitTop,load_top,h,hn]
    exact congrArg (fun x => (x.1,((some x.2.1 : Cache),x.2.2))) hvisit
  rw [Engine.Call.run,Action.bind_eq,hupdate]
  rfl

theorem effective_kept (bytes : Bytes) {n : Node} (hg : n.permissions = []) (hf : n.files = [])
    (hr : n.isSpecial = false) (hc : n.children = []) (hp : n.path = ['/']) (hd : n.depth = 0)
    (hm : n.match? "x".toList = none) :
    (Engine.Call.effective "/x".toList "bob".toList).run memoryEngine.noting
      (some n,(topTree bytes,false)) =
      (.ok (.permission Permission.empty),(some n,(topTree bytes,false))) := by
  have hchild : memoryEngine.noting.child? "x".toList (n,(topTree bytes,false)) =
      (.ok none,(n,(topTree bytes,false))) := by
    rw [child?_eq,hc,hr,hp,hd]
    simp only [Table.get?,Bool.false_eq_true,if_false]
    rw [show Path.child ['/'] "x".toList = "/x".toList from rfl,load_below]
  have hresolve : memoryEngine.noting.resolve "bob".toList ["x".toList] []
      (n.lookup memoryEngine.noting.groups [] "bob".toList) (n,(topTree bytes,false)) =
      (.ok Permission.empty,(n,(topTree bytes,false))) := by
    rw [resolve_cons,hchild]
    simp only [hm,hf,hg,Table.get?,Node.lookup]
    rfl
  have heff : memoryEngine.noting.effective "/x".toList "bob".toList
      (some n,(topTree bytes,false)) =
      (.ok Permission.empty,(some n,(topTree bytes,false))) :=
    congrArg (fun x : Except Error Permission × (Node × (FileTree × Bool)) =>
      (x.1,((some x.2.1 : Cache),x.2.2))) hresolve
  rw [Engine.Call.run,Action.bind_eq,heff]
  rfl

theorem effective_lost {bytes : Bytes} {fault : Json.Fault}
    (h : Shadow.ofBytes bytes = .error fault) :
    (Engine.Call.effective "/x".toList "bob".toList).run memoryEngine.noting
      (none,(topTree bytes,false)) =
      (.error (.json fault),(none,(topTree bytes,false))) := by
  have heff : memoryEngine.noting.effective "/x".toList "bob".toList
      (none,(topTree bytes,false)) =
      (.error (.json fault),(none,(topTree bytes,false))) := by
    simp only [Engine.effective,Engine.visitTop,load_top,h]
  rw [Engine.Call.run,Action.bind_eq,heff]

/-- Someone changes nothing at the top. -/
def topCalls : List Engine.Call :=
  [.setInherits ['/'] true]

/-- Someone asks for the permissions at a place without rules. -/
def strangerCalls : List Engine.Call :=
  [.effective "/x".toList "bob".toList]

/-- A tree with the shadow file of the top, in which nothing but readable files stands where
shadow files belong. -/
structure Fair (bytes : Bytes) : Prop where
  fine : (memoryContents memoryEngine isNormal_top).fine (topTree bytes)
  readable : ∀ dir, Plain dir → ∀ b, (memoryContents memoryEngine isNormal_top).seen
      (topTree bytes) (memoryEngine.shadowPath (ofSegments dir)) = some b →
    ∃ s n, Shadow.ofBytes b = .ok s ∧
      Node.ofShadow (ofSegments dir) dir.length (dir.getLastD []) s = .ok n

theorem fair_of {bytes : Bytes} {s : Shadow} {n : Node} (h : Shadow.ofBytes bytes = .ok s)
    (hn : Node.ofShadow ['/'] 0 [] s = .ok n) : Fair bytes := by
  have hfile : ∀ dir, Plain dir →
      (topTree bytes).at? (Memory.locate (memoryEngine.shadowPath (ofSegments dir))) =
        if dir = [] then some (.file bytes) else none := by
    intro dir hp
    rw [locate_shadowPath hp]
    simp [topTree,FileTree.at?,Table.get?]
  constructor
  · rintro p ⟨dir,hp,rfl⟩
    rw [hfile dir hp]
    split <;> simp
  · intro dir hp b hb
    simp only [memoryContents,Memory.contents,hfile dir hp] at hb
    by_cases hd : dir = []
    · subst hd
      obtain rfl : bytes = b := by simpa using hb
      exact ⟨s,n,h,hn⟩
    · simp [hd] at hb

theorem proper_deepCalls : ∀ call ∈ topCalls ++ strangerCalls, call.Proper := by
  intro call hc
  simp only [topCalls,strangerCalls,List.mem_append,List.mem_cons,List.not_mem_nil,or_false] at hc
  rcases hc with rfl | rfl <;> exact ⟨by decide,fun _ _ _ _ h => by cases h⟩

/-- Forgetting the cache is noticed once the file of the top cannot be read any more. -/
theorem visible_of_lost {bytes : Bytes} {s : Shadow} {n : Node} {fault : Json.Fault}
    (h : Shadow.ofBytes bytes = .ok s) (hn : Node.ofShadow ['/'] 0 [] s = .ok n)
    (hg : n.permissions = []) (hf : n.files = []) (hi : n.inherits = true)
    (hm : n.match? "x".toList = none) (hlost : Shadow.ofBytes s.toBytes = .error fault) :
    (memoryEngine.noting.run (topCalls ++ strangerCalls)
        (none,(topTree bytes,false))).2.2.2 = false ∧
      (memoryEngine.run strangerCalls (memoryEngine.run topCalls (none,topTree bytes)).2).1 =
        [.ok (.permission Permission.empty)] ∧
      (memoryEngine.run strangerCalls
        (memoryEngine.run (topCalls ++ [.clearCache]) (none,topTree bytes)).2).1 =
        [.error (.json fault)] := by
  obtain ⟨hpath,hdepth,-,hr,-,-,-,hbare,-⟩ := build_spec hn
  have hchildren : n.children = [] := by
    rw [← hbare rfl]
    cases n
    rfl
  have hsame : n.withInherits true = n := by
    cases n
    obtain rfl : _ = true := hi
    rfl
  have htop := update_top h hn hsame
  have hkept := effective_kept s.toBytes hg hf hr hchildren hpath hdepth hm
  have hforgotten := effective_lost hlost
  have halike : Engine.Alike (fun w (v : FileTree × Bool) => v.1 = w) memoryEngine
      memoryEngine.noting := ⟨memoryEngine.shadow.alike_noting,rfl,rfl,rfl⟩
  obtain ⟨-,hst⟩ := halike.run topCalls (s := (none,topTree bytes))
    (t := (none,(topTree bytes,false))) ⟨rfl,rfl⟩
  obtain ⟨-,hst'⟩ := halike.run (topCalls ++ [.clearCache])
    (s := (none,topTree bytes)) (t := (none,(topTree bytes,false))) ⟨rfl,rfl⟩
  have hafter : (memoryEngine.noting.run topCalls (none,(topTree bytes,false))).2 =
      (some n,(topTree s.toBytes,false)) := by
    rw [topCalls,Engine.run_cons,htop]
    rfl
  have hcleared : (memoryEngine.noting.run (topCalls ++ [.clearCache])
      (none,(topTree bytes,false))).2 = (none,(topTree s.toBytes,false)) := by
    rw [Engine.run_append,hafter]
    rfl
  refine ⟨?_,?_,?_⟩
  · rw [Engine.run_append,hafter,strangerCalls,Engine.run_cons,hkept]
    rfl
  · rw [(halike.run strangerCalls hst).1,hafter,strangerCalls,Engine.run_cons,hkept]
    rfl
  · rw [(halike.run strangerCalls hst').1,hcleared,strangerCalls,Engine.run_cons,hforgotten]
    rfl

/-- Without the bound on how deeply shadow files are nested, forgetting the cache can turn an
answer into an error: the file has been stored so that it cannot be read any more. -/
theorem clearCache_visible :
    Path.IsNormal memoryEngine.shadowRoot ∧ (∀ d, (memoryEngine.source d).Sorted) ∧
      Fair (thinBytes 63) ∧ (∀ call ∈ topCalls ++ strangerCalls, call.Proper) ∧
      (memoryEngine.noting.run (topCalls ++ strangerCalls)
        (none,(topTree (thinBytes 63),false))).2.2.2 = false ∧
      (memoryEngine.run strangerCalls
        (memoryEngine.run (topCalls ++ [.clearCache]) (none,topTree (thinBytes 63))).2).1 ≠
      (memoryEngine.run strangerCalls
        (memoryEngine.run topCalls (none,topTree (thinBytes 63))).2).1 := by
  obtain ⟨n,hn,hg,hf,hi,hm⟩ := build_nestedRules 63 ['/'] 0 [] false none
  have hread : Shadow.ofBytes (thinBytes 63) = .ok (nestedRules 63) :=
    ofBytes_thinBytes (by decide)
  obtain ⟨fault,hlost⟩ := Shadow.ofBytes_toBytes_error (wellFormed_nestedRules 63)
    (le_depth_nestedRules 62)
  obtain ⟨hwrites,hkept,hforgotten⟩ := visible_of_lost hread hn hg hf hi hm hlost
  refine ⟨isNormal_top,fun _ => Table.sorted_nil,fair_of hread hn,proper_deepCalls,hwrites,?_⟩
  rw [hkept,hforgotten]
  simp

end Realm.Acl
