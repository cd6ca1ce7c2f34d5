import Realm.Proofs.Acl.Refusal

/-! What it matters that the rules of a directory have been changed. The change concerns places
at or below the directory alone, it ends at the directories that take nothing over from above,
and a grant concerns only those for whom its key is meant. -/
namespace Realm.Acl

open Realm.Path (ofSegments AreNames)

variable {σ α : Type}

/-- Whether something is so of a node. -/
def Visit.test (test : Node → Bool) : Visit σ Bool := do
  let n ← Visit.node
  pure (test n)

/-- Whether the nodes of a directory and of those above it exist, kept or stored, and something
is so of its own. -/
def Engine.finds (e : Engine σ) (dir : Text) (test : Node → Bool) : Action (Cache × σ) Bool :=
  e.visitTop
    (e.visitDirectory (Path.normalize dir) (some false) (Visit.test test) (Path.segments dir))

/-- Some names lead from a node to another by way of nodes that exist. -/
def Engine.Leads (e : Engine σ) : List Text → Node × σ → Node × σ → Prop
  | [],s,s' => s' = s
  | name :: names,s,s' =>
    ∃ c n₁ w₁, e.child? name s = (.ok (some c),(n₁,w₁)) ∧ Leads e names (c,w₁) s'

section

variable {e : Engine σ} {L : e.Locality} {dir names : List Text} {name : Text} {n n' m : Node}
  {w w' w₁ : σ}

/-! The way to a node that exists. -/

theorem leads_of_test {d : Text} {test : Node → Bool} (hn : n.Placed dir)
    (hdir : AreNames (dir ++ names))
    (h : (e.visitDirectory d (some false) (Visit.test test) names (n,w)).1 = .ok true) :
    ∃ m w₁, e.Leads names (n,w) (m,w₁) ∧ test m = true := by
  induction names generalizing dir n w with
  | nil => exact ⟨n,w,rfl,Except.ok.inj h⟩
  | cons name names ih =>
    rw [List.append_cons] at hdir
    have hname := hdir.of_append.1
    rw [visitDirectory_cons,hn.regular] at h
    rcases hchild : e.child? name (n,w) with ⟨err | (_ | c),n₁,w₂⟩
    · rw [hchild] at h
      cases h
    · rw [hchild] at h
      cases h
    · rw [hchild] at h
      obtain ⟨-,hc,-⟩ := child?_found e.confined_any hn hname hchild
      obtain ⟨m,w₁,hway,htest⟩ := ih hc hdir h
      exact ⟨m,w₁,⟨c,n₁,w₂,hchild,hway⟩,htest⟩

theorem Engine.Leads.rest {rest : List Text} {s s₁ s₂ : Node × σ} (h : e.Leads names s s₁)
    (h' : e.Leads (names ++ rest) s s₂) : e.Leads rest s₁ s₂ := by
  induction names generalizing s with
  | nil =>
    obtain rfl : s₁ = s := h
    exact h'
  | cons name names ih =>
    obtain ⟨c,n₁,w₁,hchild,h⟩ := h
    obtain ⟨c',n₁',w₁',hchild',h'⟩ := h'
    rw [hchild] at hchild'
    cases hchild'
    exact ih h h'

theorem Engine.Leads.placed (hfine : L.agree [] w w) (hn : n.Placed dir)
    (hdir : AreNames (dir ++ names)) (h : e.Leads names (n,w) (m,w₁)) :
    m.Placed (dir ++ names) ∧ L.agree [] w₁ w₁ := by
  induction names generalizing dir n w with
  | nil =>
    cases h
    exact ⟨by simpa using hn,hfine⟩
  | cons name names ih =>
    rw [List.append_cons] at hdir ⊢
    obtain ⟨c,n₁,w₂,hchild,h⟩ := h
    obtain ⟨-,hc,hw⟩ := child?_found (Engine.confined L) hn hdir.of_append.1 hchild
    exact ih (hw hfine).fine hc hdir h

/-! A visit to a node that exists. -/

/-- Places that do not lie at or below the node look the same after a visit to it. -/
theorem ask_elsewhere (hfine : L.agree [] w w) (hn : n.Placed dir)
    (hdir : AreNames (dir ++ names)) (hlead : e.Leads names (n,w) (m,w₁)) {d : Text}
    {visit : Visit σ α} (hv : visit.Keeps L.Within (dir ++ names)) (identity : Text)
    {way : List Text} (hway : AreNames (dir ++ way)) (hout : ¬ names <+: way)
    (bindings : Bindings) (total : Permission) :
    (e.ask identity way bindings total (e.visitDirectory d none visit names (n,w)).2).1 =
      (e.ask identity way bindings total (n,w)).1 := by
  induction names generalizing dir n w way bindings total with
  | nil => exact absurd List.nil_prefix hout
  | cons name names ih =>
    have hb := Engine.confined L
    rw [List.append_cons] at hdir hv
    obtain ⟨c,n₁,w₂,hchild,hlead⟩ := hlead
    obtain ⟨hn₁,hc,hw⟩ := child?_found hb hn hdir.of_append.1 hchild
    obtain ⟨hc',hw'⟩ := visitDirectory_keeps hb d none hdir hv c w₂ hc
    have hafter := hn₁.withChild (e.visitDirectory d none visit names (c,w₂)).2.1
    rw [visitDirectory_child hn.regular hchild]
    by_cases hbeneath : ∃ rest, way = name :: rest
    · obtain ⟨rest,rfl⟩ := hbeneath
      have hrest : ¬ names <+: rest := fun hpre => hout (by simpa using hpre)
      have htotal := apply_of_bare hafter.bare e.groups bindings identity total
      rw [List.append_cons] at hway
      rw [ask_child hchild,Visit.child_eq,ask_child (child?_withChild ..),htotal]
      exact ih (hw hfine).fine hc hdir hlead hv hway hrest _ _
    · exact ask_beside hfine hn hafter (hn.withChild hn₁ hc') (hw.trans hw') identity hway
        (fun rest hcons => hbeneath ⟨rest,hcons⟩) bindings total

/-- What is asked of places at or below the node is asked of the node, before a visit to it and
afterwards. -/
theorem ask_beyond (hn : n.Placed dir) (hdir : AreNames (dir ++ names)) {s : Node × σ}
    (hlead : e.Leads names (n,w) s) (d : Text) (visit : Visit σ α) (identity : Text)
    (bindings : Bindings) (total : Permission) :
    ∃ total', ∀ rest,
      (e.ask identity (names ++ rest) bindings total (n,w)).1 =
        (e.ask identity rest bindings total' s).1 ∧
      (e.ask identity (names ++ rest) bindings total
        (e.visitDirectory d none visit names (n,w)).2).1 =
          (e.ask identity rest bindings total' (visit s).2).1 := by
  induction names generalizing dir n w total with
  | nil =>
    obtain rfl : s = (n,w) := hlead
    exact ⟨total,fun rest => ⟨rfl,rfl⟩⟩
  | cons name names ih =>
    rw [List.append_cons] at hdir
    obtain ⟨c,n₁,w₂,hchild,hlead⟩ := hlead
    obtain ⟨hn₁,hc,-⟩ := child?_found e.confined_any hn hdir.of_append.1 hchild
    have hafter := hn₁.withChild (e.visitDirectory d none visit names (c,w₂)).2.1
    have htotal := apply_of_bare hafter.bare e.groups bindings identity total
    obtain ⟨total',h⟩ := ih hc hdir hlead (n.apply e.groups bindings identity total)
    refine ⟨total',fun rest => ?_⟩
    rw [visitDirectory_child hn.regular hchild,List.cons_append,ask_child hchild,Visit.child_eq,
      ask_child (child?_withChild ..),htotal]
    exact h rest

theorem visitDirectory_leads (hn : n.Placed dir) (hdir : AreNames (dir ++ names)) {s : Node × σ}
    (hlead : e.Leads names (n,w) s) (d : Text) (visit : Visit σ α) :
    (e.visitDirectory d none visit names (n,w)).1 = (visit s).1 := by
  induction names generalizing dir n w with
  | nil =>
    obtain rfl : s = (n,w) := hlead
    rfl
  | cons name names ih =>
    rw [List.append_cons] at hdir
    obtain ⟨c,n₁,w₂,hchild,hlead⟩ := hlead
    obtain ⟨-,hc,-⟩ := child?_found e.confined_any hn hdir.of_append.1 hchild
    rw [visitDirectory_child hn.regular hchild]
    exact ih hc hdir hlead

/-! The change itself. -/

theorem changing_ok {c : Change} {a : Node} (h : (e.changing c (m,w)).1 = .ok a) :
    ∃ m' w', c.apply m = .ok m' ∧ e.persist m' w = (.ok (),w') ∧
      (e.changing c (m,w)).2 = (m',w') := by
  rw [changing_eq] at h ⊢
  cases hc : c.apply m with
  | error err =>
    rw [hc] at h
    cases h
  | ok m' =>
    simp only [hc] at h ⊢
    rcases hp : e.persist m' w with ⟨err | _,w'⟩
    · rw [hp] at h
      cases h
    · exact ⟨m',w',rfl,hp,rfl⟩

theorem persist_layered (hL : L.Layered aclName) (hfine : L.agree [] w w) (hn : n.Placed dir)
    (hdir : AreNames dir) {r : Except Error Unit} (h : e.persist n w = (r,w'))
    (hne : name ≠ aclName) : L.agree (dir ++ [name]) w' w := by
  have hbehind : ¬ dir ++ [aclName] <+: dir ++ [name] := by
    rw [List.prefix_append_right_inj,List.cons_prefix_cons]
    exact fun hpre => hne hpre.1.symm
  have hstore := hL (c := n.toShadow.toBytes) hdir hbehind (not_concat_isPrefix dir name)
    (L.below (dir ++ [name]) hfine)
  rw [persist_eq e hn.regular,hn.path] at h
  rwa [h] at hstore

/-- A child that exists is found in the same way from nodes that keep the same. -/
theorem child?_agree (hname : AreNames (dir ++ [name])) (hn : n.Placed dir) (hn' : n'.Placed dir)
    (hdepth : n'.depth = n.depth)
    (hget : Table.get? name n'.children = Table.get? name n.children)
    (hagree : L.agree (dir ++ [name]) w' w) {c n₁ : Node}
    (h : e.child? name (n,w) = (.ok (some c),(n₁,w₁))) :
    ∃ n₁' w₁', e.child? name (n',w') = (.ok (some c),(n₁',w₁')) ∧
      L.agree (dir ++ [name]) w₁' w₁ := by
  rw [child?_eq] at h ⊢
  rw [hget]
  cases hc : Table.get? name n.children with
  | some c' =>
    rw [hc] at h
    cases h
    exact ⟨n',w',rfl,hagree⟩
  | none =>
    simp only [hc,hn.regular,Bool.false_eq_true,if_false,hn.child_eq hname.of_append.1] at h
    simp only [hn'.regular,Bool.false_eq_true,if_false,hdepth,hn'.child_eq hname.of_append.1]
    obtain ⟨hresult,hstate⟩ := load_agree (n.depth + 1) name hname (L.symm hagree)
    rcases hl : e.load (ofSegments (dir ++ [name])) (n.depth + 1) name w with ⟨err | (_ | c'),w₂⟩
    · rw [hl] at h
      cases h
    · rw [hl] at h
      cases h
    · rcases hl' : e.load (ofSegments (dir ++ [name])) (n.depth + 1) name w' with ⟨r,w₂'⟩
      rw [hl] at h
      rw [hl,hl'] at hresult hstate
      obtain rfl : .ok (some c') = r := hresult
      cases h
      exact ⟨_,_,rfl,L.symm hstate⟩

/-- What is granted above a directory that takes nothing over does not matter there. -/
theorem ask_severed {k : Node} {w₂ : σ} {rest : List Text} (hn : n.Placed dir)
    (hdir : AreNames (dir ++ names ++ rest)) (hlead : e.Leads names (n,w) (k,w₂))
    (hsevered : k.inherits = false) (hagree : L.agree dir w' w) (identity : Text)
    (bindings : Bindings) (total total' : Permission) :
    (e.ask identity (names ++ rest) bindings total' (n,w')).1 =
      (e.ask identity (names ++ rest) bindings total (n,w)).1 := by
  induction names generalizing dir n w w' total total' with
  | nil =>
    cases hlead
    have htotal : k.apply e.groups bindings identity total' =
        k.apply e.groups bindings identity total := by
      simp only [Node.apply,hsevered,layer,Bool.false_eq_true,if_false]
    rw [Engine.ask,Engine.ask,htotal]
    exact resolve_agree identity (by simpa using hdir) hn hn rfl rfl rfl
      (fun name _ _ => ⟨rfl,L.below [name] hagree⟩) bindings _
  | cons name names ih =>
    rw [List.append_cons] at hdir
    have hname := hdir.of_append.1.of_append.1
    obtain ⟨c,n₁,w₁,hchild,hlead⟩ := hlead
    obtain ⟨-,hc,-⟩ := child?_found e.confined_any hn hname hchild
    obtain ⟨n₁',w₁',hchild',hagree'⟩ :=
      child?_agree hname hn hn rfl rfl (L.below [name] hagree) hchild
    rw [List.cons_append,ask_child hchild,ask_child hchild']
    exact ih hc hdir hlead hagree' _ _

/-- A change of the rules of a directory does not get past the directories below that take
nothing over from it. -/
theorem changed_severed (hL : L.Layered aclName) (hfine : L.agree [] w w) (hm : m.Placed dir)
    {c : Change} {m' k : Node} {w₂ : σ} {rest : List Text} (hc : c.apply m = .ok m')
    (hpersist : e.persist m' w = (.ok (),w')) (hdir : AreNames (dir ++ name :: names ++ rest))
    (hne : name ≠ aclName) (hlead : e.Leads (name :: names) (m,w) (k,w₂))
    (hsevered : k.inherits = false) (identity : Text) (bindings : Bindings)
    (total : Permission) :
    (e.ask identity (name :: names ++ rest) bindings total (m',w')).1 =
      (e.ask identity (name :: names ++ rest) bindings total (m,w)).1 := by
  obtain ⟨hm',hchildren,hdepth⟩ := hm.change hc
  rw [List.append_cons] at hdir
  have hname := hdir.of_append.1.of_append.1
  have hagree := persist_layered hL hfine hm' hname.of_append.1 hpersist hne
  obtain ⟨c,n₁,w₁,hchild,hlead⟩ := hlead
  obtain ⟨-,hc,-⟩ := child?_found e.confined_any hm hname hchild
  obtain ⟨n₁',w₁',hchild',hagree'⟩ :=
    child?_agree hname hm hm' hdepth (by rw [hchildren]) hagree hchild
  rw [List.cons_append,ask_child hchild,ask_child hchild']
  exact ask_severed hc hdir hlead hsevered hagree' identity bindings _ _

/-! Grants. -/

/-- What is granted by a key does not show to those for whom the key is not meant. -/
theorem granted_grant {groups : Groups} {bindings : Bindings} {identity key : Text}
    (h : keyApplies groups bindings identity key = false) (p : Permission) (g : Grants) :
    granted groups bindings identity (g.grant key p) = granted groups bindings identity g := by
  rw [granted,granted,Grants.grant]
  split
  · rw [Table.filter_erase fun _ => h]
  · rw [Table.filter_insert fun _ => h]

theorem changed_granted (hL : L.Layered aclName) (hfine : L.agree [] w w) (hm : m.Placed dir)
    {key : Text} {p : Permission} {m' : Node} (hc : (Change.grant key p).apply m = .ok m')
    (hpersist : e.persist m' w = (.ok (),w')) {rest : List Text} (hdir : AreNames (dir ++ rest))
    (hacl : aclName ∉ rest) {identity : Text} {bindings : Bindings}
    (hkey : keyApplies e.groups bindings identity key = false) (total : Permission) :
    (e.ask identity rest bindings total (m',w')).1 =
      (e.ask identity rest bindings total (m,w)).1 := by
  obtain ⟨hm',hchildren,hdepth⟩ := hm.change hc
  have hfirst : ∀ name rest', rest = name :: rest' →
      Table.get? name m'.children = Table.get? name m.children ∧
        L.agree (dir ++ [name]) w' w := by
    rintro name rest' rfl
    have hne : name ≠ aclName := fun he => hacl (by simp [he])
    exact ⟨by rw [hchildren],persist_layered hL hfine hm' hdir.of_append.1 hpersist hne⟩
  obtain rfl : m.withPermissions (Grants.grant key p m.permissions) = m' := Except.ok.inj hc
  rw [Engine.ask,Engine.ask,Node.apply_withPermissions,granted_grant hkey,Node.apply,Node.lookup]
  exact resolve_agree identity hdir hm hm' hdepth (Node.files_withPermissions ..)
    (Node.patterns_withPermissions ..) hfirst bindings _

/-! From the top. -/

/-- Between two states of an engine the rules of a directory whose node exists have been changed.
Until then the shadow files were in state `w`, and then the changed node has been stored. -/
structure Engine.Changed (e : Engine σ) (L : e.Locality) (d : Text) (c : Change)
    (s s' : Cache × σ) (m m' : Node) (w w' : σ) : Prop where
  placed : m.Placed (Path.segments d)
  fine : L.agree [] w w
  apply : c.apply m = .ok m'
  persist : e.persist m' w = (.ok (),w')
  /-- Nothing is told anew of places that do not lie at or below the directory. -/
  elsewhere : ∀ path identity, ¬ Path.segments d <+: Path.segments path →
    (e.effective path identity s').1 = (e.effective path identity s).1
  /-- Of a place that does, the node of the directory is asked. -/
  beyond : ∀ path identity rest, Path.segments path = Path.segments d ++ rest →
    (∀ total, (e.ask identity rest [] total (m',w')).1 = (e.ask identity rest [] total (m,w)).1) →
    (e.effective path identity s').1 = (e.effective path identity s).1
  /-- The nodes that could be found below it can be found from its own. -/
  leads : ∀ sub rest test, Path.segments sub = Path.segments d ++ rest →
    (e.finds sub test s).1 = .ok true → ∃ k w₁, e.Leads rest (m,w) (k,w₁) ∧ test k = true

theorem update_changed (L : e.Locality) {s : Cache × σ} (hs : s.1.Placed)
    (hfine : L.agree [] s.2 s.2) {d : Text} {c : Change}
    (hfound : (e.finds d (fun _ => true) s).1 = .ok true) {a : Node}
    (hok : (e.update d c s).1 = .ok a) :
    ∃ m m' w w', e.Changed L d c s (e.update d c s).2 m m' w w' := by
  have hnames : AreNames ([] ++ Path.segments d) := Path.areNames_segments d
  rcases visitTop_begins e hs with ⟨n,w,hn,hw,htop⟩ | ⟨err,w,-,htop⟩
  · have hagree := begins_agree hfine hw
    have hfine := L.trans hagree (L.symm hagree)
    rw [Engine.finds,htop] at hfound
    obtain ⟨m,w₁,hlead,-⟩ := leads_of_test hn hnames hfound
    obtain ⟨hm,hfine₁⟩ := hlead.placed hfine hn hnames
    rw [update_eq,htop,visitDirectory_leads hn hnames hlead] at hok
    obtain ⟨m',w',hc,hpersist,hchanged⟩ := changing_ok hok
    have heffective : ∀ path identity,
        (e.ask identity (Path.segments path) [] Permission.empty
          (e.visitDirectory (Path.normalize d) none (e.changing c) (Path.segments d) (n,w)).2).1 =
            (e.ask identity (Path.segments path) [] Permission.empty (n,w)).1 →
        (e.effective path identity (e.update d c s).2).1 = (e.effective path identity s).1 := by
      intro path identity h
      rw [effective_eq,update_eq,htop,htop (e.ask identity _ [] Permission.empty)]
      exact h
    refine ⟨m,m',w₁,w',hm,hfine₁,hc,hpersist,fun path identity hout => ?_,
      fun path identity rest hpath h => ?_,fun sub rest test hsub htest => ?_⟩
    · exact heffective path identity (ask_elsewhere hfine hn hnames hlead
        (changing_keeps (Engine.confined L) hnames c) identity (Path.areNames_segments path)
        hout [] Permission.empty)
    · obtain ⟨total,hask⟩ := ask_beyond hn hnames hlead (Path.normalize d) (e.changing c)
        identity [] Permission.empty
      obtain ⟨hbefore,hafter⟩ := hask rest
      refine heffective path identity ?_
      rw [hpath,hbefore,hafter,hchanged]
      exact h total
    · have hnames' : AreNames ([] ++ Path.segments sub) := Path.areNames_segments sub
      rw [Engine.finds,htop] at htest
      obtain ⟨k,w₂,hlead',hk⟩ := leads_of_test hn hnames' htest
      rw [hsub] at hlead'
      exact ⟨k,w₂,hlead.rest hlead',hk⟩
  · rw [update_eq,htop] at hok
    cases hok

namespace Engine.Changed

variable {d : Text} {c : Change} {s s' : Cache × σ} {m' : Node}

theorem severed (hL : L.Layered aclName) (h : e.Changed L d c s s' m m' w w') {sub : Text}
    (hbelow : Path.segments d <+: Path.segments sub)
    (hne : Path.segments sub ≠ Path.segments d)
    (hsevered : (e.finds sub (fun n => !n.inherits) s).1 = .ok true) {path : Text}
    (identity : Text) (hpath : Path.segments sub <+: Path.segments path)
    (hacl : aclName ∉ Path.segments path) :
    (e.effective path identity s').1 = (e.effective path identity s).1 := by
  have hnames := Path.areNames_segments path
  obtain ⟨way,hsub⟩ := hbelow
  obtain ⟨rest,hrest⟩ := hpath
  obtain ⟨k,w₂,hlead,hk⟩ := h.leads sub way _ hsub.symm hsevered
  cases way with
  | nil => exact absurd (by simpa using hsub.symm) hne
  | cons name names =>
    rw [← hrest,← hsub] at hnames hacl
    refine h.beyond path identity (name :: names ++ rest) (by rw [← hrest,← hsub]; simp)
      fun total => changed_severed hL h.fine h.placed h.apply h.persist hnames ?_ hlead
        (by simpa using hk) identity [] total
    exact fun he => hacl (by simp [he])

theorem granted (hL : L.Layered aclName) {key : Text} {p : Permission}
    (h : e.Changed L d (.grant key p) s s' m m' w w') {path identity : Text}
    (hkey : keyApplies e.groups [] identity key = false) (hacl : aclName ∉ Path.segments path) :
    (e.effective path identity s').1 = (e.effective path identity s).1 := by
  by_cases hpre : Path.segments d <+: Path.segments path
  · have hnames := Path.areNames_segments path
    obtain ⟨rest,hrest⟩ := hpre
    rw [← hrest] at hnames hacl
    refine h.beyond path identity rest hrest.symm fun total =>
      changed_granted hL h.fine h.placed h.apply h.persist hnames ?_ hkey total
    exact fun hmem => hacl (List.mem_append_right _ hmem)
  · exact h.elsewhere path identity hpre

end Engine.Changed

/-- When the rules of a directory or of a file in it have been changed, and the nodes of the
directory and of those above it were there before, questions are answered as they would have
been without the change about all places that do not lie at or below the directory; about those
at or below a directory further down that takes nothing over from above, the nodes on the way to
which were there as well; and, if a key has been granted something, to all for whom the key is
not meant. No pattern lies on the way to the directory, so that no name is bound there. -/
theorem change_framed (L : e.Locality) (hL : L.Layered aclName) {w : σ} (hfine : L.agree [] w w)
    (before : List Engine.Call) {call : Engine.Call} {dir : Text} {c : Change}
    (hcall : call.change? = some (.ok (dir,c)))
    (hfound : (e.finds dir (fun _ => true) (e.run before (none,w)).2).1 = .ok true)
    {a : Engine.Answer} (hok : (call.run e (e.run before (none,w)).2).1 = .ok a)
    (path identity : Text) :
    let s := (e.run before (none,w)).2
    let s' := (call.run e s).2
    (¬ Path.segments dir <+: Path.segments path →
      (e.effective path identity s').1 = (e.effective path identity s).1) ∧
    (aclName ∉ Path.segments path → ∀ sub, Path.segments dir <+: Path.segments sub →
      Path.segments sub ≠ Path.segments dir → Path.segments sub <+: Path.segments path →
      (e.finds sub (fun n => !n.inherits) s).1 = .ok true →
      (e.effective path identity s').1 = (e.effective path identity s).1) ∧
    (aclName ∉ Path.segments path → ∀ key p, c = .grant key p →
      keyApplies e.groups [] identity key = false →
      (e.effective path identity s').1 = (e.effective path identity s).1) := by
  intro s s'
  obtain ⟨hs,hw⟩ := run_placed (Engine.confined L) before (none,w) (by simp [Cache.Placed])
  obtain ⟨f,hrun⟩ := call.run_change hcall e s
  have hstate : s' = (e.update dir c s).2 := congrArg Prod.snd hrun
  obtain ⟨b,hb⟩ : ∃ b, (e.update dir c s).1 = .ok b := by
    have h : (e.update dir c s).1.map f = .ok a := (congrArg Prod.fst hrun).symm.trans hok
    cases hu : (e.update dir c s).1 with
    | error err => simp [hu,Except.map] at h
    | ok b => exact ⟨b,rfl⟩
  obtain ⟨m,m',w₁,w',h⟩ := update_changed L hs (hw hfine).fine hfound hb
  rw [hstate]
  refine ⟨h.elsewhere path identity,fun hacl sub hbelow hne hpath hsevered => ?_,?_⟩
  · exact h.severed hL hbelow hne hsevered identity hpath hacl
  · rintro hacl key p rfl hkey
    exact h.granted hL hkey hacl

end

/-- A hall with a vault, in which nothing counts that has been granted for the hall. -/
def furnish : List Engine.Call :=
  [.setPermissions "/hall".toList "ann".toList (Permission.of .read),
    .setInherits "/hall/vault".toList false]

def admitBob : Engine.Call :=
  .setPermissions "/hall".toList "bob".toList (Permission.of .read)

/-- Nothing changes for bob outside the hall and in the vault, nor for ann anywhere. -/
theorem change_framed_memory :
    let L := memoryLocality memoryEngine isNormal_top
    let s := (memoryEngine.run furnish (none,FileTree.empty)).2
    let s' := (admitBob.run memoryEngine s).2
    L.Layered aclName ∧ L.agree [] FileTree.empty FileTree.empty ∧
      admitBob.change? =
        some (.ok ("/hall".toList,.grant "bob".toList (Permission.of .read))) ∧
      (memoryEngine.finds "/hall".toList (fun _ => true) s).1 = .ok true ∧
      (admitBob.run memoryEngine s).1 = .ok .done ∧
      (memoryEngine.finds "/hall/vault".toList (fun n => !n.inherits) s).1 = .ok true ∧
      (memoryEngine.effective "/garden".toList "bob".toList s').1 =
        (memoryEngine.effective "/garden".toList "bob".toList s).1 ∧
      (memoryEngine.effective "/hall/vault/box".toList "bob".toList s').1 =
        (memoryEngine.effective "/hall/vault/box".toList "bob".toList s).1 ∧
      (memoryEngine.effective "/hall/door".toList "ann".toList s').1 =
        (memoryEngine.effective "/hall/door".toList "ann".toList s).1 := by
  intro L s s'
  have hL : L.Layered aclName := memoryLocality_layered memoryEngine isNormal_top
  have hfine : L.agree [] FileTree.empty FileTree.empty := .refl _ _ _ _
  have hcall : admitBob.change? =
      some (.ok ("/hall".toList,.grant "bob".toList (Permission.of .read))) := rfl
  have hfound : (memoryEngine.finds "/hall".toList (fun _ => true) s).1 = .ok true := by
    decide +kernel
  have hok : (admitBob.run memoryEngine s).1 = .ok .done := by decide +kernel
  have hsevered : (memoryEngine.finds "/hall/vault".toList (fun n => !n.inherits) s).1 =
      .ok true := by
    decide +kernel
  have hframe := change_framed L hL hfine furnish hcall hfound hok
  refine ⟨hL,hfine,hcall,hfound,hok,hsevered,?_,?_,?_⟩
  · exact (hframe "/garden".toList "bob".toList).1 (by decide +kernel)
  · exact (hframe "/hall/vault/box".toList "bob".toList).2.1 (by decide +kernel)
      "/hall/vault".toList (by decide +kernel) (by decide +kernel) (by decide +kernel) hsevered
  · exact (hframe "/hall/door".toList "ann".toList).2.2 (by decide +kernel) "bob".toList
      (Permission.of .read) rfl (by decide +kernel)

/-- In the hall itself bob may read from then on. -/
example :
    let s := (memoryEngine.run furnish (none,FileTree.empty)).2
    (memoryEngine.effective "/hall/door".toList "bob".toList s).1 = .ok Permission.empty ∧
      (memoryEngine.effective "/hall/door".toList "bob".toList (admitBob.run memoryEngine s).2).1 =
        .ok (Permission.of .read) := by
  decide +kernel

end Realm.Acl
