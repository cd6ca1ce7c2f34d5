import Realm.Command.Parser

/-! Linking neither loses commands nor looks into them: a list that is not empty gives a tree,
which holds the commands of the list and begins with the first. -/
namespace Realm.CommandTree

theorem splitAfter_cons {α : Type} (ends : α → Bool) (a : α) (as : List α) :
    ∃ group groups, splitAfter ends (a :: as) = (a :: group) :: groups := by
  simp only [splitAfter]
  split
  · exact ⟨_,_,rfl⟩
  · split
    · exact ⟨_,_,rfl⟩
    · exact ⟨_,_,rfl⟩

theorem ne_nil_of_mem_splitAfter {α : Type} {ends : α → Bool} {as group : List α}
    (h : group ∈ splitAfter ends as) : group ≠ [] := by
  induction as generalizing group with
  | nil => simp [splitAfter] at h
  | cons a as ih =>
    simp only [splitAfter] at h
    split at h
    · rcases List.mem_cons.1 h with rfl | h
      · simp
      · exact ih h
    · split at h
      · simp_all
      · next groups hs =>
        rcases List.mem_cons.1 h with rfl | h
        · simp
        · exact ih (hs ▸ List.mem_cons_of_mem _ h)

theorem splitAfter_ne_nil {α : Type} {ends : α → Bool} {as : List α} (h : as ≠ []) :
    splitAfter ends as ≠ [] := by
  intro hn
  have hflatten := flatten_splitAfter ends as
  rw [hn] at hflatten
  exact h hflatten.symm

theorem splitAfter_map {α β : Type} (f : α → β) (ends : β → Bool) (as : List α) :
    splitAfter ends (as.map f) = (splitAfter (fun a => ends (f a)) as).map (List.map f) := by
  induction as with
  | nil => rfl
  | cons a as ih =>
    simp only [List.map_cons,splitAfter,ih]
    split
    · rfl
    · cases splitAfter (fun a => ends (f a)) as <;> rfl

mutual

/-- The tree and all trees in it, in the order of their commands. -/
def parts : CommandTree → List CommandTree
  | .node c o p conditions alternate successor =>
    .node c o p conditions alternate successor ::
      partsAll conditions ++ partsOpt alternate ++ partsOpt successor

def partsAll : List CommandTree → List CommandTree
  | [] => []
  | t :: ts => parts t ++ partsAll ts

def partsOpt : Option CommandTree → List CommandTree
  | none => []
  | some t => parts t

end

/-- The first command of a tree, with the operator behind it. -/
def top (t : CommandTree) : Link :=
  (t.command,t.operator)

mutual

theorem walk_eq (t : CommandTree) : t.walk = t.parts.map command := by
  cases t with
  | node c o p conditions alternate successor =>
    rw [walk,parts,walkAll_eq,walkOpt_eq alternate,walkOpt_eq successor]
    simp only [List.map_cons,List.map_append,List.cons_append]
    rfl

theorem walkAll_eq (ts : List CommandTree) : walkAll ts = (partsAll ts).map command := by
  cases ts with
  | nil => rfl
  | cons t ts => rw [walkAll,partsAll,List.map_append,walk_eq t,walkAll_eq ts]

theorem walkOpt_eq (t : Option CommandTree) : walkOpt t = (partsOpt t).map command := by
  cases t with
  | none => rfl
  | some t => exact walk_eq t

end

section Parts

/-- The command of a stage, with the operator behind it. -/
def Stage.link (s : Stage) : Link :=
  (s.command,s.operator)

@[simp] theorem Stage.link_ofLink (l : Link) : (ofLink l).link = l := rfl

@[simp] theorem map_link_ofLink (links : List Link) :
    (links.map .ofLink).map Stage.link = links := by
  simp [Function.comp_def]

theorem ofPipeline_cons (s : Stage) (stages : List Stage) (successor : Option CommandTree) :
    ∃ flows next, ofPipeline (s :: stages) successor =
        some (.node s.command s.operator flows [] none next) ∧
      (partsOpt next).map top = stages.map Stage.link ++ (partsOpt successor).map top := by
  induction stages generalizing s with
  | nil => exact ⟨none,successor,rfl,rfl⟩
  | cons second stages ih =>
    obtain ⟨flows,next,hnext,hparts⟩ := ih second
    refine ⟨s.pipeTarget,_,by rw [ofPipeline,hnext]; exact nofun,?_⟩
    simpa [partsOpt,parts,partsAll] using ⟨rfl,hparts⟩

theorem partsAll_conditions (conditions : List (List Stage)) :
    (partsAll (conditions.filterMap (ofPipeline · none))).map top =
      conditions.flatten.map Stage.link := by
  induction conditions with
  | nil => rfl
  | cons c conditions ih =>
    cases c with
    | nil => exact ih
    | cons s stages =>
      obtain ⟨flows,next,hs,hparts⟩ := ofPipeline_cons s stages none
      rw [partsOpt,List.map_nil,List.append_nil] at hparts
      simp [hs,partsAll,parts,partsOpt,hparts,ih]
      rfl

theorem partsOpt_ofPipelines {pipelines : List (List Stage)} (hne : pipelines ≠ [])
    (h : ∀ p ∈ pipelines, p ≠ []) (alternate successor : Option CommandTree) :
    ((partsOpt (ofPipelines pipelines alternate successor)).map top).Perm
      (pipelines.flatten.map Stage.link ++ (partsOpt alternate).map top ++
        (partsOpt successor).map top) := by
  match pipelines, hne, h with
  | [] :: _, _, h => exact absurd rfl (h [] (.head _))
  | (first :: stages) :: conditions, _, _ =>
    obtain ⟨flows,next,hfirst,hparts⟩ := ofPipeline_cons first stages successor
    rw [ofPipelines,hfirst,Option.map_some,anchor,partsOpt,parts]
    simp only [List.map_cons,List.map_append,partsAll_conditions,hparts,
      List.flatten_cons,List.cons_append,List.append_assoc]
    refine List.Perm.cons _ ?_
    -- The stages move in front of the conditions and the alternate.
    have hmove : (conditions.flatten.map Stage.link ++ (partsOpt alternate).map top ++
        stages.map Stage.link).Perm
        (stages.map Stage.link ++
          (conditions.flatten.map Stage.link ++ (partsOpt alternate).map top)) :=
      List.perm_append_comm
    simpa only [List.append_assoc] using hmove.append_right ((partsOpt successor).map top)

theorem partsOpt_ofAlternatives {segments : List (List Stage)} (h : ∀ s ∈ segments, s ≠ [])
    {successor : Option CommandTree} (hs : segments ≠ [] ∨ successor = none) :
    ((partsOpt (ofAlternatives segments successor)).map top).Perm
      (segments.flatten.map Stage.link ++ (partsOpt successor).map top) := by
  induction segments generalizing successor with
  | nil =>
    rcases hs with hs | rfl
    · exact absurd rfl hs
    · exact .rfl
  | cons segment segments ih =>
    have hsplit : splitAfter (·.operator = some .and) segment ≠ [] :=
      splitAfter_ne_nil (h _ (.head _))
    have hrest := ih (fun s hs => h s (.tail _ hs)) (.inr (rfl : none = none))
    refine (partsOpt_ofPipelines hsplit (fun _ => ne_nil_of_mem_splitAfter) _ _).trans ?_
    rw [flatten_splitAfter,List.flatten_cons,List.map_append]
    refine List.Perm.append_right _ (List.Perm.append_left _ ?_)
    simpa [partsOpt] using hrest

theorem partsOpt_ofLists {lists : List (List Stage)} (h : ∀ l ∈ lists, l ≠ []) :
    ((partsOpt (ofLists lists)).map top).Perm (lists.flatten.map Stage.link) := by
  induction lists with
  | nil => exact .rfl
  | cons list lists ih =>
    have hsplit : splitAfter (·.operator = some .or) list ≠ [] :=
      splitAfter_ne_nil (h _ (.head _))
    refine (partsOpt_ofAlternatives (fun _ => ne_nil_of_mem_splitAfter) (.inl hsplit)).trans ?_
    rw [flatten_splitAfter,List.flatten_cons,List.map_append]
    exact List.Perm.append_left _ (ih fun l hl => h l (.tail _ hl))

theorem parts_of_ofLists {links : List Link} {tree : CommandTree}
    (h : ofLists (splitAfter (·.operator = some .sequence) (links.map .ofLink)) = some tree) :
    (tree.parts.map top).Perm links := by
  have hperm := partsOpt_ofLists fun (l : List Stage)
    (hl : l ∈ splitAfter (·.operator = some .sequence) (links.map .ofLink)) =>
      ne_nil_of_mem_splitAfter hl
  rwa [h,flatten_splitAfter,map_link_ofLink] at hperm

theorem walk_of_ofLists {links : List Link} {tree : CommandTree}
    (h : ofLists (splitAfter (·.operator = some .sequence) (links.map .ofLink)) = some tree) :
    tree.walk.Perm (links.map (·.1)) := by
  have hperm := (parts_of_ofLists h).map Prod.fst
  rw [List.map_map] at hperm
  rw [walk_eq]
  exact hperm

end Parts

theorem ofLists_cons (s : Stage) (stages : List Stage) (ends : Stage → Bool) :
    ∃ tree rest, ofLists (splitAfter ends (s :: stages)) = some tree ∧
      tree.walk = s.command :: rest := by
  obtain ⟨list,lists,hl⟩ := splitAfter_cons ends s stages
  obtain ⟨segment,segments,hs⟩ := splitAfter_cons (·.operator = some .or) s list
  obtain ⟨pipeline,pipelines,hp⟩ := splitAfter_cons (·.operator = some .and) s segment
  obtain ⟨flows,next,hfirst,-⟩ := ofPipeline_cons s pipeline (ofLists lists)
  have hlists : ofLists (splitAfter ends (s :: stages)) =
      some (.node s.command s.operator flows (pipelines.filterMap (ofPipeline · none))
        (ofAlternatives segments none) next) := by
    rw [hl,ofLists,hs,ofAlternatives,hp,ofPipelines,hfirst]
    rfl
  exact ⟨_,_,hlists,by rw [walk]; rfl⟩

theorem link_ok {links : List Link} (h : links ≠ [])
    (hinit : links.dropLast.any (·.2 = none) = false)
    (hlast : links.getLast?.any (!endsList ·.2) = false) :
    ∃ tree, link links = .ok (some tree) := by
  cases links with
  | nil => exact absurd rfl h
  | cons l ls =>
    obtain ⟨tree,-,htree,-⟩ := ofLists_cons (.ofLink l) (ls.map .ofLink)
      (·.operator = some .sequence)
    refine ⟨tree,?_⟩
    rw [link,hinit,hlast,List.map_cons,htree]
    rfl

/-- The tree of a list of commands holds each of them, and the first of them first. -/
theorem walk_of_linkLine {links : List Link} {tree : CommandTree}
    (h : linkLine links = .ok (some tree)) :
    ∃ l ls rest, links = l :: ls ∧ tree.walk = l.1 :: rest ∧ rest.Perm (ls.map (·.1)) := by
  have hlists :
      ofLists (splitAfter (·.operator = some .sequence) (links.map .ofLink)) = some tree := by
    unfold linkLine link at h
    split at h
    · cases h
    · split at h
      · cases h
      · split at h
        · cases h
        · exact Except.ok.inj h
  cases links with
  | nil => cases hlists
  | cons l ls =>
    obtain ⟨tree',rest,htree,hwalk⟩ := ofLists_cons (.ofLink l) (ls.map .ofLink)
      (·.operator = some .sequence)
    cases hlists.symm.trans htree
    have hperm := walk_of_ofLists hlists
    rw [hwalk] at hperm
    exact ⟨l,ls,rest,rfl,hwalk,hperm.cons_inv⟩

mutual

@[simp] theorem map_id (t : CommandTree) : t.map id = t := by
  cases t with
  | node c o p conditions alternate successor =>
    rw [map,mapAll_id conditions,mapOpt_id alternate,mapOpt_id successor]
    rfl

@[simp] theorem mapAll_id (ts : List CommandTree) : mapAll id ts = ts := by
  cases ts with
  | nil => rfl
  | cons t ts => rw [mapAll,map_id t,mapAll_id ts]

@[simp] theorem mapOpt_id (t : Option CommandTree) : mapOpt id t = t := by
  cases t with
  | none => rfl
  | some t => rw [mapOpt,map_id t]

end

section Walk

variable {f g : Command → Command}

mutual

theorem map_congr (t : CommandTree) (h : ∀ c ∈ t.walk, f c = g c) : t.map f = t.map g := by
  cases t with
  | node c o p conditions alternate successor =>
    simp only [walk,List.cons_append,List.forall_mem_cons,List.forall_mem_append] at h
    obtain ⟨hc,⟨hconditions,halternate⟩,hsuccessor⟩ := h
    simp [map,hc,mapAll_congr conditions hconditions,mapOpt_congr alternate halternate,
      mapOpt_congr successor hsuccessor]

theorem mapAll_congr (ts : List CommandTree) (h : ∀ c ∈ walkAll ts, f c = g c) :
    mapAll f ts = mapAll g ts := by
  cases ts with
  | nil => rfl
  | cons t ts =>
    obtain ⟨ht,hts⟩ := List.forall_mem_append.1 h
    simp [mapAll,map_congr t ht,mapAll_congr ts hts]

theorem mapOpt_congr (t : Option CommandTree) (h : ∀ c ∈ walkOpt t, f c = g c) :
    mapOpt f t = mapOpt g t := by
  cases t with
  | none => rfl
  | some t => simp [mapOpt,map_congr t h]

end

mutual

@[simp] theorem walk_map (t : CommandTree) : (t.map f).walk = t.walk.map f := by
  cases t with
  | node c o p conditions alternate successor =>
    simp [map,walk,walkAll_map conditions,walkOpt_map alternate,walkOpt_map successor]

@[simp] theorem walkAll_map (ts : List CommandTree) :
    walkAll (mapAll f ts) = (walkAll ts).map f := by
  cases ts with
  | nil => rfl
  | cons t ts => simp [mapAll,walkAll,walk_map t,walkAll_map ts]

@[simp] theorem walkOpt_map (t : Option CommandTree) :
    walkOpt (mapOpt f t) = (walkOpt t).map f := by
  cases t with
  | none => rfl
  | some t => exact walk_map t

end

end Walk

section Map

variable (f : Command → Command)

def Link.map (l : Link) : Link :=
  (f l.1,l.2)

def Stage.map (s : Stage) : Stage :=
  { s with command := f s.command }

@[simp] theorem splitAfter_mapStage (o : Option Operator) (stages : List Stage) :
    splitAfter (·.operator = o) (stages.map (Stage.map f)) =
      (splitAfter (·.operator = o) stages).map (List.map (Stage.map f)) :=
  splitAfter_map (Stage.map f) _ stages

@[simp] theorem mapOpt_ofPipeline (stages : List Stage) (successor : Option CommandTree) :
    mapOpt f (ofPipeline stages successor) =
      ofPipeline (stages.map (Stage.map f)) (mapOpt f successor) := by
  induction stages with
  | nil => rfl
  | cons s stages ih =>
    cases stages with
    | nil => rfl
    | cons second stages =>
      show mapOpt f (some (.node s.command s.operator s.pipeTarget [] none
        (ofPipeline (second :: stages) successor))) = _
      rw [mapOpt,map,ih]
      rfl

@[simp] theorem mapOpt_anchor (conditions : List CommandTree) (alternate t : Option CommandTree) :
    mapOpt f (t.map (anchor conditions alternate)) =
      (mapOpt f t).map (anchor (mapAll f conditions) (mapOpt f alternate)) := by
  rcases t with _ | ⟨c,o,p,conditions,alternate,successor⟩
  · rfl
  · simp only [Option.map_some,anchor,mapOpt,map]

@[simp] theorem mapAll_conditions (conditions : List (List Stage)) :
    mapAll f (conditions.filterMap (ofPipeline · none)) =
      (conditions.map (List.map (Stage.map f))).filterMap (ofPipeline · none) := by
  induction conditions with
  | nil => rfl
  | cons c conditions ih =>
    have hc : ofPipeline (c.map (Stage.map f)) none = mapOpt f (ofPipeline c none) :=
      (mapOpt_ofPipeline f c none).symm
    cases h : ofPipeline c none with
    | none => simp [h,hc,ih,mapOpt]
    | some t => simp [h,hc,ih,mapAll,mapOpt]

@[simp] theorem mapOpt_ofPipelines (pipelines : List (List Stage))
    (alternate successor : Option CommandTree) :
    mapOpt f (ofPipelines pipelines alternate successor) =
      ofPipelines (pipelines.map (List.map (Stage.map f))) (mapOpt f alternate)
        (mapOpt f successor) := by
  cases pipelines with
  | nil => rfl
  | cons first conditions =>
    simp [ofPipelines]

@[simp] theorem mapOpt_ofAlternatives (segments : List (List Stage))
    (successor : Option CommandTree) :
    mapOpt f (ofAlternatives segments successor) =
      ofAlternatives (segments.map (List.map (Stage.map f))) (mapOpt f successor) := by
  induction segments generalizing successor with
  | nil => rfl
  | cons segment segments ih =>
    simp [ofAlternatives,ih,mapOpt]

@[simp] theorem mapOpt_ofLists (lists : List (List Stage)) :
    mapOpt f (ofLists lists) = ofLists (lists.map (List.map (Stage.map f))) := by
  induction lists with
  | nil => rfl
  | cons list lists ih =>
    simp [ofLists,ih]

@[simp] theorem linkLine_map (links : List Link) :
    linkLine (links.map (Link.map f)) = (linkLine links).map (mapOpt f) := by
  have hlink : link (links.map (Link.map f)) = (link links).map (mapOpt f) := by
    have hinit : (links.map (Link.map f)).dropLast.any (·.2 = none) =
        links.dropLast.any (·.2 = none) := by
      rw [← List.map_dropLast,List.any_map]
      rfl
    have hlast : (links.map (Link.map f)).getLast?.any (!endsList ·.2) =
        links.getLast?.any (!endsList ·.2) := by
      rw [List.getLast?_map]
      cases links.getLast? <;> rfl
    have hstages : (links.map (Link.map f)).map Stage.ofLink =
        (links.map .ofLink).map (Stage.map f) := by
      rw [List.map_map,List.map_map]
      rfl
    rw [link,link,hinit,hlast,hstages,splitAfter_map]
    split
    · rfl
    · split
      · rfl
      · exact congrArg _ (mapOpt_ofLists f _).symm
  unfold linkLine
  rw [List.getLast?_map]
  cases links.getLast? with
  | none => exact hlink
  | some l =>
    obtain ⟨c,_ | operator⟩ := l
    · exact hlink
    · rfl

/-- Lists of links that agree after a change give trees that agree after it. -/
theorem linkLine_congr {links links' : List Link} {tree : CommandTree}
    (h : links'.map (Link.map f) = links.map (Link.map f))
    (ht : linkLine links = .ok (some tree)) :
    ∃ tree', linkLine links' = .ok (some tree') ∧ tree'.map f = tree.map f := by
  have hm : (linkLine links').map (mapOpt f) = .ok (some (tree.map f)) := by
    rw [← linkLine_map,h,linkLine_map,ht]
    rfl
  cases h' : linkLine links' with
  | error e => rw [h'] at hm; cases hm
  | ok result =>
    rw [h'] at hm
    cases result with
    | none => cases hm
    | some tree' => exact ⟨tree',rfl,Option.some.inj (Except.ok.inj hm)⟩

end Map

section Correspondence

variable (R : Command → Command → Prop)

mutual

/-- Trees of one shape, with the same operators, whose commands are related one by one. -/
def Corresponds : CommandTree → CommandTree → Prop
  | .node c o p conditions alternate successor,
      .node c' o' p' conditions' alternate' successor' =>
    R c c' ∧ o = o' ∧ p = p' ∧ CorrespondsAll conditions conditions' ∧
      CorrespondsOpt alternate alternate' ∧ CorrespondsOpt successor successor'

def CorrespondsAll : List CommandTree → List CommandTree → Prop
  | [], [] => True
  | t :: ts, t' :: ts' => Corresponds t t' ∧ CorrespondsAll ts ts'
  | _, _ => False

def CorrespondsOpt : Option CommandTree → Option CommandTree → Prop
  | none, none => True
  | some t, some t' => Corresponds t t'
  | _, _ => False

end

variable {R} {f : Command → Command}

mutual

/-- Trees that agree after a change correspond, if commands that agree after it are related. -/
theorem corresponds_of_map (hf : ∀ c c', f c = f c' → R c c') {t t' : CommandTree}
    (h : t.map f = t'.map f) : Corresponds R t t' := by
  cases t with
  | node c o p conditions alternate successor =>
    cases t' with
    | node c' o' p' conditions' alternate' successor' =>
      rw [map,map] at h
      injection h with hc ho hp hconditions halternate hsuccessor
      exact ⟨hf c c' hc,ho,hp,correspondsAll_of_map hf hconditions,
        correspondsOpt_of_map hf halternate,correspondsOpt_of_map hf hsuccessor⟩

theorem correspondsAll_of_map (hf : ∀ c c', f c = f c' → R c c') {ts ts' : List CommandTree}
    (h : mapAll f ts = mapAll f ts') : CorrespondsAll R ts ts' := by
  cases ts with
  | nil =>
    cases ts' with
    | nil => trivial
    | cons t' ts' => cases h
  | cons t ts =>
    cases ts' with
    | nil => cases h
    | cons t' ts' =>
      rw [mapAll,mapAll] at h
      injection h with ht hts
      exact ⟨corresponds_of_map hf ht,correspondsAll_of_map hf hts⟩

theorem correspondsOpt_of_map (hf : ∀ c c', f c = f c' → R c c') {t t' : Option CommandTree}
    (h : mapOpt f t = mapOpt f t') : CorrespondsOpt R t t' := by
  cases t with
  | none =>
    cases t' with
    | none => trivial
    | some t' => cases h
  | some t =>
    cases t' with
    | none => cases h
    | some t' =>
      rw [mapOpt,mapOpt] at h
      injection h with ht
      exact corresponds_of_map hf ht

end

end Correspondence

end Realm.CommandTree
