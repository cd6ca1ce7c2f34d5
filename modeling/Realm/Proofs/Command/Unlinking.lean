import Realm.Proofs.Command.Linking

/-! Reading a tree of commands back. Linking can be undone: the commands of a tree and the
operators behind them are read from it in the order in which they were linked. -/
namespace Realm.CommandTree

/-! How a tree is read back. -/

mutual

def stages : CommandTree → List Link
  | .node c o pipeTarget _ _ successor =>
    (c,o) :: if pipeTarget.isSome then stagesOpt successor else []

def stagesOpt : Option CommandTree → List Link
  | none => []
  | some t => stages t

end

mutual

/-- What comes after the last stage of the pipeline that a tree begins with. -/
def afterStages : CommandTree → Option CommandTree
  | .node _ _ pipeTarget _ _ successor =>
    if pipeTarget.isSome then afterStagesOpt successor else successor

def afterStagesOpt : Option CommandTree → Option CommandTree
  | none => none
  | some t => afterStages t

end

mutual

/-- The pipelines that depend on success, from the first of them on, and then the
alternatives in their order. -/
def alternatives : CommandTree → List Link
  | t@(.node _ _ _ conditions alternate _) =>
    t.stages ++ conditions.flatMap stages ++ alternativesOpt alternate

def alternativesOpt : Option CommandTree → List Link
  | none => []
  | some t => alternatives t

end

mutual

theorem sizeOf_afterStages_lt {t next : CommandTree} (h : t.afterStages = some next) :
    sizeOf next < sizeOf t := by
  cases t with
  | node c o p conditions alternate successor =>
    rw [afterStages] at h
    simp only [node.sizeOf_spec]
    split at h
    · have := sizeOf_afterStagesOpt_lt h
      omega
    · subst h
      simp only [Option.some.sizeOf_spec]
      omega

theorem sizeOf_afterStagesOpt_lt {t : Option CommandTree} {next : CommandTree}
    (h : afterStagesOpt t = some next) : sizeOf next < sizeOf t := by
  cases t with
  | none => cases h
  | some t =>
    rw [afterStagesOpt] at h
    have := sizeOf_afterStages_lt h
    simp only [Option.some.sizeOf_spec]
    omega

end

/-- The commands of a tree with the operators behind them: the alternatives that it begins
with, and then the list that comes after them. -/
def unlink (t : CommandTree) : List Link :=
  t.alternatives ++
    match _h : t.afterStages with
    | some next => next.unlink
    | none => []
termination_by sizeOf t
decreasing_by exact sizeOf_afterStages_lt _h

theorem unlink_eq (t : CommandTree) :
    t.unlink = t.alternatives ++ (t.afterStages.map unlink).getD [] := by
  rw [unlink]
  split
  · next h => rw [h]; rfl
  · next h => rw [h]; rfl

theorem alternatives_eq (t : CommandTree) :
    t.alternatives = t.stages ++ t.conditions.flatMap stages ++ alternativesOpt t.alternate := by
  cases t
  rw [alternatives]
  rfl

/-! What lies between the cuts. -/

section Runs

variable {α : Type} {P P' Q Q' : α → Prop} {as group : List α}

/-- All elements but the last have one property, and the last has another. -/
def Run (P Q : α → Prop) (as : List α) : Prop :=
  (∀ a ∈ as.dropLast, P a) ∧ ∀ a, as.getLast? = some a → Q a

@[simp] theorem run_singleton {a : α} : Run P Q [a] ↔ Q a := by
  simp [Run]

@[simp] theorem run_cons_cons {a b : α} : Run P Q (a :: b :: as) ↔ P a ∧ Run P Q (b :: as) := by
  simp [Run,and_assoc]

theorem Run.mono (h : Run P Q as) (hP : ∀ a, P a → P' a) (hQ : ∀ a, Q a → Q' a) :
    Run P' Q' as :=
  ⟨fun a ha => hP a (h.1 a ha),fun a ha => hQ a (h.2 a ha)⟩

theorem Run.tail {a : α} (h : Run P Q (a :: as)) : Run P Q as := by
  cases as with
  | nil => simp [Run]
  | cons b as => exact (run_cons_cons.1 h).2

/-- Of a group that is cut off only the last element can end it, and it does unless it is the
last of all. -/
theorem Run.splitAfter (ends : α → Bool) (h : Run P Q as) (hg : group ∈ splitAfter ends as) :
    Run (fun a => P a ∧ ends a = false) (fun a => Q a ∨ ends a = true) group := by
  induction as generalizing group with
  | nil => simp [CommandTree.splitAfter] at hg
  | cons a as ih =>
    have ih := fun {g} => @ih g h.tail
    simp only [CommandTree.splitAfter] at hg
    split at hg
    · next hends =>
      rcases List.mem_cons.1 hg with rfl | hg
      · exact run_singleton.2 (.inr hends)
      · exact ih hg
    · next hends =>
      split at hg
      · next hs =>
        -- Nothing is cut off from the rest, so that there is none.
        obtain rfl : as = [] := by simpa [hs] using (flatten_splitAfter ends as).symm
        rw [List.mem_singleton.1 hg]
        exact run_singleton.2 (.inl (run_singleton.1 h))
      · next first groups hs =>
        rcases List.mem_cons.1 hg with rfl | hg
        · cases as with
          | nil => simp [CommandTree.splitAfter] at hs
          | cons b bs =>
            obtain ⟨t,gs,ht⟩ := splitAfter_cons ends b bs
            cases ht.symm.trans hs
            have hfirst : Run _ _ (b :: t) := ih (by simp [ht])
            exact run_cons_cons.2 ⟨⟨(run_cons_cons.1 h).1,by simpa using hends⟩,hfirst⟩
        · exact ih (by simp [hs,hg])

end Runs

/-- Whether the output of a command goes to the next stage of a pipeline. -/
def Link.pipes (l : Link) : Prop :=
  (l.2.bind Operator.pipeTarget?).isSome = true

/-- Commands joined by pipes, the last of which leads elsewhere. -/
def IsPipeline (links : List Link) : Prop :=
  links ≠ [] ∧ Run Link.pipes (fun l => ¬ l.pipes) links

section Anchor

variable (conditions : List CommandTree) (alternate : Option CommandTree) (t : CommandTree)

@[simp] theorem stages_anchor : (t.anchor conditions alternate).stages = t.stages := by
  cases t
  rfl

@[simp] theorem afterStages_anchor :
    (t.anchor conditions alternate).afterStages = t.afterStages := by
  cases t
  rfl

@[simp] theorem conditions_anchor : (t.anchor conditions alternate).conditions = conditions := by
  cases t
  rfl

@[simp] theorem alternate_anchor : (t.anchor conditions alternate).alternate = alternate := by
  cases t
  rfl

@[simp] theorem anchor_ofPipeline (stages : List Stage) (successor : Option CommandTree) :
    (ofPipeline stages successor).map (anchor [] none) = ofPipeline stages successor := by
  rcases stages with _ | ⟨_,_ | ⟨_,_⟩⟩ <;> rfl

end Anchor

@[simp] theorem splitAfter_ofLink (o : Option Operator) (links : List Link) :
    splitAfter (·.operator = o) (links.map Stage.ofLink) =
      (splitAfter (·.2 = o) links).map (List.map Stage.ofLink) :=
  splitAfter_map Stage.ofLink _ links

theorem stages_ofPipeline {links : List Link} (h : IsPipeline links)
    (successor : Option CommandTree) :
    ∃ t, ofPipeline (links.map .ofLink) successor = some t ∧ t.stages = links ∧
      t.afterStages = successor := by
  obtain ⟨hne,hrun⟩ := h
  induction links with
  | nil => exact absurd rfl hne
  | cons first rest ih =>
    cases rest with
    | nil => exact ⟨_,rfl,rfl,rfl⟩
    | cons second rest =>
      obtain ⟨hfirst,hrest⟩ := run_cons_cons.1 hrun
      obtain ⟨t,ht,hstages,hafter⟩ := ih (by simp) hrest
      refine ⟨.node first.1 first.2 (Stage.ofLink first).pipeTarget [] none (some t),?_,?_,?_⟩
      · rw [← ht]
        rfl
      · rw [stages]
        exact congrArg _ ((if_pos hfirst).trans hstages)
      · rw [afterStages]
        exact (if_pos hfirst).trans hafter

theorem flatMap_stages_conditions {conditions : List (List Link)}
    (h : ∀ p ∈ conditions, IsPipeline p) :
    ((conditions.map (List.map .ofLink)).filterMap (ofPipeline · none)).flatMap stages =
      conditions.flatten := by
  induction conditions with
  | nil => rfl
  | cons p conditions ih =>
    obtain ⟨t,ht,hstages,-⟩ := stages_ofPipeline (h p (by simp)) none
    simpa [ht,hstages] using ih fun q hq => h q (by simp [hq])

/-- Commands without an alternative or a sequence among them but at their end. -/
def IsSegment (links : List Link) : Prop :=
  links ≠ [] ∧ Run (fun l => l.pipes ∨ l.2 = some .and) (fun l => ¬ l.pipes) links

theorem IsSegment.pipelines {links : List Link} (h : IsSegment links) {p : List Link}
    (hp : p ∈ splitAfter (·.2 = some .and) links) : IsPipeline p := by
  refine ⟨ne_nil_of_mem_splitAfter hp,(h.2.splitAfter _ hp).mono ?_ ?_⟩
  · rintro l ⟨hl | hl,hends⟩
    · exact hl
    · simp [hl] at hends
  · rintro l (hl | hends)
    · exact hl
    · simp [Link.pipes,of_decide_eq_true hends,Operator.pipeTarget?]

theorem ofPipelines_read {pipelines : List (List Link)} (hne : pipelines ≠ [])
    (h : ∀ p ∈ pipelines, IsPipeline p) (alternate successor : Option CommandTree) :
    ∃ t, ofPipelines (pipelines.map (List.map .ofLink)) alternate successor = some t ∧
      t.stages ++ t.conditions.flatMap stages = pipelines.flatten ∧ t.alternate = alternate ∧
      t.afterStages = successor := by
  cases pipelines with
  | nil => exact absurd rfl hne
  | cons first conditions =>
    have hconditions := flatMap_stages_conditions fun p hp => h p (List.mem_cons_of_mem _ hp)
    obtain ⟨t,ht,hstages,hafter⟩ := stages_ofPipeline (h first (by simp)) successor
    refine ⟨_,by rw [List.map_cons,ofPipelines,ht,Option.map_some],?_,?_,?_⟩
    · rw [stages_anchor,conditions_anchor,hstages,hconditions,List.flatten_cons]
    · exact alternate_anchor ..
    · rw [afterStages_anchor,hafter]

theorem alternatives_ofAlternatives {segments : List (List Link)} (hne : segments ≠ [])
    (h : ∀ s ∈ segments, IsSegment s) (successor : Option CommandTree) :
    ∃ t, ofAlternatives (segments.map (List.map .ofLink)) successor = some t ∧
      t.alternatives = segments.flatten ∧ t.afterStages = successor := by
  induction segments generalizing successor with
  | nil => exact absurd rfl hne
  | cons segment segments ih =>
    have hsegment := h segment (by simp)
    obtain ⟨t,ht,hread,halternate,hafter⟩ := ofPipelines_read (splitAfter_ne_nil hsegment.1)
      (fun p => hsegment.pipelines) (ofAlternatives (segments.map (List.map .ofLink)) none)
      successor
    refine ⟨t,by rw [List.map_cons,ofAlternatives,splitAfter_ofLink,ht],?_,hafter⟩
    rw [alternatives_eq,hread,halternate,flatten_splitAfter,List.flatten_cons]
    congr 1
    by_cases hlast : segments = []
    · subst hlast
      rfl
    · obtain ⟨t',ht',hrest,-⟩ := ih hlast (fun s hs => h s (by simp [hs])) none
      rw [ht',alternativesOpt,hrest]

/-- Commands without a sequence among them but at their end. -/
def IsList (links : List Link) : Prop :=
  links ≠ [] ∧ Run (fun l => l.pipes ∨ l.2 = some .and ∨ l.2 = some .or) (fun l => ¬ l.pipes) links

theorem IsList.segments {links : List Link} (h : IsList links) {s : List Link}
    (hs : s ∈ splitAfter (·.2 = some .or) links) : IsSegment s := by
  refine ⟨ne_nil_of_mem_splitAfter hs,(h.2.splitAfter _ hs).mono ?_ ?_⟩
  · rintro l ⟨hl | hl | hl,hends⟩
    · exact .inl hl
    · exact .inr hl
    · simp [hl] at hends
  · rintro l (hl | hends)
    · exact hl
    · simp [Link.pipes,of_decide_eq_true hends,Operator.pipeTarget?]

theorem unlink_ofLists {lists : List (List Link)} (hne : lists ≠ []) (h : ∀ l ∈ lists, IsList l) :
    ∃ t, ofLists (lists.map (List.map .ofLink)) = some t ∧ t.unlink = lists.flatten := by
  induction lists with
  | nil => exact absurd rfl hne
  | cons list lists ih =>
    have hlist := h list (by simp)
    obtain ⟨t,ht,hread,hafter⟩ := alternatives_ofAlternatives (splitAfter_ne_nil hlist.1)
      (fun s => hlist.segments) (ofLists (lists.map (List.map .ofLink)))
    refine ⟨t,by rw [List.map_cons,ofLists,splitAfter_ofLink,ht],?_⟩
    rw [unlink_eq,hread,hafter,flatten_splitAfter,List.flatten_cons]
    congr 1
    by_cases hlast : lists = []
    · subst hlast
      rfl
    · obtain ⟨t',ht',hrest⟩ := ih hlast fun l hl => h l (by simp [hl])
      simp [ht',hrest]

/-! What flows on has somewhere to flow. -/

/-- What a command lets flow on is what its operator says, and it has a successor to flow to. -/
structure Piped (t : CommandTree) : Prop where
  target : t.pipeTarget = t.operator.bind Operator.pipeTarget?
  flows : t.pipeTarget.isSome → t.successor.isSome

section Piped

variable {conditions : List CommandTree} {alternate successor : Option CommandTree}

theorem piped_partsAll_nil : ∀ t ∈ partsAll [], Piped t :=
  nofun

theorem piped_partsOpt_none : ∀ t ∈ partsOpt none, Piped t :=
  nofun

theorem piped_node {c : Command} {o : Option Operator} {p : Option PipeTarget}
    (h : Piped (.node c o p conditions alternate successor))
    (hconditions : ∀ t ∈ partsAll conditions, Piped t)
    (halternate : ∀ t ∈ partsOpt alternate, Piped t)
    (hsuccessor : ∀ t ∈ partsOpt successor, Piped t) :
    ∀ t ∈ parts (.node c o p conditions alternate successor), Piped t := by
  simp only [parts,List.cons_append,List.mem_cons,List.mem_append]
  rintro t (rfl | (ht | ht) | ht)
  · exact h
  · exact hconditions t ht
  · exact halternate t ht
  · exact hsuccessor t ht

/-- The last stage of a pipeline is the only one that nothing flows on from, whatever it stood
before. -/
theorem piped_ofPipeline {links : List Link} (h : IsPipeline links)
    (hconditions : ∀ t ∈ partsAll conditions, Piped t)
    (halternate : ∀ t ∈ partsOpt alternate, Piped t)
    (hsuccessor : ∀ t ∈ partsOpt successor, Piped t) :
    ∀ t ∈ partsOpt ((ofPipeline (links.map .ofLink) successor).map
      (anchor conditions alternate)), Piped t := by
  obtain ⟨hne,hrun⟩ := h
  induction links generalizing conditions alternate with
  | nil => exact absurd rfl hne
  | cons first rest ih =>
    cases rest with
    | nil =>
      have hlast : ¬ first.pipes := (run_singleton (P := Link.pipes) (Q := (¬ ·.pipes))).1 hrun
      exact piped_node ⟨(Option.not_isSome_iff_eq_none.1 hlast).symm,nofun⟩ hconditions halternate
        hsuccessor
    | cons second rest =>
      have hrest := ih piped_partsAll_nil piped_partsOpt_none (by simp) (run_cons_cons.1 hrun).2
      rw [anchor_ofPipeline] at hrest
      obtain ⟨_,_,hnext,-⟩ := ofPipeline_cons (.ofLink second) (rest.map .ofLink) successor
      exact piped_node ⟨rfl,fun _ => Option.isSome_of_eq_some hnext⟩ hconditions halternate hrest

theorem piped_conditions {pipelines : List (List Link)} (h : ∀ p ∈ pipelines, IsPipeline p) :
    ∀ t ∈ partsAll ((pipelines.map (List.map .ofLink)).filterMap (ofPipeline · none)),
      Piped t := by
  induction pipelines with
  | nil => exact piped_partsAll_nil
  | cons p pipelines ih =>
    have hfirst := piped_ofPipeline (h p (by simp)) piped_partsAll_nil piped_partsOpt_none
      piped_partsOpt_none
    have hrest := ih fun q hq => h q (List.mem_cons_of_mem _ hq)
    obtain ⟨t,ht,-⟩ := stages_ofPipeline (h p (by simp)) none
    rw [anchor_ofPipeline,ht] at hfirst
    intro u hu
    simp only [List.map_cons,List.filterMap_cons,ht,partsAll,List.mem_append] at hu
    rcases hu with hu | hu
    · exact hfirst u hu
    · exact hrest u hu

theorem piped_ofAlternatives {segments : List (List Link)} (h : ∀ s ∈ segments, IsSegment s)
    (hsuccessor : ∀ t ∈ partsOpt successor, Piped t) :
    ∀ t ∈ partsOpt (ofAlternatives (segments.map (List.map .ofLink)) successor), Piped t := by
  induction segments generalizing successor with
  | nil => exact piped_partsOpt_none
  | cons segment segments ih =>
    have hpipelines := fun p => (h segment (by simp)).pipelines (p := p)
    have halternate := ih (fun s hs => h s (List.mem_cons_of_mem _ hs)) piped_partsOpt_none
    rw [List.map_cons,ofAlternatives,splitAfter_ofLink]
    generalize splitAfter _ segment = pipelines at hpipelines
    cases pipelines with
    | nil => exact piped_partsOpt_none
    | cons first conditions =>
      exact piped_ofPipeline (hpipelines _ (by simp))
        (piped_conditions fun p hp => hpipelines p (List.mem_cons_of_mem _ hp)) halternate
        hsuccessor

theorem piped_ofLists {lists : List (List Link)} (h : ∀ l ∈ lists, IsList l) :
    ∀ t ∈ partsOpt (ofLists (lists.map (List.map .ofLink))), Piped t := by
  induction lists with
  | nil => exact piped_partsOpt_none
  | cons list lists ih =>
    rw [List.map_cons,ofLists,splitAfter_ofLink]
    exact piped_ofAlternatives (fun s => (h list (by simp)).segments)
      (ih fun l hl => h l (List.mem_cons_of_mem _ hl))

end Piped

/-- The command of a tree and the operator behind it have a property. -/
def Has (P : Command → Option Operator → Prop) (t : CommandTree) : Prop :=
  P t.command t.operator

/-! Linking and reading back. -/

/-- Lists that can be linked: an operator stands behind every command but the last, and
behind that only one that nothing need follow. -/
def Linkable (links : List Link) : Prop :=
  Run (·.2 ≠ none) (fun l => l.2 = none ∨ l.2 = some .sequence) links

theorem link_of_linkable {links : List Link} (h : Linkable links) :
    link links =
      .ok (ofLists ((splitAfter (·.2 = some .sequence) links).map (List.map .ofLink))) := by
  have hinit : links.dropLast.any (·.2 = none) = false :=
    List.any_eq_false.2 fun l hl hnone => h.1 l hl (of_decide_eq_true hnone)
  have hlast : links.getLast?.any (!endsList ·.2) = false := by
    cases hl : links.getLast? with
    | none => rfl
    | some l => rcases h.2 l hl with ho | ho <;> simp [ho,endsList]
  rw [link,hinit,hlast,splitAfter_ofLink]
  rfl

theorem link_of_not_linkable {links : List Link} (h : ¬ Linkable links) :
    ∃ cause, link links = .error (.internal cause) := by
  unfold link
  split
  · exact ⟨_,rfl⟩
  · next hinit =>
    split
    · exact ⟨_,rfl⟩
    · next hlast =>
      refine absurd ⟨fun l hl hnone => hinit ?_,fun l hl => ?_⟩ h
      · exact List.any_eq_true.2 ⟨l,hl,decide_eq_true hnone⟩
      · rw [hl] at hlast
        rcases l with ⟨c,_ | _ | _ | _ | _ | _⟩ <;> simp_all [endsList]

theorem Linkable.lists {links : List Link} (h : Linkable links) {list : List Link}
    (hlist : list ∈ splitAfter (·.2 = some .sequence) links) : IsList list := by
  refine ⟨ne_nil_of_mem_splitAfter hlist,(h.splitAfter _ hlist).mono ?_ ?_⟩
  · rintro ⟨c,o⟩ ⟨ho,hends⟩
    rcases o with _ | _ | _ | _ | _ | _ <;> simp_all [Link.pipes,Operator.pipeTarget?]
  · rintro ⟨c,o⟩ hl
    rcases o with _ | _ | _ | _ | _ | _ <;> simp_all [Link.pipes,Operator.pipeTarget?]

theorem Linkable.tree {links : List Link} (h : Linkable links) (hne : links ≠ []) :
    ∃ t, link links = .ok (some t) ∧ t.unlink = links ∧ t.walk.Perm (links.map (·.1)) ∧
      ∀ part ∈ t.parts, Piped part := by
  obtain ⟨t,ht,hread⟩ := unlink_ofLists (splitAfter_ne_nil hne) fun _ => h.lists
  have hpiped := piped_ofLists fun _ => h.lists
  rw [ht] at hpiped
  exact ⟨t,(link_of_linkable h).trans (congrArg _ ht),hread.trans (flatten_splitAfter _ _),
    walk_of_ofLists ((splitAfter_ofLink _ _).symm ▸ ht),hpiped⟩

theorem linkable_of_link {links : List Link} {tree : Option CommandTree}
    (h : link links = .ok tree) : Linkable links := by
  refine Classical.byContradiction fun hno => ?_
  obtain ⟨cause,he⟩ := link_of_not_linkable hno
  cases he.symm.trans h

theorem link_of_linkLine {links : List Link} {tree : Option CommandTree}
    (h : linkLine links = .ok tree) : link links = .ok tree := by
  unfold linkLine at h
  split at h
  · cases h
  · exact h

theorem parts_of_link {links : List Link} {tree : CommandTree} (h : link links = .ok (some tree)) :
    (tree.parts.map top).Perm links := by
  have ht := Except.ok.inj ((link_of_linkable (linkable_of_link h)).symm.trans h)
  rw [← splitAfter_ofLink] at ht
  exact parts_of_ofLists ht

/-- What flows on from the commands of a line is what their operators say. -/
theorem piped_of_link {links : List Link} {tree : CommandTree}
    (h : link links = .ok (some tree)) : ∀ part ∈ tree.parts, Piped part := by
  have hlinkable := linkable_of_link h
  have hne : links ≠ [] := by
    rintro rfl
    cases h
  obtain ⟨t,ht,-,-,hpiped⟩ := hlinkable.tree hne
  cases ht.symm.trans h
  exact hpiped

theorem has_of_link {P : Command → Option Operator → Prop} {links : List Link}
    {tree : CommandTree} (h : link links = .ok (some tree)) (hP : ∀ l ∈ links, P l.1 l.2) :
    ∀ t ∈ tree.parts, Has P t :=
  fun t ht => hP t.top ((parts_of_link h).mem_iff.1 (List.mem_map_of_mem ht))

theorem last_of_link {links : List Link} {tree : CommandTree} (h : link links = .ok (some tree))
    {c : Command} (hc : (c,none) ∈ links) : tree.unlink.getLast? = some (c,none) := by
  have hlinkable := linkable_of_link h
  have hne : links ≠ [] := List.ne_nil_of_mem hc
  obtain ⟨t,ht,hread,-⟩ := hlinkable.tree hne
  cases ht.symm.trans h
  rw [hread,List.getLast?_eq_some_getLast hne]
  rw [← List.dropLast_concat_getLast hne,List.mem_append,List.mem_singleton] at hc
  rcases hc with hc | hc
  · exact absurd rfl (hlinkable.1 _ hc)
  · rw [hc]

section

variable {t : CommandTree}

theorem Piped.output_iff (h : Piped t) :
    t.pipeTarget = some .output ↔ t.operator = some .pipe := by
  rw [h.target]
  rcases t.operator with _ | _ | _ | _ | _ | _ <;> decide

theorem Piped.outputAndMessages_iff (h : Piped t) :
    t.pipeTarget = some .outputAndMessages ↔ t.operator = some .pipeAll := by
  rw [h.target]
  rcases t.operator with _ | _ | _ | _ | _ | _ <;> decide

theorem Piped.isSome_iff (h : Piped t) :
    t.pipeTarget.isSome ↔ t.operator = some .pipe ∨ t.operator = some .pipeAll := by
  rw [h.target]
  rcases t.operator with _ | _ | _ | _ | _ | _ <;> decide

end

/-- Exactly the lists that are broken off nowhere can be linked, and all others are refused.
Nothing is lost on the way: the commands and their operators are read back from the tree as
they were, and each command is met once on a walk. -/
theorem unlink_link (links : List Link) :
    ((∃ tree, link links = .ok tree) ↔
      (∀ l ∈ links.dropLast, l.2 ≠ none) ∧
        ∀ l, links.getLast? = some l → l.2 = none ∨ l.2 = some .sequence) ∧
    (∀ e, link links = .error e → ∃ cause, e = .internal cause) ∧
    (link links = .ok none ↔ links = []) ∧
    ∀ tree, link links = .ok (some tree) →
      tree.unlink = links ∧
      tree.walk.Perm (links.map (·.1)) ∧
      ∀ part ∈ tree.parts,
        (part.pipeTarget = some .output ↔ part.operator = some .pipe) ∧
        (part.pipeTarget = some .outputAndMessages ↔ part.operator = some .pipeAll) ∧
        (part.pipeTarget.isSome → part.successor.isSome) := by
  by_cases hlinks : Linkable links
  · refine ⟨iff_of_true ⟨_,link_of_linkable hlinks⟩ hlinks,?_,?_,fun tree htree => ?_⟩
    · rw [link_of_linkable hlinks]
      exact nofun
    · refine ⟨fun h => Decidable.byContradiction fun hne => ?_,by rintro rfl; rfl⟩
      obtain ⟨t,ht,-⟩ := hlinks.tree hne
      cases ht.symm.trans h
    · have hne : links ≠ [] := by
        rintro rfl
        cases htree
      obtain ⟨t,ht,hread,hwalk,hpiped⟩ := hlinks.tree hne
      cases ht.symm.trans htree
      exact ⟨hread,hwalk,fun part hpart => ⟨(hpiped part hpart).output_iff,
        (hpiped part hpart).outputAndMessages_iff,(hpiped part hpart).flows⟩⟩
  · obtain ⟨cause,hlink⟩ := link_of_not_linkable hlinks
    rw [hlink]
    refine ⟨iff_of_false nofun hlinks,?_,iff_of_false nofun ?_,nofun⟩
    · rintro _ ⟨⟩
      exact ⟨cause,rfl⟩
    · rintro rfl
      exact hlinks ⟨nofun,nofun⟩

/-- The operator at the end of a list is not always refused: a sequence is linked to
nothing. -/
theorem not_link_iff_closed :
    ¬ ∀ links : List Link, (∃ tree, link links = .ok tree) ↔
      (∀ l ∈ links.dropLast, l.2 ≠ none) ∧ ∀ l, links.getLast? = some l → l.2 = none := by
  intro h
  have hok : ∃ tree, link [(.opened ⟨.word,['a'],.input,0,1,none⟩ .game,some .sequence)] =
      .ok tree := ⟨_,rfl⟩
  cases ((h _).1 hok).2 _ rfl

end Realm.CommandTree
