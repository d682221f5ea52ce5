import LiveForm.Form.Linking
import LiveForm.Proofs.Graph.Vertices
import LiveForm.Proofs.Outcome

/-!
# The registry and the graph agree

A link is kept in three places, and so is the use of a binding by a formula. `Form.Coherent` says that these
places agree. While an operation is under way some of them are ahead of the others; `Gaps` names the
differences. Links are made and removed without opening a gap.
-/

set_option autoImplicit false

namespace LiveForm

/-- In what the registry and the graph differ while an operation is under way. -/
structure Gaps where
  /-- Cached fields whose link the graph does not know any more. -/
  lost : BindingId → NodeId → Prop := fun _ _ => False
  /-- Users of a binding without a formula in the graph. -/
  owed : BindingId → NodeId → Prop := fun _ _ => False
  /-- Nodes for which it was not determined yet what their formulas read. -/
  unread : NodeId → Prop := fun _ => False

namespace Form

/-- The formula of the second node reads the first one. -/
def Feeds (f : Form) (m n : NodeId) : Prop :=
  ∃ id, f.registry.Caches id m ∧ f.graph.Uses n id

/-- The registry and the graph agree, but for some gaps. -/
structure CoherentBut (gaps : Gaps) (f : Form) : Prop where
  successors : ∀ id m, id ∈ f.graph.successors m ↔ f.registry.Caches id m ∧ ¬ gaps.lost id m
  consumers : ∀ id n, f.registry.Serves id n ↔ f.graph.Uses n id ∨ gaps.owed id n
  reads : ∀ n, ¬ gaps.unread n → ∀ m, m ∈ f.graph.predecessors n ↔ f.Feeds m n
  unread : ∀ n, gaps.unread n → (f.graph.formula? n).isSome
  used : ∀ id b, f.registry.get? id = some b → ∃ n, n ∈ b.consumers
  tidy : f.graph.Tidy
  anchors : ∀ n F, f.graph.formula? n = some F → F.anchor = n
  fresh : f.registry.Fresh

/-- The registry and the graph agree. -/
abbrev Coherent (f : Form) : Prop :=
  CoherentBut {} f

/-- Two forms differ in their registries, graphs and pending nodes only. -/
structure SameBeside (f f' : Form) : Prop where
  tree : f'.tree = f.tree
  schedule : f'.schedule = f.schedule
  stopAtOverride : f'.stopAtOverride = f.stopAtOverride
  cacheRefresh : f'.cacheRefresh = f.cacheRefresh

/-- What is followed up later. If a formula is not pending in the second form, then it reads the same fields
by the same bindings as in the first one. Nodes that are `gone` in between are not pending any more. -/
structure MarksBut (gone : NodeId → Prop) (f f' : Form) : Prop where
  formula : ∀ n F, f'.graph.formula? n = some F → n ∉ f'.pending →
    f.graph.formula? n = some F ∧ ¬ gone n ∧
      ∀ id ∈ F.bindings, ∀ m, (f'.registry.Caches id m ↔ f.registry.Caches id m) ∧
        (f.registry.Caches id m → ¬ gone m)
  pending : ∀ n ∈ f.pending, n ∈ f'.pending ∨ gone n

/-- What is followed up later, whichever nodes are gone in between. -/
def Marks (f f' : Form) : Prop :=
  ∃ gone, MarksBut gone f f'

/-- Two forms differ in the caches of bindings only, and what follows from these is pending. -/
structure Relinked (f f' : Form) : Prop where
  beside : SameBeside f f'
  formula : ∀ n, f'.graph.formula? n = f.graph.formula? n
  bound : ∀ id, f'.registry.bound? id = f.registry.bound? id
  marks : Marks f f'

variable {f f' f'' : Form} {gaps : Gaps}

theorem SameBeside.refl (f : Form) : SameBeside f f :=
  ⟨rfl, rfl, rfl, rfl⟩

theorem SameBeside.trans (h : SameBeside f f') (h' : SameBeside f' f'') : SameBeside f f'' :=
  ⟨h'.tree.trans h.tree, h'.schedule.trans h.schedule, h'.stopAtOverride.trans h.stopAtOverride,
    h'.cacheRefresh.trans h.cacheRefresh⟩

theorem MarksBut.refl (f : Form) : MarksBut (fun _ => False) f f where
  formula _ _ hF _ := ⟨hF, id, fun _ _ _ => ⟨Iff.rfl, fun _ => id⟩⟩
  pending _ hn := .inl hn

theorem MarksBut.trans {gone gone' : NodeId → Prop} (h : MarksBut gone f f')
    (h' : MarksBut gone' f' f'') : MarksBut (fun n => gone n ∨ gone' n) f f'' where
  formula n F hF hn := by
    obtain ⟨hF', hg', hids'⟩ := h'.formula n F hF hn
    have hn' : n ∉ f'.pending := fun hp => (h'.pending n hp).elim hn hg'
    obtain ⟨hF'', hg, hids⟩ := h.formula n F hF' hn'
    refine ⟨hF'', not_or.2 ⟨hg, hg'⟩, fun id hid m => ⟨?_, ?_⟩⟩
    · rw [(hids' id hid m).1, (hids id hid m).1]
    · intro hm
      exact not_or.2 ⟨(hids id hid m).2 hm, (hids' id hid m).2 ((hids id hid m).1.2 hm)⟩
  pending n hn := by
    rcases h.pending n hn with hp | hg
    · rcases h'.pending n hp with hp' | hg'
      · exact .inl hp'
      · exact .inr (.inr hg')
    · exact .inr (.inl hg)

theorem Marks.refl (f : Form) : Marks f f :=
  ⟨_, .refl f⟩

theorem Marks.trans (h : Marks f f') (h' : Marks f' f'') : Marks f f'' := by
  obtain ⟨_, hm⟩ := h
  obtain ⟨_, hm'⟩ := h'
  exact ⟨_, hm.trans hm'⟩

theorem Relinked.refl (f : Form) : Relinked f f :=
  ⟨.refl f, fun _ => rfl, fun _ => rfl, .refl f⟩

theorem Relinked.trans (h : Relinked f f') (h' : Relinked f' f'') : Relinked f f'' where
  beside := h.beside.trans h'.beside
  formula n := (h'.formula n).trans (h.formula n)
  bound id := (h'.bound id).trans (h.bound id)
  marks := h.marks.trans h'.marks

/-- A form is the same, or its levels have to be determined anew. -/
def LevelsDue (f f' : Form) : Prop :=
  f' = f ∨ f'.graph.levels = none

theorem LevelsDue.refl (f : Form) : LevelsDue f f :=
  .inl rfl

theorem LevelsDue.of_none (h : f'.graph.levels = none) : LevelsDue f f' :=
  .inr h

theorem LevelsDue.trans (h : LevelsDue f f') (h' : LevelsDue f' f'') : LevelsDue f f'' := by
  rcases h' with rfl | hnone
  · exact h
  · exact .of_none hnone

theorem Relinked.uses (h : Relinked f f') {n : NodeId} {id : BindingId} :
    f'.graph.Uses n id ↔ f.graph.Uses n id := by
  unfold Graph.Uses
  rw [h.formula n]

/-- Nothing is read by a node without a formula. -/
theorem Feeds.formula? {m n : NodeId} (h : f.Feeds m n) : ∃ F, f.graph.formula? n = some F := by
  obtain ⟨_, _, F, hF, _⟩ := h
  exact ⟨F, hF⟩

theorem feeds_iff {m n : NodeId} {F : Formula} (hF : f.graph.formula? n = some F) :
    f.Feeds m n ↔ m ∈ Graph.readings f.registry F := by
  rw [Graph.mem_readings]
  constructor
  · rintro ⟨id, hm, F', hF', hid⟩
    obtain rfl := Option.some.inj (hF.symm.trans hF')
    exact ⟨id, hid, hm⟩
  · rintro ⟨id, hid, hm⟩
    exact ⟨id, hm, F, hF, hid⟩

theorem CoherentBut.predecessors_of_none (h : CoherentBut gaps f) {n : NodeId}
    (hF : f.graph.formula? n = none) : f.graph.predecessors n = ∅ := by
  have hn : ¬ gaps.unread n := by
    intro hn
    have := h.unread n hn
    simp [hF] at this
  rw [Std.ExtTreeSet.eq_empty_iff_forall_not_mem]
  intro m hm
  obtain ⟨F, hF'⟩ := ((h.reads n hn m).1 hm).formula?
  simp [hF] at hF'

/-- The levels and the pending nodes do not matter. -/
theorem CoherentBut.congr (h : CoherentBut gaps f) (hregistry : f'.registry = f.registry)
    (hvertices : f'.graph.vertices = f.graph.vertices) : CoherentBut gaps f' := by
  have hget (n : NodeId) : f'.graph.get? n = f.graph.get? n := by
    rw [Graph.get?, hvertices, Graph.get?]
  have hformula (n : NodeId) : f'.graph.formula? n = f.graph.formula? n := by
    rw [Graph.formula?, hget, Graph.formula?]
  have hfeeds (m n : NodeId) : f'.Feeds m n ↔ f.Feeds m n := by
    unfold Feeds Graph.Uses
    rw [hregistry, hformula]
  refine ⟨fun id m => ?_, fun id n => ?_, fun n hn m => ?_, fun n hn => ?_, ?_, fun n v hv => ?_,
    fun n F hF => ?_, ?_⟩
  · rw [Graph.successors, hget, hregistry]
    exact h.successors id m
  · unfold Graph.Uses
    rw [hformula, hregistry]
    exact h.consumers id n
  · rw [Graph.predecessors, hget, hfeeds]
    exact h.reads n hn m
  · rw [hformula]
    exact h.unread n hn
  · rw [hregistry]
    exact h.used
  · rw [hget] at hv
    exact h.tidy n v hv
  · rw [hformula] at hF
    exact h.anchors n F hF
  · rw [hregistry]
    exact h.fresh

section Reading

variable {nodes : List NodeId} {n x : NodeId}

@[simp]
theorem mem_addPending : x ∈ (f.addPending nodes).pending ↔ x ∈ f.pending ∨ x ∈ nodes := by
  simp [addPending]

theorem readAgain_cons (f : Form) (n : NodeId) (nodes : List NodeId) :
    f.readAgain (n :: nodes) = ((f.resetPredecessors n).addPending [n]).readAgain nodes := rfl

@[simp]
theorem registry_readAgain : (f.readAgain nodes).registry = f.registry := by
  induction nodes generalizing f with
  | nil => rfl
  | cons a rest ih => rw [readAgain_cons, ih]; rfl

theorem sameBeside_readAgain : SameBeside f (f.readAgain nodes) := by
  induction nodes generalizing f with
  | nil => exact .refl f
  | cons a rest ih =>
    have h : SameBeside f ((f.resetPredecessors a).addPending [a]) := ⟨rfl, rfl, rfl, rfl⟩
    rw [readAgain_cons]
    exact h.trans ih

@[simp]
theorem formula?_readAgain : (f.readAgain nodes).graph.formula? x = f.graph.formula? x := by
  induction nodes generalizing f with
  | nil => rfl
  | cons a rest ih => rw [readAgain_cons, ih]; simp [addPending, resetPredecessors]

@[simp]
theorem successors_readAgain :
    (f.readAgain nodes).graph.successors x = f.graph.successors x := by
  induction nodes generalizing f with
  | nil => rfl
  | cons a rest ih => rw [readAgain_cons, ih]; simp [addPending, resetPredecessors]

theorem mem_pending_readAgain :
    x ∈ (f.readAgain nodes).pending ↔ x ∈ f.pending ∨ x ∈ nodes := by
  induction nodes generalizing f with
  | nil => simp [readAgain]
  | cons a rest ih =>
    rw [readAgain_cons, ih, mem_addPending, List.mem_singleton, List.mem_cons, or_assoc]
    rfl

theorem predecessors_readAgain : (f.readAgain nodes).graph.predecessors x =
    if x ∈ nodes then
      ((f.graph.formula? x).map (Graph.readings f.registry)).getD (f.graph.predecessors x)
    else f.graph.predecessors x := by
  induction nodes generalizing f with
  | nil => rfl
  | cons a rest ih =>
    have hregistry : ((f.resetPredecessors a).addPending [a]).registry = f.registry := rfl
    have hformula :
        ((f.resetPredecessors a).addPending [a]).graph.formula? x = f.graph.formula? x := by
      simp [addPending, resetPredecessors]
    have hpred : ((f.resetPredecessors a).addPending [a]).graph.predecessors x = if x = a then
        ((f.graph.formula? a).map (Graph.readings f.registry)).getD (f.graph.predecessors x)
        else f.graph.predecessors x :=
      Graph.predecessors_resetPredecessors
    rw [readAgain_cons, ih, hregistry, hformula, hpred]
    by_cases hx : x = a
    · subst hx
      cases f.graph.formula? x <;> simp
    · simp [hx]

theorem tidy_readAgain (h : f.graph.Tidy) : (f.readAgain nodes).graph.Tidy := by
  induction nodes generalizing f with
  | nil => exact h
  | cons a rest ih =>
    rw [readAgain_cons]
    exact ih h.resetPredecessors

end Reading

section Resetting

variable {n x : NodeId} {unread : NodeId → Prop}

theorem CoherentBut.of_unread (h : CoherentBut { unread } f) (hnone : ∀ x, ¬ unread x) :
    Coherent f :=
  { h with
    reads := fun x _ => h.reads x (hnone x)
    unread := fun _ hx => hx.elim }

/-- Determining again what a formula reads fills one gap. -/
theorem CoherentBut.resetPredecessors (h : CoherentBut { unread } f) :
    CoherentBut { unread := fun x => unread x ∧ x ≠ n } (f.resetPredecessors n) where
  successors id m := by
    have hs : (f.resetPredecessors n).graph.successors m = f.graph.successors m :=
      Graph.successors_resetPredecessors
    rw [hs]
    exact h.successors id m
  consumers id c := by
    have hF : (f.resetPredecessors n).graph.formula? c = f.graph.formula? c :=
      Graph.formula?_resetPredecessors
    unfold Graph.Uses
    rw [hF]
    exact h.consumers id c
  reads x hx m := by
    have hpred : (f.resetPredecessors n).graph.predecessors x = if x = n then
        ((f.graph.formula? n).map (Graph.readings f.registry)).getD (f.graph.predecessors x)
        else f.graph.predecessors x := Graph.predecessors_resetPredecessors
    have hF : (f.resetPredecessors n).graph.formula? x = f.graph.formula? x :=
      Graph.formula?_resetPredecessors
    have hfeeds : (f.resetPredecessors n).Feeds m x ↔ f.Feeds m x := by
      unfold Feeds Graph.Uses
      rw [hF]
      rfl
    rw [hpred, hfeeds]
    split
    next hxn =>
      subst hxn
      cases hFx : f.graph.formula? x with
      | none =>
        refine h.reads x (fun hu => ?_) m
        have := h.unread x hu
        simp [hFx] at this
      | some F => exact (feeds_iff hFx).symm
    next hxn => exact h.reads x (fun hu => hx ⟨hu, hxn⟩) m
  unread x hx := by
    have hF : (f.resetPredecessors n).graph.formula? x = f.graph.formula? x :=
      Graph.formula?_resetPredecessors
    rw [hF]
    exact h.unread x hx.1
  used := h.used
  tidy := h.tidy.resetPredecessors
  anchors x F hF := h.anchors x F (Graph.formula?_resetPredecessors (g := f.graph) ▸ hF)
  fresh := h.fresh

theorem relinked_resetPredecessors : Relinked f (f.resetPredecessors n) where
  beside := ⟨rfl, rfl, rfl, rfl⟩
  formula _ := Graph.formula?_resetPredecessors
  bound _ := rfl
  marks := ⟨fun _ => False,
    { formula := fun _ _ hF _ =>
        ⟨Graph.formula?_resetPredecessors (g := f.graph) ▸ hF, not_false,
          fun _ _ _ => ⟨Iff.rfl, fun _ => not_false⟩⟩
      pending := fun _ hx => .inl hx }⟩

theorem levels_resetPredecessors :
    (f.resetPredecessors n).graph.levels = f.graph.levels := by
  simp only [Form.resetPredecessors, Graph.resetPredecessors]
  split <;> rfl

end Resetting

section Unlinking

variable {id i : BindingId} {m n x : NodeId}

@[simp]
theorem registry_unlink : (f.unlink id m).registry = f.registry.modify id (·.dropNode m) := by
  simp [unlink, prune]

theorem sameBeside_unlink : SameBeside f (f.unlink id m) := by
  have h : SameBeside f ({ f with
      registry := f.registry.modify id (·.dropNode m)
      graph := f.graph.dropSuccessor m id } : Form) := ⟨rfl, rfl, rfl, rfl⟩
  have h' : SameBeside f (Form.readAgain _ ((f.registry.modify id (·.dropNode m)).consumersOf id)) :=
    h.trans sameBeside_readAgain
  exact ⟨h'.tree, h'.schedule, h'.stopAtOverride, h'.cacheRefresh⟩

theorem levels_unlink : (f.unlink id m).graph.levels = none := rfl

@[simp]
theorem formula?_unlink : (f.unlink id m).graph.formula? x = f.graph.formula? x := by
  simp [unlink, prune]

theorem successors_unlink : (f.unlink id m).graph.successors x =
    if x = m then (f.graph.successors x).erase id else f.graph.successors x := by
  simp [unlink, prune, Graph.successors_dropSuccessor]

theorem mem_pending_unlink :
    x ∈ (f.unlink id m).pending ↔ x ∈ f.pending ∨ f.registry.Serves id x := by
  have h : x ∈ (f.unlink id m).pending ↔ x ∈ f.pending ∨
      x ∈ (f.registry.modify id (·.dropNode m)).consumersOf id := mem_pending_readAgain
  rw [h, Registry.mem_consumersOf, Registry.serves_modify fun _ => Binding.consumers_dropNode _ _]

theorem tidy_unlink (h : f.graph.Tidy) : (f.unlink id m).graph.Tidy := by
  have hbut : ∀ x v, x ≠ m → (f.graph.dropSuccessor m id).get? x = some v → v.isIdle = false := by
    intro x v hx hv
    rw [Graph.dropSuccessor, Graph.get?_modify, if_neg hx] at hv
    exact h x v hv
  have hread : ∀ (f' : Form) (nodes : List NodeId),
      (∀ x v, x ≠ m → f'.graph.get? x = some v → v.isIdle = false) →
      ∀ x v, x ≠ m → (f'.readAgain nodes).graph.get? x = some v → v.isIdle = false := by
    intro f' nodes
    induction nodes generalizing f' with
    | nil => exact fun hf' => hf'
    | cons a rest ih =>
      intro hf'
      refine ih _ fun x v hx hv => ?_
      have hv' : (f'.graph.resetPredecessors f'.registry a).get? x = some v := hv
      unfold Graph.resetPredecessors at hv'
      split at hv'
      · exact hf' x v hx hv'
      · rw [Graph.get?_modify] at hv'
        split at hv'
        · obtain ⟨w, hw, rfl⟩ := Option.map_eq_some_iff.1 hv'
          exact hf' x w hx hw
        · exact hf' x v hx hv'
  exact Graph.Tidy.prune_of_but (hread _ _ hbut)

/-- The link is gone from the cache, and the caches of others are as they were. -/
theorem caches_unlink :
    (f.unlink id m).registry.Caches i x ↔ f.registry.Caches i x ∧ ¬ (i = id ∧ x = m) := by
  rw [registry_unlink, Registry.caches_dropNode]

theorem serves_unlink : (f.unlink id m).registry.Serves i x ↔ f.registry.Serves i x := by
  rw [registry_unlink, Registry.serves_modify fun _ => Binding.consumers_dropNode _ _]

theorem bound?_unlink : (f.unlink id m).registry.bound? i = f.registry.bound? i := by
  rw [registry_unlink, Registry.bound?_modify fun _ => Binding.bound_dropNode _ _]

variable {unread : NodeId → Prop}

theorem CoherentBut.predecessors_unlink (h : CoherentBut { unread } f) :
    (f.unlink id m).graph.predecessors x =
      if x ∈ f.registry.consumersOf id then
        ((f.graph.formula? x).map
          (Graph.readings (f.registry.modify id (·.dropNode m)))).getD (f.graph.predecessors x)
      else f.graph.predecessors x := by
  have hmem : x ∈ (f.registry.modify id (·.dropNode m)).consumersOf id ↔
      x ∈ f.registry.consumersOf id := by
    rw [Registry.mem_consumersOf, Registry.mem_consumersOf,
      Registry.serves_modify fun _ => Binding.consumers_dropNode _ _]
  have hprune (g : Form) (hg : g.graph.formula? m = none → g.graph.predecessors m = ∅) :
      (g.prune m).graph.predecessors x = g.graph.predecessors x :=
    Graph.predecessors_prune hg
  have hunlink : (f.unlink id m).graph.predecessors x =
      ((({ f with
          registry := f.registry.modify id (·.dropNode m)
          graph := f.graph.dropSuccessor m id } : Form).readAgain
        ((f.registry.modify id (·.dropNode m)).consumersOf id)).prune m).graph.predecessors x := rfl
  rw [hunlink, hprune]
  · rw [predecessors_readAgain]
    simp only [Graph.formula?_dropSuccessor, Graph.predecessors_dropSuccessor, hmem]
  · intro hnone
    rw [formula?_readAgain] at hnone
    have hnone' : f.graph.formula? m = none := by simpa using hnone
    rw [predecessors_readAgain]
    simp [hnone', h.predecessors_of_none hnone']

theorem feeds_unlink_of_none (hF : f.graph.formula? x = none) (y : NodeId) :
    (f.unlink id m).Feeds y x ↔ f.Feeds y x := by
  refine iff_of_false (fun hc => ?_) fun hc => ?_ <;> obtain ⟨F, hF'⟩ := hc.formula?
  · rw [formula?_unlink, hF] at hF'
    simp at hF'
  · simp [hF] at hF'

/-- After a link has been removed, the formulas know what they read. -/
theorem CoherentBut.reads_unlink (h : CoherentBut { unread } f) (hx : ¬ unread x) (y : NodeId) :
    y ∈ (f.unlink id m).graph.predecessors x ↔ (f.unlink id m).Feeds y x := by
  rw [h.predecessors_unlink]
  have hreads := h.reads x hx y
  cases hF : f.graph.formula? x with
  | none =>
    simp only [Option.map_none, Option.getD_none, ite_self]
    rw [hreads, feeds_unlink_of_none hF]
  | some F =>
    have hF' : (f.unlink id m).graph.formula? x = some F := by rw [formula?_unlink, hF]
    rw [feeds_iff hF', registry_unlink]
    by_cases hserve : x ∈ f.registry.consumersOf id
    · rw [if_pos hserve]
      simp
    · -- A formula that does not use the binding reads what it has read before.
      rw [if_neg hserve, hreads, feeds_iff hF, Graph.mem_readings, Graph.mem_readings]
      refine exists_congr fun i => and_congr_right fun hi => ?_
      have hne : i ≠ id := by
        rintro rfl
        exact hserve (Registry.mem_consumersOf.2 ((h.consumers i x).2 (.inl ⟨F, hF, hi⟩)))
      rw [Registry.caches_dropNode]
      simp [hne]

/-- Removing a link keeps the registry and the graph in agreement. -/
theorem CoherentBut.unlink (h : CoherentBut { unread } f) :
    CoherentBut { unread } (f.unlink id m) where
  successors i x := by
    rw [successors_unlink, caches_unlink]
    have hs := h.successors i x
    simp only [not_false_eq_true, and_true] at hs ⊢
    by_cases hx : x = m
    · subst hx
      simp [hs, and_comm, @eq_comm _ id i]
    · simp [hx, hs]
  consumers i x := by
    rw [serves_unlink]
    unfold Graph.Uses
    rw [formula?_unlink]
    exact h.consumers i x
  reads _ hx y := h.reads_unlink hx y
  unread x hx := by
    rw [formula?_unlink]
    exact h.unread x hx
  used i b hb := by
    rw [registry_unlink, Registry.get?_modify] at hb
    split at hb
    · obtain ⟨b', hb', rfl⟩ := Option.map_eq_some_iff.1 hb
      exact h.used i b' hb'
    · exact h.used i b hb
  tidy := tidy_unlink h.tidy
  anchors x F hF := h.anchors x F (by rwa [formula?_unlink] at hF)
  fresh := by
    rw [registry_unlink]
    exact h.fresh.modify _

theorem CoherentBut.relinked_unlink (h : CoherentBut { unread } f) :
    Relinked f (f.unlink id m) where
  beside := sameBeside_unlink
  formula _ := formula?_unlink
  bound _ := bound?_unlink
  marks := ⟨fun _ => False,
    { formula := by
        intro n F hF hn
        rw [formula?_unlink] at hF
        rw [mem_pending_unlink, not_or] at hn
        refine ⟨hF, not_false, fun i hi x => ⟨?_, fun _ => not_false⟩⟩
        have hne : i ≠ id := by
          rintro rfl
          exact hn.2 ((h.consumers i n).2 (.inl ⟨F, hF, hi⟩))
        rw [caches_unlink]
        simp [hne]
      pending := fun n hn => .inl (mem_pending_unlink.2 (.inl hn)) }⟩

end Unlinking

section Linking

variable {id i : BindingId} {m n x : NodeId}

/-- The form after a link was made. -/
def linked (f : Form) (id : BindingId) (m : NodeId) : Form :=
  let graph : Graph :=
    (f.registry.consumersOf id).foldl (·.addPredecessor · m) (f.graph.addSuccessor m id)
  { f with registry := f.registry.modify id (·.cacheNode m), graph := graph.outdated }.addPending
    (f.registry.consumersOf id)

/-- A link is made unless the field depends on a user of the binding. -/
theorem link_eq : link id m f =
    match (f.registry.consumersOf id).findSome? (f.pathBetween? · m) with
    | some circle => .error (f.cycleError circle) f
    | none => .ok () (f.linked id m) := by
  unfold link
  dsimp only
  cases (f.registry.consumersOf id).findSome? (f.pathBetween? · m) <;> rfl

theorem registry_linked : (f.linked id m).registry = f.registry.modify id (·.cacheNode m) := rfl

theorem sameBeside_linked : SameBeside f (f.linked id m) := ⟨rfl, rfl, rfl, rfl⟩

theorem levels_linked : (f.linked id m).graph.levels = none := rfl

theorem formula?_foldl_addPredecessor (g : Graph) (nodes : List NodeId) :
    (nodes.foldl (·.addPredecessor · m) g).formula? x = g.formula? x := by
  induction nodes generalizing g with
  | nil => rfl
  | cons a rest ih => rw [List.foldl_cons, ih, Graph.formula?_addPredecessor]

theorem successors_foldl_addPredecessor (g : Graph) (nodes : List NodeId) :
    (nodes.foldl (·.addPredecessor · m) g).successors x = g.successors x := by
  induction nodes generalizing g with
  | nil => rfl
  | cons a rest ih => rw [List.foldl_cons, ih, Graph.successors_addPredecessor]

theorem predecessors_foldl_addPredecessor (g : Graph) (nodes : List NodeId)
    (h : ∀ n ∈ nodes, g.contains n = true) (y : NodeId) :
    y ∈ (nodes.foldl (·.addPredecessor · m) g).predecessors x ↔
      y ∈ g.predecessors x ∨ (x ∈ nodes ∧ y = m) := by
  induction nodes generalizing g with
  | nil => simp
  | cons a rest ih =>
    have ha := h a List.mem_cons_self
    rw [List.foldl_cons, ih, Graph.predecessors_addPredecessor ha]
    · by_cases hx : x = a
      · simp only [hx, if_true, Std.ExtTreeSet.mem_insert, Std.LawfulEqCmp.compare_eq_iff_eq,
          List.mem_cons, true_or, true_and, @eq_comm _ m y]
        grind
      · simp [hx]
    · intro n hn
      rw [Graph.contains_addPredecessor]
      exact h n (List.mem_cons_of_mem _ hn)

theorem tidy_foldl_addPredecessor (g : Graph) (nodes : List NodeId) (h : g.Tidy) :
    (nodes.foldl (·.addPredecessor · m) g).Tidy := by
  induction nodes generalizing g with
  | nil => exact h
  | cons a rest ih => exact ih _ h.addPredecessor

@[simp]
theorem formula?_linked : (f.linked id m).graph.formula? x = f.graph.formula? x := by
  simp [linked, addPending, formula?_foldl_addPredecessor]

theorem successors_linked : (f.linked id m).graph.successors x =
    if x = m then (f.graph.successors x).insert id else f.graph.successors x := by
  simp [linked, addPending, successors_foldl_addPredecessor, Graph.successors_addSuccessor]

theorem mem_pending_linked :
    x ∈ (f.linked id m).pending ↔ x ∈ f.pending ∨ f.registry.Serves id x := by
  rw [linked, mem_addPending, Registry.mem_consumersOf]

theorem caches_linked (hid : (f.registry.get? id).isSome) :
    (f.linked id m).registry.Caches i x ↔ f.registry.Caches i x ∨ (i = id ∧ x = m) := by
  rw [registry_linked, Registry.caches_cacheNode hid]

theorem serves_linked : (f.linked id m).registry.Serves i x ↔ f.registry.Serves i x := by
  rw [registry_linked, Registry.serves_modify fun _ => Binding.consumers_cacheNode _ _]

theorem bound?_linked : (f.linked id m).registry.bound? i = f.registry.bound? i := by
  rw [registry_linked, Registry.bound?_modify fun _ => Binding.bound_cacheNode _ _]

variable {unread : NodeId → Prop}

/-- Making a link keeps the registry and the graph in agreement. -/
theorem CoherentBut.linked (h : CoherentBut { unread } f) (hid : (f.registry.get? id).isSome) :
    CoherentBut { unread } (f.linked id m) where
  successors i x := by
    rw [successors_linked, caches_linked hid]
    have hs := h.successors i x
    simp only [not_false_eq_true, and_true] at hs ⊢
    by_cases hx : x = m
    · subst hx
      simp [hs, or_comm, @eq_comm _ id i]
    · simp [hx, hs]
  consumers i x := by
    rw [serves_linked]
    unfold Graph.Uses
    rw [formula?_linked]
    exact h.consumers i x
  reads x hx y := by
    have hcontains : ∀ n ∈ f.registry.consumersOf id,
        (f.graph.addSuccessor m id).contains n = true := by
      intro n hn
      rw [Registry.mem_consumersOf, h.consumers] at hn
      obtain ⟨F, hF, -⟩ := hn.resolve_right not_false
      exact Graph.contains_of_formula? (F := F) (by rwa [Graph.formula?_addSuccessor])
    have hpred : y ∈ (f.linked id m).graph.predecessors x ↔
        y ∈ f.graph.predecessors x ∨ (f.registry.Serves id x ∧ y = m) := by
      have := predecessors_foldl_addPredecessor (m := m) (x := x) _ _ hcontains y
      rw [Graph.predecessors_addSuccessor, Registry.mem_consumersOf] at this
      exact this
    have hserve : f.registry.Serves id x ↔ f.graph.Uses x id := by
      simpa using h.consumers id x
    rw [hpred, h.reads x hx y, hserve]
    constructor
    · rintro (⟨i, hi, F, hF, hmem⟩ | ⟨⟨F, hF, hmem⟩, rfl⟩)
      · exact ⟨i, (caches_linked hid).2 (.inl hi), F, by rwa [formula?_linked], hmem⟩
      · exact ⟨id, (caches_linked hid).2 (.inr ⟨rfl, rfl⟩), F, by rwa [formula?_linked], hmem⟩
    · rintro ⟨i, hi, F, hF, hmem⟩
      rw [formula?_linked] at hF
      rcases (caches_linked hid).1 hi with hi | ⟨rfl, rfl⟩
      · exact .inl ⟨i, hi, F, hF, hmem⟩
      · exact .inr ⟨⟨F, hF, hmem⟩, rfl⟩
  unread x hx := by
    rw [formula?_linked]
    exact h.unread x hx
  used i b hb := by
    rw [registry_linked, Registry.get?_modify] at hb
    split at hb
    · obtain ⟨b', hb', rfl⟩ := Option.map_eq_some_iff.1 hb
      exact h.used i b' hb'
    · exact h.used i b hb
  tidy := tidy_foldl_addPredecessor _ _ h.tidy.addSuccessor
  anchors x F hF := h.anchors x F (by rwa [formula?_linked] at hF)
  fresh := by
    rw [registry_linked]
    exact h.fresh.modify _

theorem CoherentBut.relinked_linked (h : CoherentBut { unread } f)
    (hid : (f.registry.get? id).isSome) : Relinked f (f.linked id m) where
  beside := sameBeside_linked
  formula _ := formula?_linked
  bound _ := bound?_linked
  marks := ⟨fun _ => False,
    { formula := by
        intro n F hF hn
        rw [formula?_linked] at hF
        rw [mem_pending_linked, not_or] at hn
        refine ⟨hF, not_false, fun i hi x => ⟨?_, fun _ => not_false⟩⟩
        have hne : i ≠ id := by
          rintro rfl
          exact hn.2 ((h.consumers i n).2 (.inl ⟨F, hF, hi⟩))
        rw [caches_linked hid]
        simp [hne]
      pending := fun n hn => .inl (mem_pending_linked.2 (.inl hn)) }⟩

end Linking

end Form

end LiveForm
