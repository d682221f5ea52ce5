import LiveForm.Graph.Basic
import LiveForm.Proofs.Registry.Entries

/-!
# What a graph says after each of its operations

A graph is read by three look-ups: the formula of a node, the fields that it reads, and the bindings that
stand for the node. Each operation is described by what these find afterwards.
-/

set_option autoImplicit false

namespace LiveForm.Graph

variable {g : Graph} {n x : NodeId} {id : BindingId}

/-- The formula of a node uses a binding. -/
def Uses (g : Graph) (n : NodeId) (id : BindingId) : Prop :=
  ∃ F, g.formula? n = some F ∧ id ∈ F.bindings

/-- Only what has a reason to be a vertex is one. -/
def Tidy (g : Graph) : Prop :=
  ∀ n v, g.get? n = some v → v.isIdle = false

theorem contains_eq : g.contains n = (g.get? n).isSome := by
  simp [contains, get?]

theorem contains_of_formula? {F : Formula} (h : g.formula? n = some F) : g.contains n = true := by
  obtain ⟨v, hv, -⟩ := Option.bind_eq_some_iff.1 h
  rw [contains_eq, hv]
  rfl

theorem contains_of_predecessor (h : x ∈ g.predecessors n) : g.contains n = true := by
  rw [contains_eq]
  cases hv : g.get? n with
  | none => simp [predecessors, hv] at h
  | some v => rfl

theorem mem_nodes : n ∈ g.nodes ↔ g.contains n = true := by
  simp [nodes, contains, Std.ExtTreeMap.mem_keys]

theorem mem_formulaNodes : n ∈ g.formulaNodes ↔ (g.formula? n).isSome := by
  rw [formulaNodes, List.mem_filter, mem_nodes, and_iff_right_iff_imp]
  intro h
  obtain ⟨F, hF⟩ := Option.isSome_iff_exists.1 h
  exact contains_of_formula? hF

theorem nodup_formulaNodes (g : Graph) : g.formulaNodes.Nodup := by
  refine List.Pairwise.filter _ (Std.ExtTreeMap.distinct_keys.imp ?_)
  rintro x y hxy rfl
  exact hxy Std.compare_self

/-- In a tidy graph a vertex is what its formula, the fields that it reads and the bindings that stand for
it say. -/
theorem Tidy.get?_eq (h : g.Tidy) (n : NodeId) :
    g.get? n = if (g.formula? n).isNone && (g.successors n).isEmpty then none
      else some { formula := g.formula? n, predecessors := g.predecessors n,
                  successors := g.successors n } := by
  cases hv : g.get? n with
  | none => simp [formula?, successors, hv]
  | some v =>
    have hidle : (v.formula.isNone && v.successors.isEmpty) = false := h n v hv
    simp [formula?, successors, predecessors, hv, hidle]

/-- The vertices of a tidy graph are told by the look-ups. -/
theorem Tidy.vertices_eq {g' : Graph} (h : g.Tidy) (h' : g'.Tidy) (hformula : ∀ n, g'.formula? n = g.formula? n)
    (hsuccessors : ∀ n, g'.successors n = g.successors n) (hpredecessors : ∀ n, g'.predecessors n = g.predecessors n) :
    g'.vertices = g.vertices := by
  refine Std.ExtTreeMap.ext_getElem? fun n => ?_
  show g'.get? n = g.get? n
  rw [h.get?_eq, h'.get?_eq, hformula, hsuccessors, hpredecessors]

/-- In a tidy graph each vertex has a formula or is stood for by a binding. -/
theorem Tidy.contains_iff (h : g.Tidy) : g.contains n = true ↔
    (g.formula? n).isSome ∨ ∃ id, id ∈ g.successors n := by
  rw [contains_eq, h.get?_eq]
  by_cases hf : (g.formula? n).isSome
  · simp [Option.isNone_eq_false_iff.2 hf, hf]
  · have hnone : (g.formula? n).isNone = true := by simpa using hf
    by_cases hs : (g.successors n).isEmpty
    · have hempty : g.successors n = ∅ := by simpa using hs
      simp [hnone, hf, hempty]
    · rw [hnone, Bool.true_and, if_neg hs]
      have hmem : ∃ id, id ∈ g.successors n := by
        simpa [Std.ExtTreeSet.eq_empty_iff_forall_not_mem] using hs
      simp [hmem]

section Lookups

@[simp]
theorem get?_outdated : g.outdated.get? n = g.get? n := rfl

@[simp]
theorem formula?_outdated : g.outdated.formula? n = g.formula? n := rfl

@[simp]
theorem predecessors_outdated : g.outdated.predecessors n = g.predecessors n := rfl

@[simp]
theorem successors_outdated : g.outdated.successors n = g.successors n := rfl

theorem get?_modify (f : Vertex → Vertex) :
    (g.modify n f).get? x = if x = n then (g.get? x).map f else g.get? x := by
  simp only [get?, modify, Std.ExtTreeMap.getElem?_modify, Std.LawfulEqCmp.compare_eq_iff_eq]
  by_cases h : x = n
  · rw [if_pos h, if_pos h.symm, h]
  · rw [if_neg h, if_neg (Ne.symm h)]

/-- What a change of a vertex leaves alone is found as before. -/
theorem map_get?_modify {α : Type} {look : Vertex → α} {f : Vertex → Vertex} (hf : ∀ v, look (f v) = look v) :
    ((g.modify n f).get? x).map look = (g.get? x).map look := by
  rw [get?_modify]
  split
  · cases g.get? x with
    | none => rfl
    | some v => exact congrArg some (hf v)
  · rfl

theorem formula?_modify {f : Vertex → Vertex} (hf : ∀ v, (f v).formula = v.formula) :
    (g.modify n f).formula? x = g.formula? x := by
  rw [formula?, formula?, get?_modify]
  split
  · cases g.get? x with
    | none => rfl
    | some v => exact hf v
  · rfl

theorem predecessors_modify {f : Vertex → Vertex} (hf : ∀ v, (f v).predecessors = v.predecessors) :
    (g.modify n f).predecessors x = g.predecessors x := by
  rw [predecessors, predecessors, map_get?_modify hf]

theorem successors_modify {f : Vertex → Vertex} (hf : ∀ v, (f v).successors = v.successors) :
    (g.modify n f).successors x = g.successors x := by
  rw [successors, successors, map_get?_modify hf]

theorem get?_update (f : Vertex → Vertex) :
    (g.update n f).get? x = if x = n then some (f ((g.get? x).getD {})) else g.get? x := by
  simp only [get?, update, Std.ExtTreeMap.getElem?_alter, Std.LawfulEqCmp.compare_eq_iff_eq]
  by_cases h : x = n
  · rw [if_pos h, if_pos h.symm, h]
  · rw [if_neg h, if_neg (Ne.symm h)]

theorem get?_erase : (g.erase n).get? x = if x = n then none else g.get? x := by
  simp only [get?, erase, Std.ExtTreeMap.getElem?_erase, Std.LawfulEqCmp.compare_eq_iff_eq]
  by_cases h : x = n
  · rw [if_pos h, if_pos h.symm]
  · rw [if_neg h, if_neg (Ne.symm h)]

theorem get?_prune : (g.prune n).get? x =
    if x = n ∧ ((g.get? n).map Vertex.isIdle).getD false = true then none else g.get? x := by
  unfold prune
  by_cases h : ((g.get? n).map Vertex.isIdle).getD false = true
  · rw [if_pos h, get?_outdated, get?_erase]
    simp [h]
  · rw [if_neg h]
    simp [h]

theorem formula?_erase : (g.erase n).formula? x = if x = n then none else g.formula? x := by
  rw [formula?, get?_erase]
  split <;> rfl

theorem successors_erase : (g.erase n).successors x = if x = n then ∅ else g.successors x := by
  rw [successors, get?_erase]
  split <;> rfl

theorem predecessors_erase :
    (g.erase n).predecessors x = if x = n then ∅ else g.predecessors x := by
  rw [predecessors, get?_erase]
  split <;> rfl

/-- Pruning takes out a vertex at most, and only one that has no formula and no successors. -/
theorem get?_prune_cases : (g.prune n).get? x = g.get? x ∨
    x = n ∧ (g.prune n).get? x = none ∧ g.formula? x = none ∧ g.successors x = ∅ := by
  rw [get?_prune]
  split
  next h =>
    obtain ⟨rfl, hidle⟩ := h
    cases hv : g.get? x with
    | none => exact .inl rfl
    | some v =>
      simp only [hv, Option.map_some, Option.getD_some, Vertex.isIdle, Bool.and_eq_true,
        Option.isNone_iff_eq_none, Std.ExtTreeSet.isEmpty_iff] at hidle
      exact .inr ⟨rfl, rfl, by rw [formula?, hv, Option.bind_some, hidle.1],
        by rw [successors, hv, Option.map_some, Option.getD_some, hidle.2]⟩
  next => exact .inl rfl

@[simp]
theorem formula?_prune : (g.prune n).formula? x = g.formula? x := by
  rcases get?_prune_cases with hsame | ⟨-, hnone, hF, -⟩
  · rw [formula?, hsame, formula?]
  · rw [formula?, hnone, hF, Option.bind_none]

@[simp]
theorem successors_prune : (g.prune n).successors x = g.successors x := by
  rcases get?_prune_cases with hsame | ⟨-, hnone, -, hempty⟩
  · rw [successors, hsame, successors]
  · rw [successors, hnone, hempty]
    rfl

/-- A pruned vertex has no formula, so it is not expected to read anything. -/
theorem predecessors_prune (h : g.formula? n = none → g.predecessors n = ∅) :
    (g.prune n).predecessors x = g.predecessors x := by
  rcases get?_prune_cases (g := g) (n := n) (x := x) with hsame | ⟨rfl, hnone, hF, -⟩
  · rw [predecessors, hsame, predecessors]
  · rw [predecessors, hnone, h hF]
    rfl

@[simp]
theorem formula?_addSuccessor : (g.addSuccessor n id).formula? x = g.formula? x := by
  rw [formula?, addSuccessor, get?_update]
  split
  · rw [formula?]
    cases g.get? x <;> rfl
  · rfl

@[simp]
theorem predecessors_addSuccessor : (g.addSuccessor n id).predecessors x = g.predecessors x := by
  rw [predecessors, addSuccessor, get?_update]
  split
  · rw [predecessors]
    cases g.get? x <;> rfl
  · rfl

theorem successors_addSuccessor : (g.addSuccessor n id).successors x =
    if x = n then (g.successors x).insert id else g.successors x := by
  rw [successors, addSuccessor, get?_update]
  split
  · rw [successors]
    cases g.get? x <;> rfl
  · rfl

@[simp]
theorem formula?_dropSuccessor : (g.dropSuccessor n id).formula? x = g.formula? x :=
  formula?_modify fun _ => rfl

@[simp]
theorem predecessors_dropSuccessor : (g.dropSuccessor n id).predecessors x = g.predecessors x :=
  predecessors_modify fun _ => rfl

theorem successors_dropSuccessor : (g.dropSuccessor n id).successors x =
    if x = n then (g.successors x).erase id else g.successors x := by
  rw [successors, dropSuccessor, get?_modify]
  split
  · rw [successors]
    cases g.get? x <;> simp
  · rfl

@[simp]
theorem formula?_addPredecessor {m : NodeId} :
    (g.addPredecessor n m).formula? x = g.formula? x :=
  formula?_modify fun _ => rfl

@[simp]
theorem successors_addPredecessor {m : NodeId} :
    (g.addPredecessor n m).successors x = g.successors x :=
  successors_modify fun _ => rfl

theorem predecessors_addPredecessor {m : NodeId} (h : g.contains n = true) :
    (g.addPredecessor n m).predecessors x =
      if x = n then (g.predecessors x).insert m else g.predecessors x := by
  rw [predecessors, addPredecessor, get?_modify]
  split
  next hx =>
    rw [contains_eq, ← hx] at h
    obtain ⟨v, hv⟩ := Option.isSome_iff_exists.1 h
    simp [predecessors, hv]
  next => rfl

theorem contains_addPredecessor {m : NodeId} :
    (g.addPredecessor n m).contains x = g.contains x := by
  rw [contains_eq, contains_eq, addPredecessor, get?_modify]
  split <;> simp

@[simp]
theorem formula?_resetPredecessors {r : Registry} :
    (g.resetPredecessors r n).formula? x = g.formula? x := by
  unfold resetPredecessors
  split
  · rfl
  · exact formula?_modify fun _ => rfl

@[simp]
theorem successors_resetPredecessors {r : Registry} :
    (g.resetPredecessors r n).successors x = g.successors x := by
  unfold resetPredecessors
  split
  · rfl
  · exact successors_modify fun _ => rfl

theorem predecessors_resetPredecessors {r : Registry} :
    (g.resetPredecessors r n).predecessors x =
      if x = n then ((g.formula? n).map (readings r)).getD (g.predecessors x)
      else g.predecessors x := by
  unfold resetPredecessors
  cases hF : g.formula? n with
  | none => simp
  | some F =>
    obtain ⟨v, hv, -⟩ := Option.bind_eq_some_iff.1 hF
    dsimp only
    rw [predecessors, get?_modify]
    by_cases hx : x = n
    · rw [if_pos hx, if_pos hx, hx, hv]
      rfl
    · rw [if_neg hx, if_neg hx]
      rfl

/-- What a formula reads is what its bindings stand for. -/
theorem mem_readings {r : Registry} {F : Formula} {m : NodeId} :
    m ∈ readings r F ↔ ∃ id ∈ F.bindings, r.Caches id m := by
  simp only [readings, Std.ExtTreeSet.mem_ofList, List.contains_iff_mem, List.mem_flatMap]
  refine exists_congr fun id => and_congr_right fun _ => ?_
  unfold Registry.Caches
  cases r.get? id <;> simp

end Lookups

section Tidying

variable {f : Vertex → Vertex}

/-- A change that leaves the reasons to be a vertex alone keeps a graph tidy. -/
theorem Tidy.modify (h : g.Tidy) (hf : ∀ v, (f v).isIdle = v.isIdle) : (g.modify n f).Tidy := by
  intro x v hv
  rw [get?_modify] at hv
  split at hv
  · obtain ⟨w, hw, rfl⟩ := Option.map_eq_some_iff.1 hv
    rw [hf]
    exact h x w hw
  · exact h x v hv

theorem Tidy.update (h : g.Tidy) (hf : ∀ v, (f v).isIdle = false) : (g.update n f).Tidy := by
  intro x v hv
  rw [get?_update] at hv
  split at hv
  · obtain rfl := Option.some.inj hv
    exact hf _
  · exact h x v hv

theorem Tidy.erase (h : g.Tidy) : (g.erase n).Tidy := by
  intro x v hv
  rw [get?_erase] at hv
  split at hv
  · simp at hv
  · exact h x v hv

theorem Tidy.prune (h : g.Tidy) : (g.prune n).Tidy := by
  intro x v hv
  rw [get?_prune] at hv
  split at hv
  · simp at hv
  · exact h x v hv

theorem Tidy.resetPredecessors (h : g.Tidy) {r : Registry} : (g.resetPredecessors r n).Tidy := by
  unfold Graph.resetPredecessors
  split
  · exact h
  · exact h.modify fun _ => rfl

theorem Tidy.addPredecessor (h : g.Tidy) {m : NodeId} : (g.addPredecessor n m).Tidy :=
  h.modify fun _ => rfl

theorem Tidy.addSuccessor (h : g.Tidy) : (g.addSuccessor n id).Tidy := by
  refine h.update fun v => ?_
  have hne : (v.successors.insert id).isEmpty = false := by simp
  simp [Vertex.isIdle, hne]

/-- Dropping a successor may leave one vertex without a reason, and pruning takes it out. -/
theorem Tidy.prune_of_but (h : ∀ x v, x ≠ n → g.get? x = some v → v.isIdle = false) :
    (g.prune n).Tidy := by
  intro x v hv
  rw [get?_prune] at hv
  by_cases hx : x = n
  · subst hx
    by_cases hidle : ((g.get? x).map Vertex.isIdle).getD false = true
    · rw [if_pos ⟨rfl, hidle⟩] at hv
      simp at hv
    · rw [if_neg fun hc => hidle hc.2] at hv
      simpa [hv] using hidle
  · rw [if_neg fun hc => hx hc.1] at hv
    exact h x v hx hv

end Tidying

end LiveForm.Graph
