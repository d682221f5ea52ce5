import LiveForm.Form.Listing
import LiveForm.Proofs.Form.Agreement
import LiveForm.Proofs.Tree.Handles

/-!
# A graph that is driven at will

The graph and the registry belong together whatever is done to them and to the tree beside them, in whatever order, and
whether it succeeds or not. It does not matter whether the graph is told of the changes of the tree.
-/

set_option autoImplicit false

namespace LiveForm

open Form

/-- What can be done to the graph of a form, and to the tree and the schedule beside it. -/
inductive Call where
  | edit (change : TreeEdit)
  | register (node : NodeId) (expression : Option String)
  | unregister (node : NodeId)
  | moveBindings (old : Path) (node : NodeId)
  | updateLinks (node : NodeId)
  | rename (old : Path) (node : NodeId)
  | valueChanged (node : NodeId)
  | rebuild (recompute : Bool)
  | recomputePending (order : VisitOrder)
  | recomputeAll
  | openScope (switch : Switch) (value : Bool)
  | closeScope (switch : Switch)

namespace Call

def run : Call → FormM Unit
  | edit change => FormM.editTree change.run
  | register node expression => Form.register node expression
  | unregister node => Form.unregister node
  | moveBindings old node => Form.moveBindings old node
  | updateLinks node => Form.updateLinks node
  | rename old node => Form.rename old node
  | valueChanged node => Form.valueChanged node
  | rebuild recompute => Form.rebuildGraph recompute
  | recomputePending order => discard (Form.recomputePendingBy order)
  | recomputeAll => discard Form.recomputeAll
  | openScope switch value => FormM.update fun f => { f with schedule := f.schedule.push switch value }
  | closeScope switch => FormM.update fun f => { f with schedule := f.schedule.pop switch }

/-- The form after some calls, each of which may succeed or fail. -/
def runAll (calls : List Call) (f : Form) : Form :=
  calls.foldl (fun f call => after call.run f) f

end Call

namespace Form

variable {f : Form}

/-- What the graph and the registry hold belongs together, and there is no circle. -/
structure Represented (f : Form) : Prop where
  successors : ∀ m id, id ∈ f.graph.successors m ↔ ∃ b, f.registry.get? id = some b ∧ m ∈ b.cache
  predecessors : ∀ n F, f.graph.formula? n = some F → ∀ m, m ∈ f.graph.predecessors n ↔
    ∃ id ∈ F.bindings, ∃ b, f.registry.get? id = some b ∧ m ∈ b.cache
  consumers : ∀ id b, f.registry.get? id = some b → b.consumers ≠ ∅ ∧
    ∀ c, c ∈ b.consumers ↔ ∃ F, f.graph.formula? c = some F ∧ id ∈ F.bindings
  needed : ∀ n, f.graph.contains n = true → (f.graph.formula? n).isSome ∨ f.graph.successors n ≠ ∅
  acyclic : ∀ n, ¬ Relation.TransGen (fun m n => m ∈ f.graph.predecessors n) n n
  leveled : ∃ listing g, leveledNodes f = .ok listing g
  exported : ∃ text g, graphText f = .ok text g

/-- What is kept of a form whose graph is driven at will. -/
structure Drivable (f : Form) : Prop where
  consistent : Consistent f
  handled : f.tree.Handled

theorem Drivable.ofSettings (s : Settings) : Drivable (Form.ofSettings s) := by
  have hempty (id : BindingId) : (Form.ofSettings s).registry.get? id = none := by
    simp [Form.ofSettings, Registry.get?]
  refine ⟨⟨coherent_of_empty (fun id b hb => ?_) hempty rfl, fun n hn => ?_, levelsRight_empty⟩, ?_⟩
  · simp [hempty] at hb
  · obtain ⟨_, ⟨_, ⟨b, hb, -⟩, -⟩, -⟩ := Relation.TransGen.head'_iff.1 hn
    simp [hempty] at hb
  · exact ⟨List.nodup_nil, List.not_mem_nil, Nat.succ_pos 0, fun x hx => absurd hx List.not_mem_nil⟩

/-- A steady form is as drivable as it was. -/
theorem Drivable.steady (h : Drivable f) {x : FormM Unit} (hx : Ends (x f)
    (fun _ => Steady f.tree.blank f.schedule) (fun _ => Steady f.tree.blank f.schedule)) : Drivable (after x f) := by
  have hg := hx.after
  exact ⟨hg.consistent, h.handled.of_blank hg.tree⟩

/-- One call. -/
theorem Drivable.call (h : Drivable f) (call : Call) : Drivable (after call.run f) := by
  have hs := Steady.start h.consistent
  cases call with
  | edit change =>
    refine Ends.after (FormM.ends_editTree (fun t ht => ?_) fun e he => h)
    exact ⟨h.consistent.congr rfl rfl h.consistent.levels, TreeEdit.handled h.handled ht⟩
  | register node expression => exact h.steady (Steady.register node expression f hs)
  | unregister node => exact h.steady (Steady.unregister node f hs)
  | moveBindings old node => exact h.steady (Steady.moveBindings old node f hs)
  | updateLinks node => exact h.steady (Steady.updateLinks node f hs)
  | rename old node => exact h.steady (Steady.rename old node f hs)
  | valueChanged node => exact h.steady (Steady.valueChanged node f hs)
  | rebuild recompute => exact h.steady (h.consistent.rebuildGraph h.handled.nodup h.handled.root recompute)
  | recomputePending order => exact h.steady (Preserves.discard Steady.recomputePendingBy f hs)
  | recomputeAll => exact h.steady (Preserves.discard Steady.recomputeAll f hs)
  | openScope switch value => exact ⟨h.consistent.congr rfl rfl h.consistent.levels, h.handled⟩
  | closeScope switch => exact ⟨h.consistent.congr rfl rfl h.consistent.levels, h.handled⟩

theorem Drivable.runAll (h : Drivable f) (calls : List Call) : Drivable (Call.runAll calls f) := by
  induction calls generalizing f with
  | nil => exact h
  | cons call rest ih => exact ih (h.call call)

/-- If graph and registry agree, all that they hold belongs together. -/
theorem Consistent.represented (h : Consistent f) : Represented f := by
  have hco := h.coherent
  have hpred {m n : NodeId} : m ∈ f.graph.predecessors n ↔ f.Feeds m n := hco.reads n not_false m
  obtain ⟨levels, -, hlevels⟩ := h.levels_ok
  refine ⟨fun m id => ?_, fun n F hF m => ?_, fun id b hb => ⟨?_, fun c => ?_⟩, fun n hn => ?_, fun n hn => ?_, ?_, ?_⟩
  · rw [hco.successors]
    simp [Registry.Caches]
  · rw [hpred]
    constructor
    · rintro ⟨id, hc, F', hF', hid⟩
      obtain rfl := Option.some.inj (hF.symm.trans hF')
      exact ⟨id, hid, hc⟩
    · rintro ⟨id, hid, hc⟩
      exact ⟨id, hc, F, hF, hid⟩
  · obtain ⟨c, hc⟩ := hco.used id b hb
    rintro hempty
    simp [hempty] at hc
  · have hserves : f.registry.Serves id c ↔ c ∈ b.consumers := by
      refine ⟨?_, fun hc => ⟨b, hb, hc⟩⟩
      rintro ⟨b', hb', hc⟩
      obtain rfl := Option.some.inj (hb.symm.trans hb')
      exact hc
    rw [← hserves, hco.consumers]
    simp [Graph.Uses]
  · refine (hco.tidy.contains_iff.1 hn).imp_right ?_
    rintro ⟨id, hid⟩ hempty
    simp [hempty] at hid
  · exact h.acyclic n (Relation.TransGen.mono (fun _ _ hm => hpred.1 hm) _ _ hn)
  · have heq : leveledNodes f = EStateM.bind Form.levels _ f := rfl
    rw [heq, EStateM.bind, hlevels]
    exact ⟨_, _, rfl⟩
  · have heq : graphText f = EStateM.bind Form.levels _ f := rfl
    rw [heq, EStateM.bind, hlevels]
    exact ⟨_, _, rfl⟩

/-- However the graph of a form is driven, whether its calls succeed or not, and whatever happens to the tree in
between: the links that its nodes, its bindings and the consumers of these hold are the same, nothing superfluous is
kept, and there is no circle, so the levels and the text of the graph can always be told. -/
theorem represented_runAll (s : Settings) (calls : List Call) : Represented (Call.runAll calls (Form.ofSettings s)) :=
  ((Drivable.ofSettings s).runAll calls).consistent.represented

end Form

end LiveForm
