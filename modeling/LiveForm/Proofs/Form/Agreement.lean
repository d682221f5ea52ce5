import LiveForm.Proofs.Form.Deriving
import LiveForm.Proofs.Form.Relinking

/-!
# The agreement of graph and registry

Whatever is reported to the graph, and whatever tree it is reported about, graph and registry agree afterwards and there is
no circle, whether the report is accepted or not. A report changes neither the schedule nor the tree but for the values
of formulas.
-/

set_option autoImplicit false

namespace LiveForm.Form

open Relation

variable {f g : Form} {n : NodeId} {id : BindingId} {t : FieldTree} {s : Schedule} {order : VisitOrder}

section Steps

theorem Synced.acyclic_all (h : Synced id f g) (hacyclic : f.Acyclic) : g.Acyclic := by
  rw [← acyclicBy_all] at hacyclic ⊢
  exact h.acyclic _ hacyclic

end Steps

/-- Graph and registry agree. The schedule and the tree, without the values of formulas, are known. -/
structure Steady (t : FieldTree) (s : Schedule) (f : Form) : Prop where
  consistent : Consistent f
  tree : f.tree.blank = t
  schedule : f.schedule = s

namespace Steady

theorem start (h : Consistent f) : Steady f.tree.blank f.schedule f :=
  ⟨h, rfl, rfl⟩

theorem beside (h : Steady t s f) (hcons : Consistent g) (hbeside : SameBeside f g) : Steady t s g :=
  ⟨hcons, by rw [hbeside.tree]; exact h.tree, hbeside.schedule.trans h.schedule⟩

theorem addPending (h : Steady t s f) (nodes : List NodeId) : Steady t s (f.addPending nodes) :=
  h.beside (h.consistent.congr rfl rfl h.consistent.levels) ⟨rfl, rfl, rfl, rfl⟩

theorem clearPending (h : Steady t s f) : Steady t s f.clearPending :=
  h.beside (h.consistent.congr rfl rfl h.consistent.levels) ⟨rfl, rfl, rfl, rfl⟩

theorem detach (h : Steady t s f) (n : NodeId) : Steady t s (f.detach n) := by
  obtain ⟨hcons, hdet⟩ := h.consistent.detach n
  exact h.beside hcons hdet.beside

theorem prune (h : Steady t s f) (n : NodeId) : Steady t s (f.prune n) :=
  h.beside (h.consistent.prune n) (h.consistent.coherent.prune n).2.beside

end Steady

section Recomputing

/-- Evaluating formulas changes nothing but their values. -/
theorem Steady.evaluate (h : Steady t s f) (n : NodeId) : Steady t s (f.evaluate n).2 := by
  unfold Form.evaluate
  split
  · exact h
  next F hF =>
    split
    next changed tree hset =>
      refine ⟨h.consistent.congr rfl rfl h.consistent.levels, ?_, h.schedule⟩
      unfold FieldTree.setFormulaValue FieldTree.require at hset
      cases hl : f.tree.locate? n with
      | none => simp [hl, bind, Except.bind] at hset
      | some l =>
        simp only [hl, bind, Except.bind, pure, Except.pure, Except.ok.injEq, Prod.mk.injEq] at hset
        obtain ⟨-, rfl⟩ := hset
        have hkeeps (node : Node) :
            ({ node with formulaValue := F.evaluateCached f.registry f.tree } : Node).blank = node.blank := rfl
        exact (FieldTree.blank_modify (t := f.tree) hkeeps n).trans h.tree
    · exact h

theorem Steady.evaluateAll (h : Steady t s f) (nodes : List NodeId) : Steady t s (f.evaluateAll nodes).2 := by
  unfold Form.evaluateAll
  generalize ({} : Report) = report
  induction nodes generalizing f report with
  | nil => exact h
  | cons n rest ih => exact ih (h.evaluate n) _

/-- Bringing a cache up to date changes links only, and tells the users of the binding. -/
theorem preserves_relinked_syncBy (f : Form) (mode : Refresh) (id : BindingId) :
    Preserves (fun g => Consistent g ∧ Relinked f g) (syncBy order mode id) := by
  rintro g ⟨hcons, hrel⟩
  cases hb : g.registry.get? id with
  | none =>
    rw [syncBy_of_none hb]
    exact ⟨hcons, hrel⟩
  | some b =>
    refine (hcons.coherent.syncBy_spec hb order).mono ?_ ?_
    · rintro _ g' ⟨hco, hsync, -⟩
      exact ⟨hcons.relinked hco hsync.acyclic_all hsync.levels, hrel.trans hsync.relinked⟩
    · rintro _ g' ⟨hco, hsync, -⟩
      exact ⟨hcons.relinked hco hsync.acyclic_all hsync.levels, hrel.trans hsync.relinked⟩

theorem Steady.syncBy (mode : Refresh) (id : BindingId) : Preserves (Steady t s) (syncBy order mode id) := fun f h =>
  (preserves_relinked_syncBy f mode id f ⟨h.consistent, .refl f⟩).mono (fun _ _ hg => h.beside hg.1 hg.2.beside)
    fun _ _ hg => h.beside hg.1 hg.2.beside

theorem Steady.levels : Preserves (Steady t s) levels := by
  intro f h
  obtain ⟨levels, hcompute, hlevels⟩ := h.consistent.levels_ok
  rw [hlevels]
  refine h.beside (h.consistent.congr rfl rfl fun levels' hlevels' => ?_) ⟨rfl, rfl, rfl, rfl⟩
  obtain rfl := Option.some.inj hlevels'
  refine Graph.computeLevels_congr ?_ ?_ hcompute <;> exact fun _ => rfl

theorem Steady.recomputePendingBy : Preserves (Steady t s) (recomputePendingBy order) := by
  intro f h
  unfold Form.recomputePendingBy
  split
  · exact h.clearPending
  next =>
    dsimp only
    have hsync := Preserves.forM (fun id => (Steady.syncBy f.cacheRefresh id : Preserves (Steady t s)
      (Form.syncBy order f.cacheRefresh id)))
      (order.bindings (f.bindingsUsed (f.affected f.seeds)).toList) f.clearPending h.clearPending
    split
    next hrun => exact (hsync.of_error hrun).addPending _
    next f' hrun =>
      have h' := hsync.of_ok hrun
      unfold evaluateAffected
      dsimp only
      have hlevels := Steady.levels _ h'.clearPending
      split
      next hrun' => exact (hlevels.of_error hrun').addPending _
      next levels f'' hrun' => exact (hlevels.of_ok hrun').evaluateAll _

theorem Steady.settle : Preserves (Steady t s) settle := by
  intro f h
  unfold Form.settle
  split
  · exact Preserves.discard Steady.recomputePendingBy f h
  · exact h

theorem Steady.recomputeAll : Preserves (Steady t s) recomputeAll :=
  Preserves.bind (FormM.preserves_update fun _ h => h.addPending _) fun _ => Steady.recomputePendingBy

theorem Steady.valueChanged (n : NodeId) : Preserves (Steady t s) (valueChanged n) := by
  refine Preserves.bind (FormM.preserves_update fun f h => ?_) fun _ => Steady.settle
  split
  · exact h.addPending _
  · exact h

end Recomputing

section Reports

theorem Steady.linkOnce (h : Steady t s f) (hid : (f.registry.get? id).isSome) : Ends (linkOnce n id f)
    (fun _ g => Steady t s g ∧ ∀ i, (g.registry.get? i).isSome = (f.registry.get? i).isSome)
    (fun _ g => Steady t s g) := by
  unfold Form.linkOnce
  split
  · exact ⟨h, fun _ => rfl⟩
  next =>
    refine FormM.ends_orUndo (h.consistent.coherent.link_spec.mono ?_ ?_)
    · rintro _ g ⟨rfl, hpath⟩
      exact ⟨h.beside (h.consistent.linked hid hpath) sameBeside_linked, fun i =>
        (h.consistent.coherent.relinked_linked hid).isSome_get?⟩
    · rintro _ g ⟨rfl, -⟩
      exact h.detach n

theorem Steady.attach (n : NodeId) (e : Option String) : Preserves (Steady t s) (attach n e) := by
  intro f h
  unfold Form.attach
  split
  · exact h
  split
  · exact h
  dsimp only
  generalize hf₀ : (if (f.graph.formula? n).isSome then f.detach n else f) = f₀
  have h₀ : Steady t s f₀ ∧ f₀.graph.formula? n = none := by
    rw [← hf₀]
    split
    next =>
      obtain ⟨-, hdet⟩ := h.consistent.detach n
      exact ⟨h.detach n, by rw [hdet.formula, if_pos rfl]⟩
    next hnone => exact ⟨h, by simpa using hnone⟩
  have hread : Ends ((e.forM (attachFormula n) : FormM Unit) f₀) (fun _ => Steady t s) (fun _ => Steady t s) := by
    cases e with
    | none => exact h₀.1
    | some text =>
      refine (h₀.1.consistent.attachFormula h₀.2 text).mono ?_ ?_
      · exact fun _ g ⟨hcons, hbeside⟩ => h₀.1.beside hcons hbeside
      · exact fun _ g ⟨hcons, hbeside⟩ => h₀.1.beside hcons hbeside
  refine Ends.bind (hread.mono ?_ fun _ _ he => he)
  rintro _ g hg
  refine Ends.bind (Ends.pure (Ends.bind ?_))
  -- The bindings that stand for the node are in the registry, and stay there.
  refine (Ends.forM (I := fun rest g' => Steady t s g' ∧ ∀ id ∈ rest, (g'.registry.get? id).isSome)
    ?_ ⟨hg, fun id hid => ?_⟩).mono ?_ fun _ _ he => he
  · rintro id rest g' ⟨hg', hsome⟩
    refine (hg'.linkOnce (n := n) (hsome id List.mem_cons_self)).mono ?_ fun _ _ he => he
    rintro _ g'' ⟨hg'', hsame⟩
    exact ⟨hg'', fun i hi => by rw [hsame]; exact hsome i (List.mem_cons_of_mem _ hi)⟩
  · obtain ⟨b, hb, -⟩ := Registry.mem_accepting.1 hid
    rw [hb]
    rfl
  · rintro _ g' ⟨hg', -⟩
    exact FormM.ends_update (hg'.prune n)

theorem Steady.whenUpdating {x : FormM Unit} (hx : Preserves (Steady t s) x) :
    Preserves (Steady t s) (whenUpdating x) := by
  intro f h
  unfold Form.whenUpdating
  split
  · exact hx f h
  · exact h

theorem Steady.register (n : NodeId) (e : Option String) : Preserves (Steady t s) (register n e) :=
  Steady.whenUpdating (Preserves.bind (Steady.attach n e) fun _ => Steady.settle)

theorem Steady.unregister (n : NodeId) : Preserves (Steady t s) (unregister n) :=
  Steady.whenUpdating (Preserves.bind (FormM.preserves_update fun _ h => h.detach n) fun _ => Steady.settle)

theorem Steady.moveBindings (old : Path) (n : NodeId) : Preserves (Steady t s) (moveBindings old n) := by
  refine Steady.whenUpdating (FormM.preserves_update fun f h => h.beside ⟨?_, fun x hx => h.consistent.acyclic x ?_,
    h.consistent.levels⟩ ⟨rfl, rfl, rfl, rfl⟩)
  · exact h.consistent.coherent.rekey old (f.tree.path n)
  · refine TransGen.mono (fun a b hab => ?_) _ _ hx
    obtain ⟨id, hc, hu⟩ := hab
    exact ⟨id, Registry.caches_rekey.1 hc, hu⟩

theorem Steady.resetPredecessors (h : Steady t s f) (n : NodeId) :
    Steady t s ((f.resetPredecessors n).addPending [n]) := by
  obtain ⟨hco, hrel, hlevels⟩ := h.consistent.coherent.resetPredecessors_spec n
  refine h.beside ⟨hco, fun x hx => h.consistent.acyclic x ?_, hlevels h.consistent.levels⟩ hrel.beside
  refine TransGen.mono (fun a b hab => ?_) _ _ hx
  obtain ⟨id, hc, hu⟩ := hab
  exact ⟨id, hc, hrel.uses.1 hu⟩

theorem Steady.relinkFormula (n : NodeId) : Preserves (Steady t s) (relinkFormula n) := by
  intro f h
  unfold Form.relinkFormula
  split
  · exact h
  next F hF =>
    refine Preserves.bind (Preserves.forM (fun id => Steady.syncBy .fromScratch id) F.bindings)
      (fun _ => FormM.preserves_update fun g hg => ?_) f h
    exact hg.resetPredecessors n

theorem Steady.relinkNode (n : NodeId) : Preserves (Steady t s) (relinkNode n) := by
  intro f h
  refine h.consistent.coherent.relinkNode_spec.mono ?_ ?_
  · rintro _ g ⟨hgroup, -⟩
    exact h.beside (hgroup.consistent h.consistent) hgroup.relinked.beside
  · rintro _ g ⟨hgroup, -⟩
    exact h.beside (hgroup.consistent h.consistent) hgroup.relinked.beside

theorem Steady.relink (n : NodeId) : Preserves (Steady t s) (relink n) := by
  intro f h
  unfold Form.relink
  split
  · exact h
  next =>
    refine Preserves.bind (Steady.relinkFormula n) (fun _ => Preserves.bind (Steady.relinkNode n) fun _ =>
      FormM.preserves_update fun g hg => ?_) f h
    have hp := hg.prune n
    exact hp.beside (hp.consistent.congr rfl rfl (Graph.levelsRight_of_none rfl)) ⟨rfl, rfl, rfl, rfl⟩

theorem Steady.updateLinks (n : NodeId) : Preserves (Steady t s) (updateLinks n) :=
  Steady.whenUpdating (Preserves.bind (Steady.relink n) fun _ => Steady.settle)

theorem Steady.rename (old : Path) (n : NodeId) : Preserves (Steady t s) (rename old n) :=
  Preserves.bind (Steady.moveBindings old n) fun _ => Steady.updateLinks n

end Reports

section Rebuilding

/-- Deriving the graph anew, with or without the recomputation behind it. -/
theorem Consistent.rebuildGraph (h : Consistent f) (hnodup : f.tree.fields.ids.Nodup)
    (hroot : rootId ∉ f.tree.fields.ids) (recompute : Bool) : Ends (rebuildGraph recompute f)
      (fun _ => Steady f.tree.blank f.schedule) (fun _ => Steady f.tree.blank f.schedule) := by
  obtain ⟨hfresh, hempty⟩ := h.coherent.clear
  have hcleared : Steady f.tree.blank f.schedule f.clear := by
    obtain ⟨hcons, hbeside⟩ := h.coherent.clear_spec
    exact (Steady.start h).beside hcons hbeside
  unfold Form.rebuildGraph
  refine Ends.bind (FormM.ends_update (Ends.bind (FormM.ends_orUndo ?_)))
  refine (derive_consistent (f := f.clear) hfresh hempty rfl hnodup hroot).mono ?_ ?_
  · rintro _ g ⟨hcons, hbeside⟩
    have hg := hcleared.beside hcons hbeside
    split
    · exact Preserves.discard Steady.recomputePendingBy g hg
    · exact hg
  · rintro _ g ⟨hco, hbeside⟩
    obtain ⟨hcons, hbeside'⟩ := hco.clear_spec
    exact hcleared.beside hcons (hbeside.trans hbeside')

end Rebuilding

end LiveForm.Form
