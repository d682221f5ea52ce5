import LiveForm.Proofs.Form.Likeness
import LiveForm.Proofs.Form.Removal
import LiveForm.Proofs.Form.Extension

/-!
# Edits of two forms at once

The same edit of two forms that are alike comes to the same end, and the forms stay alike, although the one may recompute
at once what the other one leaves pending. While an edit is under way neither of them recomputes anything, so the two runs
go in lockstep. What follows the edit succeeds, and does nothing that matters.
-/

set_option autoImplicit false

namespace LiveForm.Form

variable {s s' : Schedule} {f f' g g' : Form} {array parent template node id : NodeId} {key : Step} {kind : Kind}
  {formula : Option String}

/-- Both of two forms keep their graphs up to date, or none of them does, and neither of them recomputes anything. -/
structure Resting (s s' : Schedule) : Prop where
  updating : s'.isSet .updateGraph = s.isSet .updateGraph
  left : s.isSet .recomputeEagerly = false
  right : s'.isSet .recomputeEagerly = false

/-- Two forms are alike, and their graphs are empty if they are not kept up to date. -/
structure Paired (s s' : Schedule) (f g : Form) : Prop extends Alike s s' f g where
  unfilled : s.isSet .updateGraph = false → f.graph.vertices = ∅

namespace Paired

theorem withTree (h : Paired s s' f g) {t t' : FieldTree} (htree : t'.unevaluated = t.unevaluated) :
    Paired s s' (f.withTree t) (g.withTree t') :=
  ⟨⟨htree, h.registry, h.vertices, h.left, h.right⟩, h.unfilled⟩

theorem query (h : Paired s s' f g) {β : Type} (q : FieldTree → β) (hq : ∀ t : FieldTree, q t.unevaluated = q t) :
    q g.tree = q f.tree :=
  FieldTree.query_eq q hq h.tree

theorem onTree {α : Type} {action : FieldTree → Except FormError (α × FieldTree)}
    (haction : FieldTree.Oblivious action) : Lockstep (Paired s s') (FormM.onTree action) :=
  FormM.lockstep_onTree haction (fun _ _ h => h.tree) fun _ _ _ _ h htree => h.withTree htree

theorem dropSubtree (h : Paired s s' f g) (id : NodeId) : Paired s s' (f.dropSubtree id) (g.dropSubtree id) := by
  unfold Form.dropSubtree
  rw [FieldTree.removeSubtree_eq, FieldTree.removeSubtree_eq, h.query (·.contains id) (·.contains_unevaluated id)]
  split_ifs
  · exact h
  · exact h.withTree (by rw [FieldTree.unevaluated_without, FieldTree.unevaluated_without, h.tree])
  · exact h

theorem templateOf (array : NodeId) : Lockstep (Paired s s') (Form.templateOf array) := by
  intro f g h
  unfold Form.templateOf
  rw [h.query (·.template? array) (·.template?_unevaluated array), h.path]
  split
  · exact ⟨rfl, h⟩
  · exact ⟨rfl, h⟩

theorem expectArray (id : NodeId) : Lockstep (Paired s s') (Form.expectArray id) := by
  intro f g h
  unfold Form.expectArray
  rw [h.query (fun t => (t.get? id).map (·.kind)) (·.kind_unevaluated id), h.path]
  split
  · exact ⟨rfl, h⟩
  · exact ⟨rfl, h⟩

theorem resolve (path : String) : Lockstep (Paired s s') (Form.resolve path) := by
  intro f g h
  unfold Form.resolve
  split
  · exact ⟨rfl, h⟩
  next p _ =>
    rw [h.query (·.find? p) (·.find?_unevaluated p)]
    split
    · exact ⟨rfl, h⟩
    · exact ⟨rfl, h⟩

end Paired

section Reports

variable (hrest : Resting s s')

include hrest

/-- Nothing is recomputed in the course of an edit. -/
theorem Alike.settle : Lockstep (Alike s s') Form.settle := by
  intro f g h
  have hf : f.isSet .recomputeEagerly = false := by rw [isSet, h.left, hrest.left]
  have hg : g.isSet .recomputeEagerly = false := by rw [isSet, h.right, hrest.right]
  unfold Form.settle
  rw [hf, hg]
  exact ⟨rfl, h⟩

namespace Paired

theorem whenUpdating {x : FormM Unit} (hx : Lockstep (Alike s s') x) : Lockstep (Paired s s') (Form.whenUpdating x) := by
  intro f g h
  have hset : g.isSet .updateGraph = f.isSet .updateGraph := by rw [isSet, isSet, h.left, h.right, hrest.updating]
  unfold Form.whenUpdating
  rw [hset]
  split
  next hon =>
    have hfilled (hoff : s.isSet .updateGraph = false) : False := by
      rw [isSet, h.left, hoff] at hon
      cases hon
    exact (hx f g h.toAlike).mono (fun _ _ _ h' => ⟨h', fun hoff => (hfilled hoff).elim⟩)
      fun _ _ _ h' => ⟨h', fun hoff => (hfilled hoff).elim⟩
  · exact ⟨rfl, h⟩

theorem register (node : NodeId) (expression : Option String) :
    Lockstep (Paired s s') (Form.register node expression) :=
  whenUpdating hrest ((Alike.attach node expression).bind fun _ => Alike.settle hrest)

theorem unregister (node : NodeId) : Lockstep (Paired s s') (Form.unregister node) :=
  whenUpdating hrest ((FormM.lockstep_update fun _ _ h => h.detach node).bind fun _ => Alike.settle hrest)

theorem rename (old : Path) (node : NodeId) : Lockstep (Paired s s') (Form.rename old node) := by
  have hmove : Lockstep (Paired s s') (Form.moveBindings old node) := by
    refine whenUpdating hrest (FormM.lockstep_update fun f g h => ?_)
    rw [h.path, h.registry]
    exact h.withRegistry _
  exact hmove.bind fun _ => whenUpdating hrest ((Alike.relink node).bind fun _ => Alike.settle hrest)

theorem nodeAdded (id : NodeId) : Lockstep (Paired s s') (Form.nodeAdded id) := by
  intro f g h
  have hlocate : (g.tree.locate? id).map Located.unevaluated = (f.tree.locate? id).map Located.unevaluated := by
    rw [← FieldTree.locate?_unevaluated, h.tree, FieldTree.locate?_unevaluated]
  unfold Form.nodeAdded
  cases hf : f.tree.locate? id <;> cases hg : g.tree.locate? id <;> rw [hf, hg] at hlocate
  case none.none => exact ⟨rfl, h⟩
  case some.some l l' =>
    have heq : l'.unevaluated = l.unevaluated := Option.some.inj hlocate
    have hkind : l'.node.kind = l.node.kind := by
      simpa [Located.unevaluated] using congrArg (·.node.kind) heq
    have hformula : l'.node.formula = l.node.formula := by
      simpa [Located.unevaluated] using congrArg (·.node.formula) heq
    have htemplate : l'.inTemplate = l.inTemplate := congrArg (·.inTemplate) heq
    dsimp only
    rw [hkind, hformula, htemplate]
    split
    · exact ⟨rfl, h⟩
    · exact register hrest id _ f g h
  all_goals cases hlocate

theorem discardSubtree (id : NodeId) : Lockstep (Paired s s') (Form.discardSubtree id) := by
  intro f g h
  refine Both.get ?_
  rw [h.query (·.postorderFrom id) (·.postorderFrom_unevaluated id)]
  exact Lockstep.bind (Lockstep.forM (unregister hrest) _)
    (fun _ => (onTree (FieldTree.oblivious_removeSubtree id)).discard) f g h

theorem discardAll (nodes : List NodeId) : Lockstep (Paired s s') (nodes.forM Form.discardSubtree) :=
  Lockstep.forM (discardSubtree hrest) nodes

theorem nodesAdded (created : List NodeId) : Lockstep (Paired s s') (Form.nodesAdded created) := by
  intro f g h
  refine FormM.both_recover (k := fun f => .ok () f) ((Lockstep.forM (nodeAdded hrest) created f g h).mono ?_ ?_)
  · exact fun _ _ _ h' => ⟨rfl, h'⟩
  · exact fun _ f' g' h' => discardAll hrest (created.take 1) f' g' h'

theorem insertNode (h : Paired s s' f g) (hf : f.tree.WellFormed) (hg : g.tree.WellFormed) :
    Both (Form.insertNode parent key kind formula f) (Form.insertNode parent key kind formula g)
      (fun _ => Paired s s') fun _ => Paired s s' := by
  rw [insertNode_eq hf, insertNode_eq hg, h.path, h.query (·.checkInsert parent key) (·.checkInsert_unevaluated parent key),
    h.query (·.next) fun _ => rfl]
  split
  · split
    · refine Lockstep.bind (FormM.lockstep_orUndo (nodeAdded hrest _) fun _ _ h' => h'.dropSubtree _)
        (fun _ => Lockstep.pure _) _ _ (h.withTree ?_)
      rw [FieldTree.unevaluated_withNew, FieldTree.unevaluated_withNew, h.tree]
    · exact ⟨rfl, h⟩
  · exact ⟨rfl, h⟩

theorem tryElement (array template : NodeId) : Lockstep (Paired s s') (Form.tryElement array template) := by
  intro f g h
  refine Both.get ?_
  rw [h.query (nextIndex · array) (nextIndex_unevaluated · array)]
  exact Lockstep.bind (onTree (FieldTree.oblivious_copySubtree _ _ _)) (fun created =>
    (nodesAdded hrest created).bind fun _ => discardAll hrest (created.take 1)) f g h

theorem copyIntoElements (source : NodeId) (key : Step) (copies elements : List NodeId) :
    Lockstep (Paired s s') (Form.copyIntoElements source key copies elements) := by
  induction elements generalizing copies with
  | nil => exact Lockstep.pure _
  | cons element rest ih =>
    refine Lockstep.bind (onTree (FieldTree.oblivious_copySubtree source element key)) fun created f g h => ?_
    refine FormM.both_recover ((nodesAdded hrest created f g h).mono ?_ ?_)
    · exact fun _ f' g' h' => ih _ f' g' h'
    · exact fun _ f' g' h' => discardAll hrest copies f' g' h'

/-- A node is added to the template of an array and to its elements. -/
theorem extend (h : Paired s s' f g) (hf : f.tree.WellFormed) (hg : g.tree.WellFormed) :
    let x : FormM NodeId := do
      let id ← Form.insertNode template key kind formula
      let elements := ((← get).tree.elements array).map Prod.snd
      let copying : FormM Unit :=
        if elements.isEmpty then Form.tryElement array template
        else Form.copyIntoElements id key [] elements
      FormM.orUndo copying (·.dropSubtree id)
      return id
    Both (x f) (x g) (fun _ => Paired s s') fun _ => Paired s s' := by
  refine Both.bind ((h.insertNode hrest hf hg).mono ?_ fun _ _ _ h' => h')
  intro id f' g' h'
  refine Both.get ?_
  rw [h'.query (·.elements array) (·.elements_unevaluated array)]
  refine Lockstep.bind (FormM.lockstep_orUndo ?_ fun _ _ hfg => hfg.dropSubtree id) (fun _ => Lockstep.pure _) f' g' h'
  split
  · exact tryElement hrest array template
  · exact copyIntoElements hrest id key [] _

/-- A copy of a template is added to its array. -/
theorem pushCopy (template array : NodeId) (key : Step) : Lockstep (Paired s s') (do
    let created ← FormM.onTree (·.copySubtree template array key)
    Form.nodesAdded created
    return created.headD rootId : FormM NodeId) :=
  Lockstep.bind (onTree (FieldTree.oblivious_copySubtree _ _ _)) fun created =>
    (nodesAdded hrest created).bind fun _ => Lockstep.pure _

theorem renameSubtree (id : NodeId) (key : Step) : Lockstep (Paired s s') (Form.renameSubtree id key) := by
  intro f g h
  refine Both.get ?_
  rw [h.query (·.preorderFrom id) (·.preorderFrom_unevaluated id), funext h.path]
  refine Lockstep.bind (onTree (FieldTree.oblivious_rekey id key)).discard (fun _ => Lockstep.forM ?_ _) f g h
  rintro ⟨node, old⟩
  exact rename hrest old node

/-- An element is removed, and those behind it move up. -/
theorem discardElement (element array : NodeId) (index : Int) : Lockstep (Paired s s') (do
    Form.discardSubtree element
    let later := ((← get).tree.elements array).filter fun entry => index < entry.1
    later.forM fun (i, id) => Form.renameSubtree id (.index (i - 1)) : FormM Unit) := by
  refine (discardSubtree hrest element).bind fun _ f g h => Both.get ?_
  rw [h.query (·.elements array) (·.elements_unevaluated array)]
  refine Lockstep.forM ?_ _ f g h
  rintro ⟨i, id⟩
  exact renameSubtree hrest id (.index (i - 1))

end Paired

end Reports

section Following

/-- Following up what is pending succeeds, and does nothing that matters. -/
def Recomputable (f : Form) : Prop :=
  ∃ report g, recomputePending f = .ok report g ∧ Alike f.schedule f.schedule f g

/-- Each of two forms may be replaced by one that is like it. -/
theorem Alike.replace (h : Alike s s' f g) (hf : Alike f.schedule f.schedule f f')
    (hg : Alike g.schedule g.schedule g g') : Alike s s' f' g' where
  tree := by rw [hg.tree, h.tree, hf.tree]
  registry := by rw [hg.registry, h.registry, hf.registry]
  vertices := by rw [hg.vertices, h.vertices, hf.vertices]
  left := hf.right.trans h.left
  right := hg.right.trans h.right

/-- Only formulas outside templates are evaluated. -/
theorem Tracking.recomputable (h : Tracking f) : Recomputable f := by
  obtain ⟨f₀, report, g, hrun, hclear, hreported, hevaluated⟩ := h.recomputePendingBy .ascending
  have hval := hreported.valued
  refine ⟨report, g, hrun, ?_, ?_, ?_, rfl, ?_⟩
  · refine FieldTree.unevaluated_eq h.keyed (by rw [hval.blank, hclear.beside.tree]) fun x p hp hoff => ?_
    rw [hval.others x fun hmem => ?_, hclear.beside.tree, hp]
    obtain ⟨F, hF⟩ := Option.isSome_iff_exists.1 ((hevaluated x).1 hmem).2.2
    obtain ⟨e, ⟨q, hq, hlive, he⟩, -⟩ := h.follows.reads x F hF
    obtain rfl := Option.some.inj (hq.symm.trans hp)
    simp [hlive, he] at hoff
  · rw [hval.same]
    exact hclear.registry
  · rw [hval.same]
    exact hclear.vertices
  · rw [hval.same]
    exact hclear.beside.schedule

/-- If the graph is empty there is nothing to follow up. -/
theorem recomputePending_of_empty (h : f.graph.vertices = ∅) : recomputePending f = .ok {} f.clearPending := by
  have hseeds : f.seeds.isEmpty = true := by
    rw [Std.ExtTreeSet.isEmpty_iff, Std.ExtTreeSet.eq_empty_iff_forall_not_mem]
    intro n hn
    simp [seeds, Graph.contains, h] at hn
  unfold Form.recomputePending Form.recomputePendingBy
  rw [if_pos hseeds]

theorem recomputable_of_empty (h : f.graph.vertices = ∅) : Recomputable f :=
  ⟨{}, f.clearPending, recomputePending_of_empty h, rfl, rfl, rfl, rfl, rfl⟩

theorem Recomputable.discard (h : Recomputable f) :
    ∃ g, (discard recomputePending : FormM Unit) f = .ok () g ∧ Alike f.schedule f.schedule f g := by
  obtain ⟨report, g, hrun, hlike⟩ := h
  exact ⟨g, bind_of_ok hrun, hlike⟩

theorem Recomputable.settle (h : Recomputable f) :
    ∃ g, Form.settle f = .ok () g ∧ Alike f.schedule f.schedule f g := by
  unfold Form.settle
  split
  · exact h.discard
  · exact ⟨f, rfl, .refl f⟩

namespace Paired

theorem replace (h : Paired s s' f g) (hf : Alike f.schedule f.schedule f f') (hg : Alike g.schedule g.schedule g g') :
    Paired s s' f' g' :=
  ⟨h.toAlike.replace hf hg, fun hoff => hf.vertices.trans (h.unfilled hoff)⟩

theorem recomputable (h : Paired s s' f g) (hf : s.isSet .updateGraph = true → Settled f)
    (hg : s.isSet .updateGraph = true → Settled g) : Recomputable f ∧ Recomputable g := by
  cases hon : s.isSet .updateGraph with
  | true => exact ⟨(hf hon).tracking.recomputable, (hg hon).tracking.recomputable⟩
  | false =>
    have hempty := h.unfilled hon
    exact ⟨recomputable_of_empty hempty, recomputable_of_empty (h.vertices.trans hempty)⟩

theorem paused (h : Paired s s' f g) :
    Paired (s.push .recomputeEagerly false) (s'.push .recomputeEagerly false) f.paused g.paused :=
  ⟨⟨h.tree, h.registry, h.vertices, congrArg (·.push .recomputeEagerly false) h.left,
    congrArg (·.push .recomputeEagerly false) h.right⟩, h.unfilled⟩

theorem resumed (h : Paired (s.push .recomputeEagerly false) (s'.push .recomputeEagerly false) f g) :
    Paired s s' f.resumed g.resumed :=
  ⟨⟨h.tree, h.registry, h.vertices,
    (congrArg (·.pop .recomputeEagerly) h.left).trans (Schedule.pop_push s .recomputeEagerly false),
    (congrArg (·.pop .recomputeEagerly) h.right).trans (Schedule.pop_push s' .recomputeEagerly false)⟩, h.unfilled⟩

/-- An edit with what follows it. -/
theorem batch {α : Type} {x : FormM α}
    (hx : Both (x f.paused) (x g.paused)
      (fun _ => Paired (s.push .recomputeEagerly false) (s'.push .recomputeEagerly false))
      fun _ => Paired (s.push .recomputeEagerly false) (s'.push .recomputeEagerly false))
    (hf : s.isSet .updateGraph = true → Ends (x f.paused) (fun _ => Settled) fun _ _ => True)
    (hg : s.isSet .updateGraph = true → Ends (x g.paused) (fun _ => Settled) fun _ _ => True) :
    Both (Form.batch x f) (Form.batch x g) (fun _ => Paired s s') fun _ => Paired s s' := by
  have hafter : Both (x f.paused) (x g.paused)
      (fun _ f' g' => Paired s s' f'.resumed g'.resumed ∧ Recomputable f'.resumed ∧ Recomputable g'.resumed)
      fun _ f' g' => Paired s s' f'.resumed g'.resumed := by
    cases hon : s.isSet .updateGraph with
    | true =>
      refine (hx.and_ends (hf hon) (hg hon)).mono ?_ fun _ _ _ h' => h'.1.resumed
      rintro _ f' g' ⟨h', hf', hg'⟩
      exact ⟨h'.resumed, h'.resumed.recomputable (fun _ => hf'.withSchedule _) fun _ => hg'.withSchedule _⟩
    | false =>
      refine hx.mono (fun _ _ _ h' => ⟨h'.resumed, h'.resumed.recomputable ?_ ?_⟩) fun _ _ _ h' => h'.resumed
      · simp [hon]
      · simp [hon]
  unfold Form.batch
  refine Both.get (Both.bind (both_inScope (hafter.mono ?_ fun _ _ _ h' => h')))
  rintro a f' g' ⟨h', hf', hg'⟩
  -- What follows the edit of a single form.
  have htail (eager : Bool) {k : Form} (hk : Recomputable k) :
      ∃ k', (if eager = true then do discard recomputePending; pure a else pure a : FormM α) k = .ok a k' ∧
        Alike k.schedule k.schedule k k' := by
    cases eager with
    | true =>
      obtain ⟨k', hrun, hlike⟩ := hk.discard
      exact ⟨k', bind_of_ok hrun, hlike⟩
    | false => exact ⟨k, rfl, .refl k⟩
  obtain ⟨f'', hrun, hlike⟩ := htail (f.isSet .recomputeEagerly) hf'
  obtain ⟨g'', hrun', hlike'⟩ := htail (g.isSet .recomputeEagerly) hg'
  exact (congrArg₂ (Both · · (fun _ => Paired s s') fun _ => Paired s s') hrun hrun').mpr
    ⟨rfl, h'.replace hlike hlike'⟩

theorem settle (h : Paired s s' f g) (hf : s.isSet .updateGraph = true → Settled f)
    (hg : s.isSet .updateGraph = true → Settled g) :
    Both (Form.settle f) (Form.settle g) (fun _ => Paired s s') fun _ => Paired s s' := by
  obtain ⟨hf', hg'⟩ := h.recomputable hf hg
  obtain ⟨f'', hrun, hlike⟩ := hf'.settle
  obtain ⟨g'', hrun', hlike'⟩ := hg'.settle
  rw [hrun, hrun']
  exact ⟨rfl, h.replace hlike hlike'⟩

end Paired

end Following

section Edits

/-- What is known of a form between two edits: its graph follows the tree, unless it is not kept up to date. -/
structure Ready (f : Form) : Prop where
  tree : f.tree.WellFormed
  sound : f.isSet .updateGraph = true → Sound f

theorem Sound.ready (h : Sound f) : Ready f :=
  ⟨h.settled.current.tree, fun _ => h⟩

section Lookups

variable {α : Type}

/-- Both forms find the same node at a path. -/
theorem Paired.resolve_bind (h : Paired s s' f g) {path : String} {k : NodeId → FormM α}
    (hk : ∀ id, Both (k id f) (k id g) (fun _ => Paired s s') fun _ => Paired s s') :
    Both ((Form.resolve path >>= k) f) ((Form.resolve path >>= k) g) (fun _ => Paired s s') fun _ => Paired s s' := by
  refine Both.bind (((resolve path f g h).and_ends (ends_resolve path) (ends_resolve path)).mono ?_ fun _ _ _ h' => h'.1)
  rintro id _ _ ⟨-, ⟨rfl, -⟩, rfl, -⟩
  exact hk id

theorem Paired.expectArray_bind (h : Paired s s' f g) {k : Unit → FormM α}
    (hk : (f.tree.get? array).map (·.kind) = some .array → (g.tree.get? array).map (·.kind) = some .array →
      Both (k () f) (k () g) (fun _ => Paired s s') fun _ => Paired s s') :
    Both ((Form.expectArray array >>= k) f) ((Form.expectArray array >>= k) g) (fun _ => Paired s s')
      fun _ => Paired s s' := by
  refine Both.bind (((expectArray array f g h).and_ends ends_expectArray ends_expectArray).mono ?_ fun _ _ _ h' => h'.1)
  rintro _ _ _ ⟨-, ⟨rfl, harray⟩, rfl, harray'⟩
  exact hk harray harray'

theorem Paired.templateOf_bind (h : Paired s s' f g) {k : NodeId → FormM α}
    (hk : ∀ template, f.tree.template? array = some template → g.tree.template? array = some template →
      Both (k template f) (k template g) (fun _ => Paired s s') fun _ => Paired s s') :
    Both ((Form.templateOf array >>= k) f) ((Form.templateOf array >>= k) g) (fun _ => Paired s s')
      fun _ => Paired s s' := by
  refine Both.bind (((templateOf array f g h).and_ends ends_templateOf ends_templateOf).mono ?_ fun _ _ _ h' => h'.1)
  rintro template _ _ ⟨-, ⟨rfl, htemplate⟩, rfl, htemplate'⟩
  exact hk template htemplate htemplate'

end Lookups

/-- Entering a value at a field comes to following it up. -/
theorem setValueAt_eq {value : Value} (hfield : (f.tree.get? id).map (·.kind) = some .field) :
    Form.setValueAt id value f = Form.settle ((f.withTree (f.tree.modify id fun n => { n with value })).touched id) := by
  have hset : FormM.editTree (·.setValue id value) f = .ok () (f.withTree (f.tree.modify id fun n => { n with value })) := by
    cases hl : f.tree.locate? id with
    | none => simp [FieldTree.get?, hl] at hfield
    | some l =>
      simp only [FormM.editTree, FormM.onTree, FieldTree.setValue, FieldTree.require, hl]
      rfl
  unfold Form.setValueAt
  rw [if_pos hfield]
  exact bind_of_ok hset

theorem exists_place?_of_kind {t : FieldTree} (h : (t.get? id).map (·.kind) = some kind) :
    ∃ p, t.place? id = some p ∧ p.node.kind = kind := by
  rw [FieldTree.get?_eq, Option.map_map, Option.map_eq_some_iff] at h
  exact h

namespace Paired

variable (h : Paired s s' f g) (hsame : s'.isSet .updateGraph = s.isSet .updateGraph) (hf : Ready f) (hg : Ready g)
  {name : String} {value : Value}

include h hf in
theorem sound_left (hon : s.isSet .updateGraph = true) : Sound f :=
  hf.sound (by rw [isSet, h.left, hon])

include h hsame hg in
theorem sound_right (hon : s.isSet .updateGraph = true) : Sound g :=
  hg.sound (by rw [isSet, h.right, hsame, hon])

include hsame in
theorem resting : Resting (s.push .recomputeEagerly false) (s'.push .recomputeEagerly false) :=
  ⟨hsame, rfl, rfl⟩

include h hsame hf hg

theorem setValueAt : Both (Form.setValueAt id value f) (Form.setValueAt id value g) (fun _ => Paired s s')
    fun _ => Paired s s' := by
  have hkind := h.query (fun t => (t.get? id).map (·.kind)) (·.kind_unevaluated id)
  by_cases hfield : (f.tree.get? id).map (·.kind) = some .field
  · rw [setValueAt_eq hfield, setValueAt_eq (hkind.trans hfield)]
    have hentered : Paired s s' (f.withTree (f.tree.modify id fun n => { n with value }))
        (g.withTree (g.tree.modify id fun n => { n with value })) :=
      h.withTree (by rw [FieldTree.unevaluated_enter, FieldTree.unevaluated_enter, h.tree])
    have htouched : Paired s s' ((f.withTree (f.tree.modify id fun n => { n with value })).touched id)
        ((g.withTree (g.tree.modify id fun n => { n with value })).touched id) := by
      rw [touched_eq, touched_eq (g.withTree _)]
      exact ⟨⟨hentered.tree, hentered.registry, hentered.vertices, hentered.left, hentered.right⟩, hentered.unfilled⟩
    exact htouched.settle (fun hon => ((h.sound_left hf hon).entered id value).sound.settled)
      fun hon => ((h.sound_right hsame hg hon).entered id value).sound.settled
  · unfold Form.setValueAt
    rw [if_neg hfield, if_neg (hkind ▸ hfield), h.path]
    exact ⟨rfl, h⟩

theorem addUnderGroup : Both (Form.batch (Form.insertNode parent key kind formula) f)
    (Form.batch (Form.insertNode parent key kind formula) g) (fun _ => Paired s s') fun _ => Paired s s' := by
  have hset {k : Form} (hk : Sound k) : Ends (Form.insertNode parent key kind formula k.paused) (fun _ => Settled)
      fun _ _ => True :=
    ((hk.settled.withSchedule _).insertNode (quiet_paused hk.updating)).mono (fun _ _ hk' => hk'.2.2.2.1)
      fun _ _ _ => trivial
  exact batch (h.paused.insertNode (resting hsame) hf.tree hg.tree) (fun hon => hset (h.sound_left hf hon))
    fun hon => hset (h.sound_right hsame hg hon)

theorem extendArray (harray : (f.tree.get? array).map (·.kind) = some .array) :
    Both (Form.extendArray array (.name name) kind formula f) (Form.extendArray array (.name name) kind formula g)
      (fun _ => Paired s s') fun _ => Paired s s' := by
  have harray' : (g.tree.get? array).map (·.kind) = some .array :=
    (h.query (fun t => (t.get? array).map (·.kind)) (·.kind_unevaluated array)).trans harray
  have hset {k : Form} (hk : Sound k) (harray : (k.tree.get? array).map (·.kind) = some .array) {template : NodeId}
      (htemplate : k.tree.template? array = some template) : Ends ((do
        let id ← Form.insertNode template (.name name) kind formula
        let elements := ((← get).tree.elements array).map Prod.snd
        let copying : FormM Unit :=
          if elements.isEmpty then Form.tryElement array template
          else Form.copyIntoElements id (.name name) [] elements
        FormM.orUndo copying (·.dropSubtree id)
        return id : FormM NodeId) k.paused) (fun _ => Settled) fun _ _ => True := by
    obtain ⟨p, hp, hkind⟩ := exists_place?_of_kind harray
    obtain ⟨q, hq, hparent, hlive⟩ := FieldTree.template?_eq_some hk.settled.current.tree htemplate
    exact ((hk.settled.withSchedule _).extend (quiet_paused hk.updating) hk.shaped hp hkind hq hparent hlive htemplate).mono
      (fun _ _ hk' => hk'.1) fun _ _ _ => trivial
  refine h.templateOf_bind fun template htemplate htemplate' => ?_
  exact batch (h.paused.extend (resting hsame) hf.tree hg.tree)
    (fun hon => hset (h.sound_left hf hon) harray htemplate)
    fun hon => hset (h.sound_right hsame hg hon) harray' htemplate'

theorem addNode : Both (Form.addNode parent (.name name) kind formula f) (Form.addNode parent (.name name) kind formula g)
    (fun _ => Paired s s') fun _ => Paired s s' := by
  have hkind := h.query (fun t => (t.get? parent).map (·.kind)) (·.kind_unevaluated parent)
  unfold Form.addNode
  cases hn : f.tree.get? parent <;> cases hn' : g.tree.get? parent <;> rw [hn, hn'] at hkind
  case none.none => exact ⟨rfl, h⟩
  case some.some n n' =>
    have hkind : n'.kind = n.kind := Option.some.inj hkind
    dsimp only
    rw [hkind]
    cases hk : n.kind with
    | field => exact ⟨by rw [h.path], h⟩
    | array => exact h.extendArray hsame hf hg (by rw [hn, Option.map_some, hk])
    | group => exact h.addUnderGroup hsame hf hg
  all_goals cases hkind

theorem pushElementAt : Both (Form.pushElementAt array f) (Form.pushElementAt array g) (fun _ => Paired s s')
    fun _ => Paired s s' := by
  have hset {k : Form} (hk : Sound k) (harray : (k.tree.get? array).map (·.kind) = some .array) {template : NodeId}
      (htemplate : k.tree.template? array = some template) : Ends ((do
        let created ← FormM.onTree (·.copySubtree template array (.index (nextIndex k.tree array)))
        Form.nodesAdded created
        return created.headD rootId : FormM NodeId) k.paused) (fun _ => Settled) fun _ _ => True := by
    obtain ⟨p, hp, hkind⟩ := exists_place?_of_kind harray
    exact ((hk.settled.withSchedule _).pushCopy (quiet_paused hk.updating) hk.shaped htemplate hp hkind).mono
      (fun _ _ hk' => hk'.1) fun _ _ _ => trivial
  have hindex := h.query (nextIndex · array) (nextIndex_unevaluated · array)
  refine h.expectArray_bind fun harray harray' => h.templateOf_bind fun template htemplate htemplate' => Both.get ?_
  rw [hindex]
  refine batch (pushCopy (resting hsame) template array _ _ _ h.paused)
    (fun hon => hset (h.sound_left hf hon) harray htemplate) fun hon => ?_
  rw [← hindex]
  exact hset (h.sound_right hsame hg hon) harray' htemplate'

theorem removeElement (path : String) (index : UInt64) : Both (Form.removeElement path index f)
    (Form.removeElement path index g) (fun _ => Paired s s') fun _ => Paired s s' := by
  have hset {k : Form} (hk : Sound k) {array element : NodeId}
      (harray : (k.tree.get? array).map (·.kind) = some .array)
      (helement : k.tree.childByKey? array (.index index.toInt64.toInt) = some element) : Ends ((do
        Form.discardSubtree element
        let later := ((← get).tree.elements array).filter fun entry => index.toInt64.toInt < entry.1
        later.forM fun (i, id) => Form.renameSubtree id (.index (i - 1)) : FormM Unit) k.paused)
      (fun _ => Settled) fun _ _ => True := by
    obtain ⟨p, hp, hkind⟩ := exists_place?_of_kind harray
    exact ((hk.settled.withSchedule _).removeElement (quiet_paused hk.updating) hk.shaped hp hkind helement).mono
      (fun _ _ hk' => hk'.1) fun _ _ _ => trivial
  refine h.resolve_bind fun array => h.expectArray_bind fun harray harray' => ?_
  have hchild := h.query (·.childByKey? array (.index index.toInt64.toInt)) (·.childByKey?_unevaluated _ _)
  refine Both.get ?_
  dsimp only
  rw [hchild]
  cases helement : f.tree.childByKey? array (.index index.toInt64.toInt) with
  | none => exact ⟨rfl, h⟩
  | some element =>
    exact batch (discardElement (resting hsame) element array _ _ _ h.paused)
      (fun hon => hset (h.sound_left hf hon) harray helement)
      fun hon => hset (h.sound_right hsame hg hon) harray' (hchild.trans helement)

theorem addField (parent key : String) : Both (Form.addField parent key kind formula f)
    (Form.addField parent key kind formula g) (fun _ => Paired s s') fun _ => Paired s s' :=
  h.resolve_bind fun _ => h.addNode hsame hf hg

theorem pushElement (path : String) : Both (Form.pushElement path f) (Form.pushElement path g) (fun _ => Paired s s')
    fun _ => Paired s s' :=
  h.resolve_bind fun _ => h.pushElementAt hsame hf hg

theorem setValue (path : String) (value : Value) : Both (Form.setValue path value f) (Form.setValue path value g)
    (fun _ => Paired s s') fun _ => Paired s s' :=
  h.resolve_bind fun _ => h.setValueAt hsame hf hg

end Paired

end Edits

end LiveForm.Form
