import LiveForm.Form.Edit
import LiveForm.Proofs.Form.Coherence
import LiveForm.Proofs.Lockstep

/-!
# Forms that differ in what recomputing does

Recomputing stores values of formulas, determines levels and takes nodes off the pending ones. Two forms are alike if they
differ in such things only, and perhaps in their schedules and their settings. The operations that keep the graph up to
date do not look at these differences: from forms that are alike they come to the same end and to forms that are alike.
-/

set_option autoImplicit false

namespace LiveForm

section Queries

variable {t : FieldTree} {r : Registry}

theorem Selector.base_unevaluated (s : Selector) (t : FieldTree) (anchor : NodeId) :
    s.base t.unevaluated anchor = s.base t anchor := by
  unfold Selector.base
  rw [FieldTree.locate?_unevaluated]
  cases t.locate? anchor <;> rfl

theorem Selector.fieldsBelow_unevaluated (s : Selector) (t : FieldTree) (base : NodeId) :
    s.fieldsBelow t.unevaluated base = s.fieldsBelow t base := by
  have hpath : t.unevaluated.path = t.path := funext t.path_unevaluated
  unfold Selector.fieldsBelow FieldTree.inMatchOrder
  rw [FieldTree.locate?_unevaluated, hpath]
  cases t.locate? base with
  | none => rfl
  | some l => simp only [Option.map_some, Located.unevaluated, Forest.matching_unevaluated]

theorem Selector.accepts_unevaluated (s : Selector) (t : FieldTree) (basePath : Path) (candidate : NodeId) :
    s.accepts t.unevaluated basePath candidate = s.accepts t basePath candidate := by
  unfold Selector.accepts
  rw [FieldTree.locate?_unevaluated]
  cases t.locate? candidate with
  | none => rfl
  | some l => simp only [Option.map_some, Located.unevaluated, Node.kind_unevaluated]

theorem Registry.accepting_unevaluated (r : Registry) (t : FieldTree) (candidate : NodeId) :
    r.accepting t.unevaluated candidate = r.accepting t candidate := by
  unfold Registry.accepting Binding.accepts
  simp only [Selector.accepts_unevaluated]

theorem Registry.fresh?_unevaluated (r : Registry) (t : FieldTree) (id : BindingId) :
    r.fresh? t.unevaluated id .fromScratch = r.fresh? t id .fromScratch := by
  unfold Registry.fresh? Binding.fresh
  simp only [Selector.fieldsBelow_unevaluated]

theorem Formula.parse_unevaluated (t : FieldTree) (anchor : NodeId) (expression : String) :
    Formula.parse t.unevaluated anchor expression = Formula.parse t anchor expression := by
  have hacquire (r : Registry) (word : String) :
      r.acquire t.unevaluated word anchor anchor = r.acquire t word anchor anchor := by
    unfold Registry.acquire
    simp only [Selector.base_unevaluated, FieldTree.path_unevaluated]
  have hargs (words : List String) (read : List Argument) :
      parseArgs t.unevaluated anchor read words = parseArgs t anchor read words := by
    induction words generalizing read with
    | nil => rfl
    | cons word rest ih =>
      funext r
      simp only [parseArgs, hacquire, ih]
  unfold Formula.parse
  simp only [hargs, FieldTree.path_unevaluated]

namespace Form

theorem anchors_unevaluated (t : FieldTree) : anchors t.unevaluated = anchors t := by
  unfold anchors
  rw [FieldTree.located_unevaluated, List.filterMap_map]
  refine List.filterMap_congr fun l _ => ?_
  simp [Located.unevaluated]

theorem nextIndex_unevaluated (t : FieldTree) (array : NodeId) : nextIndex t.unevaluated array = nextIndex t array := by
  unfold nextIndex
  rw [FieldTree.elements_unevaluated]

end Form

end Queries

namespace Graph

variable {G : Graph} {n : NodeId}

theorem vertices_resetPredecessors (G : Graph) (r : Registry) (n : NodeId) : (G.resetPredecessors r n).vertices =
    ((G.vertices[n]?).bind (·.formula)).elim G.vertices fun F =>
      G.vertices.modify n fun v => { v with predecessors := readings r F } := by
  unfold resetPredecessors formula? get?
  cases (G.vertices[n]?).bind (·.formula) <;> rfl

theorem vertices_prune (G : Graph) (n : NodeId) : (G.prune n).vertices =
    if ((G.vertices[n]?).map Vertex.isIdle).getD false then G.vertices.erase n else G.vertices := by
  unfold prune get?
  split <;> rfl

end Graph

namespace Form

variable {s s' : Schedule} {f g : Form} {n node field : NodeId} {id : BindingId} {nodes : List NodeId}

/-- Two forms differ in the values of formulas, the levels, the pending nodes and the settings only. Their schedules are
the given ones. -/
structure Alike (s s' : Schedule) (f g : Form) : Prop where
  tree : g.tree.unevaluated = f.tree.unevaluated
  registry : g.registry = f.registry
  vertices : g.graph.vertices = f.graph.vertices
  left : f.schedule = s
  right : g.schedule = s'

namespace Alike

theorem refl (f : Form) : Alike f.schedule f.schedule f f :=
  ⟨rfl, rfl, rfl, rfl, rfl⟩

section Queries

variable (h : Alike s s' f g)

include h

theorem get? (n : NodeId) : g.graph.get? n = f.graph.get? n := by
  rw [Graph.get?, h.vertices, Graph.get?]

theorem formula? (n : NodeId) : g.graph.formula? n = f.graph.formula? n := by
  rw [Graph.formula?, h.get?, Graph.formula?]

theorem successors (n : NodeId) : g.graph.successors n = f.graph.successors n := by
  rw [Graph.successors, h.get?, Graph.successors]

theorem formulaNodes : g.graph.formulaNodes = f.graph.formulaNodes := by
  unfold Graph.formulaNodes Graph.nodes
  rw [h.vertices]
  exact List.filter_congr fun n _ => by rw [h.formula?]

theorem path (n : NodeId) : g.tree.path n = f.tree.path n :=
  FieldTree.query_eq (·.path n) (·.path_unevaluated n) h.tree

theorem pathBetween? : g.pathBetween? = f.pathBetween? := by
  have hdependents : g.dependents = f.dependents := by
    funext n
    rw [dependents, dependents, Graph.dependents, Graph.dependents, h.successors, h.registry]
  have hconsumers : g.consumers = f.consumers := by rw [consumers, h.registry, consumers]
  funext source target
  rw [Form.pathBetween?, Form.pathBetween?, hdependents, hconsumers]

theorem cycleError (circle : List NodeId) : g.cycleError circle = f.cycleError circle := by
  rw [Form.cycleError, Form.cycleError, funext h.path]

end Queries

section Changes

/-- What is pending does not matter. -/
theorem addPending (h : Alike s s' f g) (nodes nodes' : List NodeId) :
    Alike s s' (f.addPending nodes) (g.addPending nodes') :=
  ⟨h.tree, h.registry, h.vertices, h.left, h.right⟩

/-- Both registries are changed in the same way. -/
theorem withRegistry (h : Alike s s' f g) (r : Registry) :
    Alike s s' { f with registry := r } { g with registry := r } :=
  ⟨h.tree, rfl, h.vertices, h.left, h.right⟩

/-- The graphs are changed in the same way, up to the levels. -/
theorem withGraph (h : Alike s s' f g) {G G' : Graph} (hvertices : G'.vertices = G.vertices) :
    Alike s s' { f with graph := G } { g with graph := G' } :=
  ⟨h.tree, h.registry, hvertices, h.left, h.right⟩

theorem foldl {ι : Type} {step : Form → ι → Form}
    (hstep : ∀ f g a, Alike s s' f g → Alike s s' (step f a) (step g a)) (l : List ι) (h : Alike s s' f g) :
    Alike s s' (l.foldl step f) (l.foldl step g) := by
  induction l generalizing f g with
  | nil => exact h
  | cons a rest ih => exact ih (hstep f g a h)

theorem resetPredecessors (h : Alike s s' f g) (node : NodeId) :
    Alike s s' (f.resetPredecessors node) (g.resetPredecessors node) :=
  h.withGraph (by rw [Graph.vertices_resetPredecessors, Graph.vertices_resetPredecessors, h.vertices, h.registry])

theorem readAgain (h : Alike s s' f g) (nodes : List NodeId) : Alike s s' (f.readAgain nodes) (g.readAgain nodes) :=
  foldl (fun _ _ node hfg => (hfg.resetPredecessors node).addPending _ _) nodes h

theorem prune (h : Alike s s' f g) (node : NodeId) : Alike s s' (f.prune node) (g.prune node) :=
  h.withGraph (by rw [Graph.vertices_prune, Graph.vertices_prune, h.vertices])

theorem outdated (h : Alike s s' f g) :
    Alike s s' { f with graph := f.graph.outdated } { g with graph := g.graph.outdated } :=
  h.withGraph h.vertices

theorem dropSuccessor (h : Alike s s' f g) (node : NodeId) (id : BindingId) :
    Alike s s' { f with graph := f.graph.dropSuccessor node id } { g with graph := g.graph.dropSuccessor node id } :=
  h.withGraph (congrArg (Std.ExtTreeMap.modify · node _) h.vertices)

theorem unlink (h : Alike s s' f g) (id : BindingId) (field : NodeId) :
    Alike s s' (f.unlink id field) (g.unlink id field) := by
  unfold Form.unlink
  rw [h.registry]
  exact ((((h.dropSuccessor field id).withRegistry _).readAgain _).prune field).outdated

theorem forget (h : Alike s s' f g) (node : NodeId) (id : BindingId) :
    Alike s s' (f.forget node id) (g.forget node id) := by
  unfold Form.forget
  rw [h.registry]
  exact (h.withRegistry _).readAgain _

theorem giveUp (h : Alike s s' f g) (node : NodeId) (id : BindingId) :
    Alike s s' (f.giveUp node id) (g.giveUp node id) := by
  unfold Form.giveUp
  rw [h.registry]
  split
  · exact h.withRegistry _
  · exact foldl (fun _ _ m hfg => (hfg.dropSuccessor m id).prune m) _ (h.withRegistry _)

theorem detach (h : Alike s s' f g) (node : NodeId) : Alike s s' (f.detach node) (g.detach node) := by
  unfold Form.detach
  rw [h.get?]
  split
  · exact h
  next vertex _ =>
    have herase : Alike s s' { f with graph := f.graph.erase node } { g with graph := g.graph.erase node } :=
      h.withGraph (congrArg (Std.ExtTreeMap.erase · node) h.vertices)
    have hforget := foldl (fun _ _ id hfg => hfg.forget node id) vertex.successors.toList herase
    have hgiveUp := foldl (fun _ _ id hfg => hfg.giveUp node id) ((vertex.formula.map (·.bindings)).getD []) hforget
    exact ⟨hgiveUp.tree, hgiveUp.registry, hgiveUp.vertices, hgiveUp.left, hgiveUp.right⟩

end Changes

section Linking

theorem link (id : BindingId) (field : NodeId) : Lockstep (Alike s s') (Form.link id field) := by
  intro f g h
  unfold Form.link
  rw [h.registry, h.pathBetween?]
  dsimp only
  split
  · exact ⟨h.cycleError _, h⟩
  · refine ⟨rfl, h.tree, rfl, ?_, h.left, h.right⟩
    -- The vertices after the new edges are told by those before.
    have hfold (G : Graph) (consumers : List NodeId) : (consumers.foldl (·.addPredecessor · field) G).vertices =
        consumers.foldl (fun V c => V.modify c fun v => { v with predecessors := v.predecessors.insert field })
          G.vertices :=
      (List.foldl_hom Graph.vertices fun _ _ => rfl).symm
    refine (hfold _ _).trans ((congrArg (List.foldl _ · _) ?_).trans (hfold _ _).symm)
    exact congrArg (Std.ExtTreeMap.alter · field _) h.vertices

theorem sync (id : BindingId) : Lockstep (Alike s s') (Form.sync .fromScratch id) := by
  intro f g h
  have hfresh : g.registry.fresh? g.tree id .fromScratch = f.registry.fresh? f.tree id .fromScratch := by
    rw [h.registry]
    exact FieldTree.query_eq (f.registry.fresh? · id _) (f.registry.fresh?_unevaluated · id) h.tree
  unfold Form.sync Form.syncBy
  rw [hfresh, h.registry]
  split
  · exact ⟨rfl, h⟩
  · exact Lockstep.forM (link id) _ _ _ (foldl (fun _ _ m hfg => hfg.unlink id m) _ h)

theorem refuseCircle (node : NodeId) (id : BindingId) : Lockstep (Alike s s') (Form.refuseCircle node id) := by
  intro f g h
  unfold Form.refuseCircle
  rw [h.registry, h.pathBetween?]
  dsimp only
  split
  · exact ⟨h.cycleError _, h⟩
  · exact ⟨rfl, h⟩

theorem connect (node : NodeId) (bindings : List BindingId) : Lockstep (Alike s s') (Form.connect node bindings) :=
  Lockstep.bind (Lockstep.forM (fun id => Lockstep.bind (refuseCircle node id) fun _ => sync id) bindings)
    fun _ => FormM.lockstep_update fun _ _ h => h.resetPredecessors node

/-- An expression is read in the same way. -/
theorem parse (h : Alike s s' f g) (node : NodeId) (expression : String) :
    Both (FormM.onRegistry (Formula.parse f.tree node expression) f)
      (FormM.onRegistry (Formula.parse g.tree node expression) g) (fun _ => Alike s s') (fun _ => Alike s s') := by
  have hparse : Formula.parse g.tree node expression = Formula.parse f.tree node expression :=
    FieldTree.query_eq (Formula.parse · node expression) (Formula.parse_unevaluated · node expression) h.tree
  unfold FormM.onRegistry
  rw [hparse, h.registry]
  cases Formula.parse f.tree node expression f.registry with
  | ok F r => exact ⟨rfl, h.withRegistry r⟩
  | error e r => exact ⟨rfl, h.withRegistry r⟩

theorem attachFormula (node : NodeId) (expression : String) :
    Lockstep (Alike s s') (Form.attachFormula node expression) := by
  intro f g h
  refine Both.get (Both.bind ((h.parse node expression).mono ?_ fun _ _ _ h' => h'))
  intro F f' g' h'
  refine Lockstep.bind (FormM.lockstep_update fun _ _ hfg => ?_)
    (fun _ => FormM.lockstep_orUndo (connect node F.bindings) fun _ _ hfg => hfg.detach node) f' g' h'
  exact (hfg.withGraph (congrArg (Std.ExtTreeMap.alter · node _) hfg.vertices)).addPending _ _

theorem linkOnce (node : NodeId) (id : BindingId) : Lockstep (Alike s s') (Form.linkOnce node id) := by
  intro f g h
  unfold Form.linkOnce
  rw [h.successors]
  split
  · exact ⟨rfl, h⟩
  · exact FormM.lockstep_orUndo (link id node) (fun _ _ hfg => hfg.detach node) f g h

theorem attach (node : NodeId) (expression : Option String) : Lockstep (Alike s s') (Form.attach node expression) := by
  intro f g h
  have hcontains : g.tree.contains node = f.tree.contains node :=
    FieldTree.query_eq (·.contains node) (·.contains_unevaluated node) h.tree
  have htemplate : g.tree.inTemplate node = f.tree.inTemplate node :=
    FieldTree.query_eq (·.inTemplate node) (·.inTemplate_unevaluated node) h.tree
  unfold Form.attach
  rw [hcontains, htemplate, h.formula?]
  split
  · exact ⟨rfl, h⟩
  split
  · exact ⟨rfl, h⟩
  have hstart : Alike s s' (if (f.graph.formula? node).isSome then f.detach node else f)
      (if (f.graph.formula? node).isSome then g.detach node else g) := by
    split
    · exact h.detach node
    · exact h
  have hread : Lockstep (Alike s s') (expression.forM (Form.attachFormula node) : FormM Unit) := by
    cases expression with
    | none => exact Lockstep.pure _
    | some text => exact attachFormula node text
  refine Both.bind ((hread _ _ hstart).mono ?_ fun _ _ _ h' => h')
  intro _ f' g' h'
  have haccepting : g'.registry.accepting g'.tree node = f'.registry.accepting f'.tree node := by
    rw [h'.registry]
    exact FieldTree.query_eq (f'.registry.accepting · node) (f'.registry.accepting_unevaluated · node) h'.tree
  refine Both.get ?_
  rw [haccepting]
  exact Lockstep.bind (Lockstep.forM (linkOnce node) _)
    (fun _ => FormM.lockstep_update fun _ _ hfg => hfg.prune node) f' g' h'

theorem relinkFormula (node : NodeId) : Lockstep (Alike s s') (Form.relinkFormula node) := by
  intro f g h
  unfold Form.relinkFormula
  rw [h.formula?]
  split
  · exact ⟨rfl, h⟩
  · exact Lockstep.bind (Lockstep.forM sync _)
      (fun _ => FormM.lockstep_update fun _ _ hfg => (hfg.resetPredecessors node).addPending _ _) f g h

theorem relinkNode (node : NodeId) : Lockstep (Alike s s') (Form.relinkNode node) := by
  intro f g h
  have haccepting : g.registry.accepting g.tree node = f.registry.accepting f.tree node := by
    rw [h.registry]
    exact FieldTree.query_eq (f.registry.accepting · node) (f.registry.accepting_unevaluated · node) h.tree
  unfold Form.relinkNode
  rw [haccepting, h.successors]
  exact Lockstep.forM (fun id => link id node) _ _ _ (foldl (fun _ _ id hfg => hfg.unlink id node) _ h)

theorem relink (node : NodeId) : Lockstep (Alike s s') (Form.relink node) := by
  intro f g h
  have hcontains : g.tree.contains node = f.tree.contains node :=
    FieldTree.query_eq (·.contains node) (·.contains_unevaluated node) h.tree
  have htemplate : g.tree.inTemplate node = f.tree.inTemplate node :=
    FieldTree.query_eq (·.inTemplate node) (·.inTemplate_unevaluated node) h.tree
  unfold Form.relink
  rw [hcontains, htemplate]
  split
  · exact ⟨rfl, h⟩
  · exact Lockstep.bind (relinkFormula node) (fun _ => Lockstep.bind (relinkNode node)
      fun _ => FormM.lockstep_update fun _ _ hfg => (hfg.prune node).outdated) f g h

end Linking

section Deriving

theorem clear (h : Alike s s' f g) : Alike s s' f.clear g.clear := by
  refine ⟨h.tree, ?_, rfl, h.left, h.right⟩
  unfold Form.clear
  simp only [h.formulaNodes, h.formula?, h.registry]

/-- Two forms are alike, and so are the levels of their graphs. -/
def Leveled (s s' : Schedule) (f g : Form) : Prop :=
  Alike s s' f g ∧ g.graph = f.graph

theorem levels : Lockstep (Leveled s s') Form.levels := by
  rintro f g ⟨h, hgraph⟩
  rw [Form.levels_eq, Form.levels_eq, hgraph]
  split
  · exact ⟨rfl, h, hgraph⟩
  split
  · exact ⟨rfl, h.withGraph rfl, rfl⟩
  · exact ⟨h.cycleError _, h, hgraph⟩

theorem addFormula (node : NodeId) (expression : String) : Lockstep (Leveled s s') (Form.addFormula node expression) := by
  rintro f g ⟨h, hgraph⟩
  have hparse : Formula.parse g.tree node expression = Formula.parse f.tree node expression :=
    FieldTree.query_eq (Formula.parse · node expression) (Formula.parse_unevaluated · node expression) h.tree
  refine Both.get (Both.bind ?_)
  unfold FormM.onRegistry
  rw [hparse, h.registry]
  cases Formula.parse f.tree node expression f.registry with
  | ok F r =>
    refine ⟨rfl, FormM.lockstep_update ?_ _ _ ⟨h.withRegistry r, hgraph⟩⟩
    rintro f' g' ⟨h', hgraph'⟩
    have hsame : ({ g'.graph with vertices := g'.graph.vertices.insert node { formula := some F } } : Graph) =
        { f'.graph with vertices := f'.graph.vertices.insert node { formula := some F } } := by rw [hgraph']
    exact ⟨(h'.withGraph (congrArg Graph.vertices hsame)).addPending _ _, hsame⟩
  | error e r => exact ⟨rfl, h.withRegistry r, hgraph⟩

theorem linkFields (h : Leveled s s' f g) (id : BindingId) : Leveled s s' (f.linkFields id) (g.linkFields id) := by
  obtain ⟨h, hgraph⟩ := h
  have hfresh : g.registry.fresh? g.tree id .fromScratch = f.registry.fresh? f.tree id .fromScratch := by
    rw [h.registry]
    exact FieldTree.query_eq (f.registry.fresh? · id _) (f.registry.fresh?_unevaluated · id) h.tree
  unfold Form.linkFields
  rw [hfresh, hgraph, h.registry]
  split
  · exact ⟨h, hgraph⟩
  · exact ⟨⟨h.tree, rfl, rfl, h.left, h.right⟩, rfl⟩

theorem leveled_foldl {ι : Type} {step : Form → ι → Form}
    (hstep : ∀ f g a, Leveled s s' f g → Leveled s s' (step f a) (step g a)) (l : List ι) (h : Leveled s s' f g) :
    Leveled s s' (l.foldl step f) (l.foldl step g) := by
  induction l generalizing f g with
  | nil => exact h
  | cons a rest ih => exact ih (hstep f g a h)

/-- The graph is derived in the same way. -/
theorem derive : Lockstep (Leveled s s') Form.derive := by
  have hstart : Lockstep (Leveled s s') (FormM.update fun f => { f with graph := f.graph.outdated }) :=
    FormM.lockstep_update fun _ _ h => ⟨h.1.outdated, congrArg Graph.outdated h.2⟩
  have hlink : Lockstep (Leveled s s') (FormM.update fun f => f.registry.ids.foldl Form.linkFields f) := by
    refine FormM.lockstep_update fun f g h => ?_
    rw [h.1.registry]
    exact leveled_foldl (fun _ _ id hfg => linkFields hfg id) _ h
  have hread : Lockstep (Leveled s s') (FormM.update fun f => f.graph.formulaNodes.foldl Form.resetPredecessors f) := by
    refine FormM.lockstep_update fun f g h => ?_
    rw [h.2]
    refine leveled_foldl (fun f g node hfg => ⟨hfg.1.resetPredecessors node, ?_⟩) _ h
    rw [Form.resetPredecessors, Form.resetPredecessors, hfg.1.registry, hfg.2]
  unfold Form.derive
  refine hstart.bind fun _ => ?_
  intro f g h
  have hanchors : anchors g.tree = anchors f.tree := FieldTree.query_eq anchors anchors_unevaluated h.1.tree
  refine Both.get ?_
  rw [hanchors]
  refine Lockstep.bind (Lockstep.forM ?_ _) (fun _ => hlink.bind fun _ => hread.bind fun _ => levels.discard) f g h
  rintro ⟨node, expression⟩
  exact addFormula node expression

end Deriving

end Alike

end Form

end LiveForm
