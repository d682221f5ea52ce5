import LiveForm.Proofs.Form.Detachment
import LiveForm.Proofs.Form.Syncing
import LiveForm.Proofs.Formula.Reading
import LiveForm.Proofs.Graph.Layers

/-!
# The graph is up to date with the tree

`Form.Current` says that the registry and the graph hold what the tree asks for: each formula is what its
expression means, each binding is applied to the node that it says, and each cache holds the fields that the
selector stands for. Nodes that are new, or about to be removed, are excepted as long as they have not been
reported.
-/

set_option autoImplicit false

namespace LiveForm

/-- A node outside templates has an expression. -/
def FieldTree.FormulaAt (t : FieldTree) (n : NodeId) (expression : String) : Prop :=
  ∃ q, t.place? n = some q ∧ q.inTemplate = false ∧ q.node.formula = some expression

/-- If there are levels they are those that would be determined anew. -/
def Graph.LevelsRight (g : Graph) : Prop :=
  ∀ levels, g.levels = some levels → g.computeLevels = .ok levels

theorem Graph.levelsRight_of_none {g : Graph} (h : g.levels = none) : g.LevelsRight := by
  intro levels hlevels
  simp [h] at hlevels

namespace Form

/-- The registry and the graph hold what the tree asks for, with two exceptions: nodes that are not reported
yet need not be known, and bindings that are raw need not stand for all that they should. -/
structure CurrentBut (new : NodeId → Prop) (raw : BindingId → Prop) (f : Form) : Prop where
  tree : f.tree.WellFormed
  right : f.registry.Right f.tree
  cached : ∀ id d m, f.registry.bound? id = some d → f.registry.Caches id m →
    f.tree.Matches d.selector d.base m
  complete : ∀ id d m, f.registry.bound? id = some d → ¬ raw id →
    f.tree.Matches d.selector d.base m → ¬ new m → f.registry.Caches id m
  reads : ∀ n F, f.graph.formula? n = some F →
    ∃ e, f.tree.FormulaAt n e ∧ F.Reads f.tree f.registry n e
  registered : ∀ n e, f.tree.FormulaAt n e → ¬ new n → (f.graph.formula? n).isSome

/-- The same, whatever the tree is like otherwise. -/
structure FollowsBut (new : NodeId → Prop) (raw : BindingId → Prop) (f : Form) : Prop where
  right : f.registry.Right f.tree
  cached : ∀ id d m, f.registry.bound? id = some d → f.registry.Caches id m →
    f.tree.Matches d.selector d.base m
  complete : ∀ id d m, f.registry.bound? id = some d → ¬ raw id →
    f.tree.Matches d.selector d.base m → ¬ new m → f.registry.Caches id m
  reads : ∀ n F, f.graph.formula? n = some F →
    ∃ e, f.tree.FormulaAt n e ∧ F.Reads f.tree f.registry n e
  registered : ∀ n e, f.tree.FormulaAt n e → ¬ new n → (f.graph.formula? n).isSome

/-- The registry and the graph hold what the tree asks for, without exception. -/
abbrev Follows (f : Form) : Prop :=
  FollowsBut (fun _ => False) (fun _ => False) f

/-- The registry and the graph hold what the tree asks for, but for nodes that are not reported yet. -/
abbrev Current (new : NodeId → Prop) (f : Form) : Prop :=
  CurrentBut new (fun _ => False) f

/-- What a form is between two edits if no nodes are new, and in the course of an edit otherwise. -/
structure Upkept (new : NodeId → Prop) (f : Form) : Prop where
  coherent : Coherent f
  current : Current new f
  acyclic : f.Acyclic
  levels : f.graph.LevelsRight

/-- What a form is after its graph has been derived: it holds what the tree asks for, although a node that is no field
may have a formula. -/
structure Tracking (f : Form) : Prop where
  coherent : Coherent f
  keyed : f.tree.Keyed
  follows : Follows f
  acyclic : f.Acyclic
  levels : f.graph.LevelsRight

/-- The graph and the registry agree, and no formula depends on itself, whatever the tree is like. -/
structure Consistent (f : Form) : Prop where
  coherent : Coherent f
  acyclic : f.Acyclic
  levels : f.graph.LevelsRight

/-- The formulas and bindings of the first form are also those of the second one. -/
structure Keeps (f f' : Form) : Prop where
  formula : ∀ n F, f.graph.formula? n = some F → f'.graph.formula? n = some F
  bound : ∀ id d, f.registry.bound? id = some d → f'.registry.bound? id = some d

variable {f f' f'' : Form} {new new' : NodeId → Prop} {raw raw' : BindingId → Prop} {n : NodeId}

theorem Keeps.refl (f : Form) : Keeps f f :=
  ⟨fun _ _ h => h, fun _ _ h => h⟩

theorem Keeps.trans (h : Keeps f f') (h' : Keeps f' f'') : Keeps f f'' :=
  ⟨fun n F hF => h'.formula n F (h.formula n F hF), fun id d hd => h'.bound id d (h.bound id d hd)⟩

theorem Relinked.keeps (h : Relinked f f') : Keeps f f' :=
  ⟨fun n _ hF => (h.formula n).trans hF, fun id _ hd => (h.bound id).trans hd⟩

/-- A node without a formula may leave. -/
theorem Keeps.detached (h : Keeps f f') (hco : Coherent f) (hn : f.graph.formula? n = none)
    (hdet : Detached n f' f'') : Keeps f f'' where
  formula x F hF := by
    have hxn : x ≠ n := by
      rintro rfl
      simp [hn] at hF
    rw [hdet.formula, if_neg hxn]
    exact h.formula x F hF
  bound id d hd := by
    obtain ⟨b, hb, -⟩ := Option.map_eq_some_iff.1 hd
    obtain ⟨c, hc⟩ := hco.used id b hb
    obtain ⟨F, hF, hid⟩ := ((hco.consumers id c).1 ⟨b, hb, hc⟩).resolve_right not_false
    have hcn : c ≠ n := by
      rintro rfl
      simp [hn] at hF
    have huse : f''.graph.Uses c id := by
      refine ⟨F, ?_, hid⟩
      rw [hdet.formula, if_neg hcn]
      exact h.formula c F hF
    obtain ⟨b'', hb'', -⟩ := (hdet.coherent.consumers id c).2 (.inl huse)
    have hd'' : f''.registry.bound? id = some b''.bound := by
      rw [Registry.bound?, hb'', Option.map_some]
    rw [hd'', ← hdet.bound id _ hd'', h.bound id d hd]

theorem CurrentBut.follows (h : CurrentBut new raw f) : FollowsBut new raw f :=
  { h with }

theorem FollowsBut.current (h : FollowsBut new raw f) (ht : f.tree.WellFormed) : CurrentBut new raw f :=
  { h with tree := ht }

theorem FollowsBut.mono (h : FollowsBut new raw f) (hnew : ∀ n, new n → new' n)
    (hraw : ∀ id, raw id → raw' id) : FollowsBut new' raw' f :=
  { h with
    complete := fun id d m hd hr hm hn =>
      h.complete id d m hd (fun hc => hr (hraw id hc)) hm fun hc => hn (hnew m hc)
    registered := fun n e he hn => h.registered n e he fun hc => hn (hnew n hc) }

theorem CurrentBut.mono (h : CurrentBut new raw f) (hnew : ∀ n, new n → new' n)
    (hraw : ∀ id, raw id → raw' id) : CurrentBut new' raw' f :=
  (h.follows.mono hnew hraw).current h.tree

/-- Pending nodes and levels do not matter for what the registry and the graph hold. -/
theorem FollowsBut.congr (h : FollowsBut new raw f) (htree : f'.tree = f.tree) (hregistry : f'.registry = f.registry)
    (hvertices : f'.graph.vertices = f.graph.vertices) : FollowsBut new raw f' := by
  have hformula (n : NodeId) : f'.graph.formula? n = f.graph.formula? n := by
    rw [Graph.formula?, Graph.get?, hvertices, Graph.formula?, Graph.get?]
  refine ⟨?_, ?_, ?_, fun n F hF => ?_, fun n e he hn => ?_⟩
  · rw [htree, hregistry]
    exact h.right
  · rw [htree, hregistry]
    exact h.cached
  · rw [htree, hregistry]
    exact h.complete
  · rw [htree, hregistry]
    exact h.reads n F (hformula n ▸ hF)
  · rw [hformula]
    exact h.registered n e (htree ▸ he) hn

/-- After the caches have changed, only these are in question. -/
theorem FollowsBut.relinked (h : FollowsBut new raw f) (hr : Relinked f f')
    (hcached : ∀ id d m, f.registry.bound? id = some d → f'.registry.Caches id m →
      f.tree.Matches d.selector d.base m)
    (hcomplete : ∀ id d m, f.registry.bound? id = some d → ¬ raw' id →
      f.tree.Matches d.selector d.base m → ¬ new' m → f'.registry.Caches id m)
    (hregistered : ∀ n e, f.tree.FormulaAt n e → ¬ new' n → (f.graph.formula? n).isSome) :
    FollowsBut new' raw' f' := by
  have ht := hr.beside.tree
  refine ⟨?_, fun id d m hd hm => ?_, fun id d m hd hraw hm hn => ?_, fun n F hF => ?_,
    fun n e he hn => ?_⟩
  · rw [ht]
    exact h.right.of_bound? fun id d hd => by rwa [hr.bound] at hd
  · rw [hr.bound] at hd
    exact ht ▸ hcached id d m hd hm
  · rw [hr.bound] at hd
    exact hcomplete id d m hd hraw (ht ▸ hm) hn
  · rw [hr.formula] at hF
    obtain ⟨e, he, hreads⟩ := h.reads n F hF
    rw [ht]
    exact ⟨e, he, hreads.congr rfl fun id _ d hd => ⟨d, (hr.bound id).trans hd, rfl, rfl⟩⟩
  · rw [hr.formula]
    exact hregistered n e (ht ▸ he) hn

theorem CurrentBut.relinked (h : CurrentBut new raw f) (hr : Relinked f f')
    (hcached : ∀ id d m, f.registry.bound? id = some d → f'.registry.Caches id m →
      f.tree.Matches d.selector d.base m)
    (hcomplete : ∀ id d m, f.registry.bound? id = some d → ¬ raw' id →
      f.tree.Matches d.selector d.base m → ¬ new' m → f'.registry.Caches id m)
    (hregistered : ∀ n e, f.tree.FormulaAt n e → ¬ new' n → (f.graph.formula? n).isSome) :
    CurrentBut new' raw' f' :=
  (h.follows.relinked hr hcached hcomplete hregistered).current (hr.beside.tree ▸ h.tree)

/-- A node that has left counts as new. Bindings that only it used have left with it. -/
theorem CurrentBut.detached (h : CurrentBut new raw f) (hdet : Detached n f f')
    (hraw : ∀ id, raw id → ∀ c, f.graph.Uses c id → c = n) :
    Current (fun x => new x ∨ x = n) f' := by
  have ht := hdet.beside.tree
  have huse {c : NodeId} {id : BindingId} (hc : f'.graph.Uses c id) : c ≠ n ∧ f.graph.Uses c id := by
    obtain ⟨F, hF, hid⟩ := hc
    rw [hdet.formula] at hF
    split at hF
    · simp at hF
    next hcn => exact ⟨hcn, F, hF, hid⟩
  have halive {id : BindingId} {d : Bound} (hd : f'.registry.bound? id = some d) :
      (f'.registry.get? id).isSome := by
    obtain ⟨b, hb, -⟩ := Option.map_eq_some_iff.1 hd
    rw [hb]
    rfl
  refine ⟨ht ▸ h.tree, ?_, fun id d m hd hm => ?_, fun id d m hd _ hm hn => ?_, fun x F hF => ?_,
    fun x e he hx => ?_⟩
  · rw [ht]
    exact h.right.of_bound? hdet.bound
  · rw [ht]
    exact h.cached id d m (hdet.bound id d hd) ((hdet.caches id m).1 hm).1
  · rw [not_or] at hn
    refine (hdet.caches id m).2 ⟨h.complete id d m (hdet.bound id d hd) ?_ (ht ▸ hm) hn.1, hn.2,
      halive hd⟩
    intro hr
    obtain ⟨b, hb⟩ := Option.isSome_iff_exists.1 (halive hd)
    obtain ⟨c, hc⟩ := hdet.coherent.used id b hb
    obtain ⟨hcn, hcf⟩ :=
      huse (((hdet.coherent.consumers id c).1 ⟨b, hb, hc⟩).resolve_right not_false)
    exact hcn (hraw id hr c hcf)
  · have hF' := hF
    rw [hdet.formula] at hF
    split at hF
    · simp at hF
    · obtain ⟨e, he, hreads⟩ := h.reads x F hF
      rw [ht]
      refine ⟨e, he, hreads.congr rfl fun id hid d hd => ?_⟩
      obtain ⟨b, hb, -⟩ := (hdet.coherent.consumers id x).2 (.inl ⟨F, hF', hid⟩)
      have hd' : f'.registry.bound? id = some b.bound := by rw [Registry.bound?, hb, Option.map_some]
      have := hdet.bound id _ hd'
      rw [hd] at this
      exact ⟨b.bound, hd', by rw [Option.some.inj this], by rw [Option.some.inj this]⟩
  · rw [not_or] at hx
    rw [hdet.formula, if_neg hx.2]
    exact h.registered x e (ht ▸ he) hx.1

/-- What a node has left is without circles if it was so apart from the node. -/
theorem Detached.acyclic (hdet : Detached n f f') (h : f.AcyclicBy fun c _ => c ≠ n) :
    f'.Acyclic := by
  rw [← acyclicBy_all]
  refine h.anti ?_
  rintro a b ⟨id, hc, ⟨F, hF, hid⟩, -⟩
  rw [hdet.formula] at hF
  split at hF
  · simp at hF
  next hb => exact ⟨id, ((hdet.caches id a).1 hc).1, ⟨F, hF, hid⟩, hb⟩

theorem LevelsDue.levelsRight (hdue : LevelsDue f f') (h : f.graph.LevelsRight) : f'.graph.LevelsRight := by
  rcases hdue with rfl | hnone
  · exact h
  · exact Graph.levelsRight_of_none hnone

theorem Acyclic.acyclicBy (h : f.Acyclic) (chosen : NodeId → BindingId → Prop) :
    f.AcyclicBy chosen :=
  (acyclicBy_all.2 h).anti fun _ _ ⟨id, hc, hu, _⟩ => ⟨id, hc, hu, trivial⟩

theorem Upkept.consistent (h : Upkept new f) : Consistent f :=
  ⟨h.coherent, h.acyclic, h.levels⟩

theorem Tracking.consistent (h : Tracking f) : Consistent f :=
  ⟨h.coherent, h.acyclic, h.levels⟩

theorem Consistent.congr (h : Consistent f) (hregistry : f'.registry = f.registry)
    (hvertices : f'.graph.vertices = f.graph.vertices) (hlevels : f'.graph.LevelsRight) : Consistent f' := by
  refine ⟨h.coherent.congr hregistry hvertices, fun n hn => h.acyclic n ?_, hlevels⟩
  refine Relation.TransGen.mono (fun a b hab => ?_) _ _ hn
  obtain ⟨id, hc, F, hF, hid⟩ := hab
  rw [hregistry] at hc
  rw [Graph.formula?, Graph.get?, hvertices] at hF
  exact ⟨id, hc, F, hF, hid⟩

theorem Tracking.congr (h : Tracking f) (htree : f'.tree = f.tree) (hregistry : f'.registry = f.registry)
    (hvertices : f'.graph.vertices = f.graph.vertices) (hlevels : f'.graph.LevelsRight) : Tracking f' := by
  have hcons := h.consistent.congr hregistry hvertices hlevels
  exact ⟨hcons.coherent, htree ▸ h.keyed, h.follows.congr htree hregistry hvertices, hcons.acyclic, hlevels⟩

theorem Tracking.upkept (h : Tracking f) (ht : f.tree.WellFormed) : Upkept (fun _ => False) f :=
  ⟨h.coherent, h.follows.current ht, h.acyclic, h.levels⟩

theorem Upkept.tracking (h : Upkept (fun _ => False) f) : Tracking f :=
  ⟨h.coherent, h.current.tree.keyed, h.current.follows, h.acyclic, h.levels⟩

theorem Consistent.upkept (h : Consistent f) (hcur : Current new f) : Upkept new f :=
  ⟨h.coherent, hcur, h.acyclic, h.levels⟩

/-- A change of links that makes no circle. -/
theorem Consistent.relinked (h : Consistent f) (hco : Coherent f') (hacyclic : f.Acyclic → f'.Acyclic)
    (hlevels : LevelsDue f f') : Consistent f' :=
  ⟨hco, hacyclic h.acyclic, hlevels.levelsRight h.levels⟩

theorem Consistent.detach (h : Consistent f) (n : NodeId) : Consistent (f.detach n) ∧ Detached n f (f.detach n) := by
  have hdet := h.coherent.detach_spec (n := n) fun _ hx => hx.elim
  exact ⟨h.relinked hdet.coherent (fun hacyclic => hdet.acyclic (hacyclic.acyclicBy _)) hdet.levels, hdet⟩

/-- A node may leave at any time, and counts as new then. -/
theorem Upkept.detach (h : Upkept new f) (n : NodeId) :
    Upkept (fun x => new x ∨ x = n) (f.detach n) ∧ Detached n f (f.detach n) := by
  obtain ⟨hcons, hdet⟩ := h.consistent.detach n
  exact ⟨hcons.upkept (h.current.detached hdet fun _ hr => hr.elim), hdet⟩

end Form

end LiveForm
