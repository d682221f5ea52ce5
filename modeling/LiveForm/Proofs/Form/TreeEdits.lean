import LiveForm.Proofs.Form.Reporting
import LiveForm.Proofs.Tree.Carrying

/-!
# The tree changes under a form

The registry and the graph stay up to date when the tree is changed at nodes only that they do not know: nodes
that are new, and nodes that have been taken out of the graph before they are removed.
-/

set_option autoImplicit false

namespace LiveForm

theorem FieldTree.FormulaAt.congr {t t' : FieldTree} {x : NodeId} {e : String} (hx : t.FormulaAt x e)
    (h : (t'.place? x).map Place.outline = (t.place? x).map Place.outline) : t'.FormulaAt x e := by
  obtain ⟨p, hp, hlive, he⟩ := hx
  obtain ⟨p', hp', hpp⟩ := place?_of_outline hp h
  obtain ⟨-, -, hformula, -, -, -, htemplate⟩ := Place.outline_eq hpp
  exact ⟨p', hp', htemplate.trans hlive, hformula.trans he⟩

theorem Bound.Right.of_outline {t t' : FieldTree} {d : Bound} (h : d.Right t)
    (hbase : (t'.place? d.base).map Place.outline = (t.place? d.base).map Place.outline) :
    d.Right t' where
  parsed := h.parsed
  placed := by
    obtain ⟨p, hp, hlive, hpath⟩ := h.placed
    obtain ⟨p', hp', hpp⟩ := FieldTree.place?_of_outline hp hbase
    obtain ⟨-, -, -, -, -, hpath', htemplate⟩ := Place.outline_eq hpp
    exact ⟨p', hp', htemplate.trans hlive, hpath.trans hpath'.symm⟩

namespace Form

variable {f f' f'' : Form} {new new' changed : NodeId → Prop} {n x : NodeId} {t' : FieldTree}

/-- The form with another tree. -/
def withTree (f : Form) (t : FieldTree) : Form :=
  { f with tree := t }

theorem Coherent.withTree (h : Coherent f) : Coherent (f.withTree t') :=
  h.congr rfl rfl

/-- The tree may change where the registry and the graph do not look. -/
theorem FollowsBut.withTree (h : FollowsBut new (fun _ => False) f)
    (hsame : ∀ x, ¬ changed x → (t'.place? x).map Place.outline = (f.tree.place? x).map Place.outline)
    (hformula : ∀ x, changed x → f.graph.formula? x = none)
    (huncached : ∀ x, changed x → ∀ id, ¬ f.registry.Caches id x)
    (hbase : ∀ id d, f.registry.bound? id = some d → ¬ changed d.base)
    (hnew : ∀ x, changed x → (t'.place? x).isSome → new' x)
    (hold : ∀ x, new x → ¬ changed x → new' x) : FollowsBut new' (fun _ => False) (f.withTree t') where
  right :=
    { bound := fun id d hd => (h.right.bound id d hd).of_outline (hsame _ (hbase id d hd))
      key := h.right.key }
  cached := by
    intro id d m hd hm
    have hm' : ¬ changed m := fun hc => huncached m hc id hm
    exact (h.cached id d m hd hm).congr (hsame _ (hbase id d hd)) (hsame m hm')
  complete := by
    intro id d m hd _ hm hnm
    have hm' : ¬ changed m := by
      intro hc
      obtain ⟨_, q, _, _, hq, _⟩ := hm
      refine hnm (hnew m hc ?_)
      have hq' : t'.place? m = some q := hq
      rw [hq']
      rfl
    refine h.complete id d m hd not_false ?_ fun hc => hnm (hold m hc hm')
    exact hm.congr (hsame _ (hbase id d hd)).symm (hsame m hm').symm
  reads := by
    intro x F hF
    have hx : ¬ changed x := by
      intro hc
      have hnone := hformula x hc
      have hF' : f.graph.formula? x = some F := hF
      simp [hnone] at hF'
    obtain ⟨e, he, hreads⟩ := h.reads x F hF
    refine ⟨e, he.congr (hsame x hx), hreads.congr ?_ fun id _ d hd => ⟨d, hd, rfl, rfl⟩⟩
    exact FieldTree.parent_of_outline (hsame x hx)
  registered := by
    intro x e he hx
    have hx' : ¬ changed x := by
      intro hc
      obtain ⟨q, hq, -⟩ := he
      refine hx (hnew x hc ?_)
      have hq' : t'.place? x = some q := hq
      rw [hq']
      rfl
    exact h.registered x e (he.congr (hsame x hx').symm) fun hc => hx (hold x hc hx')

theorem Upkept.withTree (h : Upkept new f) (ht' : t'.WellFormed)
    (hsame : ∀ x, ¬ changed x → (t'.place? x).map Place.outline = (f.tree.place? x).map Place.outline)
    (hformula : ∀ x, changed x → f.graph.formula? x = none)
    (huncached : ∀ x, changed x → ∀ id, ¬ f.registry.Caches id x)
    (hbase : ∀ id d, f.registry.bound? id = some d → ¬ changed d.base)
    (hnew : ∀ x, changed x → (t'.place? x).isSome → new' x)
    (hold : ∀ x, new x → ¬ changed x → new' x) : Upkept new' (f.withTree t') where
  coherent := Coherent.withTree h.coherent
  acyclic := h.acyclic
  levels := h.levels
  current := (h.current.follows.withTree hsame hformula huncached hbase hnew hold).current ht'

/-- A cached field is in the tree. -/
theorem CurrentBut.place?_of_caches {raw : BindingId → Prop} (h : CurrentBut new raw f)
    {id : BindingId} (hx : f.registry.Caches id x) : ∃ q, f.tree.place? x = some q ∧
      q.inTemplate = false ∧ q.node.kind = .field := by
  have ⟨b, hb, _⟩ := hx
  have hd : f.registry.bound? id = some b.bound := by rw [Registry.bound?, hb, Option.map_some]
  obtain ⟨_, q, _, _, hq, _, hkind, hlive, _⟩ := h.cached id _ x hd hx
  exact ⟨q, hq, hlive, hkind⟩

/-- A node with a formula is in the tree. -/
theorem CurrentBut.place?_of_formula? {raw : BindingId → Prop} (h : CurrentBut new raw f)
    {F : Formula} (hx : f.graph.formula? x = some F) : ∃ q, f.tree.place? x = some q ∧
      q.inTemplate = false ∧ q.node.formula = some F.expression := by
  obtain ⟨e, ⟨q, hq, hlive, he⟩, hreads⟩ := h.reads x F hx
  exact ⟨q, hq, hlive, by rw [he, hreads.text]⟩

/-- The base of a binding is the root or the parent of a node with a formula. -/
theorem CurrentBut.base_eq {raw : BindingId → Prop} (h : CurrentBut new raw f) (hco : Coherent f)
    {id : BindingId} {d : Bound} (hd : f.registry.bound? id = some d) :
    ∃ c F, f.graph.formula? c = some F ∧ id ∈ F.bindings ∧ d.base = d.selector.base f.tree c := by
  obtain ⟨b, hb, rfl⟩ := Option.map_eq_some_iff.1 hd
  obtain ⟨c, hc⟩ := hco.used id b hb
  obtain ⟨F, hF, hid⟩ := ((hco.consumers id c).1 ⟨b, hb, hc⟩).resolve_right not_false
  obtain ⟨e, -, hreads⟩ := h.reads c F hF
  obtain ⟨d, hd', hbase⟩ := hreads.bound_of_mem hid
  rw [hd] at hd'
  exact ⟨c, F, hF, hid, Option.some.inj hd' ▸ hbase⟩

/-- New nodes appear in the tree. They are to be reported. -/
theorem Upkept.grow (h : Upkept new f) {parent : NodeId} {forest : Forest}
    (hgraft : FieldTree.Grafts f.tree parent forest t') :
    Upkept (fun x => new x ∨ x ∈ forest.ids) (f.withTree t') := by
  have hwf := h.current.tree
  refine h.withTree (hgraft.wellFormed hwf)
    (fun x hx => by rw [hgraft.place?_old hwf hx]) (fun x hx => ?_) (fun x hx id hc => ?_)
    (fun id d hd hx => ?_) (fun x hx _ => .inr hx) fun x hx _ => .inl hx
  · cases hF : f.graph.formula? x with
    | none => rfl
    | some F =>
      obtain ⟨q, hq, -⟩ := h.current.place?_of_formula? hF
      simp [hgraft.place?_new hwf hx] at hq
  · obtain ⟨q, hq, -⟩ := h.current.place?_of_caches hc
    simp [hgraft.place?_new hwf hx] at hq
  · obtain ⟨p, hp, -⟩ := (h.current.right.bound id d hd).placed
    simp [hgraft.place?_new hwf hx] at hp

/-- A subtree that the graph knows nothing of may be removed. -/
theorem Upkept.cut (h : Upkept new f) {id : NodeId} (hid : id ≠ rootId)
    (hformula : ∀ x, f.tree.Within id x → f.graph.formula? x = none)
    (huncached : ∀ x, f.tree.Within id x → ∀ i, ¬ f.registry.Caches i x) :
    Upkept (fun x => new x ∧ ¬ f.tree.Within id x) (f.withTree (f.tree.without id)) := by
  have hwf := h.current.tree
  refine h.withTree (hwf.without hid)
    (fun x hx => by rw [FieldTree.place?_without_of_not_within hwf.keyed hid hx]) hformula huncached
    (fun i d hd hx => ?_) (fun x hx hsome => ?_) fun x hx hnot => ⟨hx, hnot⟩
  · obtain ⟨c, F, hF, -, hbase⟩ := h.current.base_eq h.coherent hd
    obtain ⟨q, hq, -⟩ := h.current.place?_of_formula? hF
    rw [hbase, FieldTree.base_eq, hq, Option.bind_some] at hx
    split at hx
    · cases hparent : q.parent with
      | none =>
        rw [hparent] at hx
        exact FieldTree.not_within_root hwf.keyed hid hx
      | some x =>
        rw [hparent] at hx
        have hc : f.tree.Within id c := FieldTree.Within.child hwf.keyed hx hq hparent
        simp [hformula c hc] at hF
    · exact FieldTree.not_within_root hwf.keyed hid hx
  · simp [FieldTree.place?_without_of_within hwf.keyed hid hx] at hsome

end Form

end LiveForm
