import LiveForm.Proofs.Form.Additions
import LiveForm.Proofs.Formula.Values

/-!
# Stale values

A formula is stale if the value that is stored for it is not the one that its expression has for the tree. As long as
a form is settled, a stale formula is pending itself, or reads a field that is pending. Edits keep it so, since they
mark what they change.
-/

set_option autoImplicit false

namespace LiveForm.Form

variable {f f' : Form} {n m : NodeId} {id : BindingId} {F : Formula}

/-- The value that is stored for the formula of a node outside templates is not the one that its expression has for
the tree. -/
def Stale (f : Form) (n : NodeId) : Prop :=
  ∃ q e, f.tree.place? n = some q ∧ q.inTemplate = false ∧ q.node.formula = some e ∧
    q.node.formulaValue ≠ freshValue? f.tree n e

/-- What is stale is pending, or reads something that is. -/
def Covered (f : Form) : Prop :=
  ∀ n, f.Stale n → n ∈ f.pending ∨ ∃ m ∈ f.pending, f.Feeds m n

/-- A binding stands for what its selector does. -/
theorem FollowsBut.caches_iff (h : Follows f) {b : Binding} (hb : f.registry.get? id = some b) :
    m ∈ b.cache ↔ f.tree.Matches b.selector b.base m := by
  have hd : f.registry.bound? id = some b.bound := by rw [Registry.bound?, hb, Option.map_some]
  constructor
  · exact fun hm => h.cached id _ m hd ⟨b, hb, hm⟩
  · intro hm
    obtain ⟨b', hb', hm'⟩ := h.complete id _ m hd not_false hm not_false
    exact Option.some.inj (hb'.symm.trans hb) ▸ hm'

theorem Settled.caches_iff (h : Settled f) {b : Binding} (hb : f.registry.get? id = some b) :
    m ∈ b.cache ↔ f.tree.Matches b.selector b.base m :=
  h.current.follows.caches_iff hb

/-- The bindings of a formula are in the registry. -/
theorem CoherentBut.exists_get? {unread : NodeId → Prop} (h : CoherentBut { unread } f)
    (hF : f.graph.formula? n = some F) (hid : id ∈ F.bindings) :
    ∃ b, f.registry.get? id = some b := by
  obtain ⟨b, hb, -⟩ := (h.consumers id n).2 (.inl ⟨F, hF, hid⟩)
  exact ⟨b, hb⟩

/-- The value of a formula in the graph is the one that its expression has for the tree. -/
theorem FollowsBut.freshValue? (h : Follows f) (ht : f.tree.Keyed) (hF : f.graph.formula? n = some F) :
    freshValue? f.tree n F.expression = F.evaluateCached f.registry f.tree := by
  obtain ⟨e, ⟨q, hq, hlive, -⟩, hreads⟩ := h.reads n F hF
  rw [hreads.text]
  exact freshValue?_eq ht hq hlive hreads fun id _ b hb m => h.caches_iff hb

theorem Settled.freshValue? (h : Settled f) (hF : f.graph.formula? n = some F) :
    freshValue? f.tree n F.expression = F.evaluateCached f.registry f.tree :=
  h.current.follows.freshValue? h.current.tree.keyed hF

/-- What stale means for a formula in the graph. -/
theorem Settled.stale_iff (h : Settled f) : f.Stale n ↔ ∃ F q, f.graph.formula? n = some F ∧
    f.tree.place? n = some q ∧ q.node.formulaValue ≠ F.evaluateCached f.registry f.tree := by
  constructor
  · rintro ⟨q, e, hq, hlive, he, hvalue⟩
    obtain ⟨F, hF⟩ := Option.isSome_iff_exists.1 (h.current.registered n e ⟨q, hq, hlive, he⟩ not_false)
    obtain ⟨e', ⟨q', hq', -, he'⟩, hreads⟩ := h.current.reads n F hF
    obtain rfl := Option.some.inj (hq.symm.trans hq')
    obtain rfl := Option.some.inj (he.symm.trans he')
    refine ⟨F, q, hF, hq, ?_⟩
    rw [← h.freshValue? hF, hreads.text]
    exact hvalue
  · rintro ⟨F, q, hF, hq, hvalue⟩
    obtain ⟨q', hq', hlive, he⟩ := h.current.place?_of_formula? hF
    obtain rfl := Option.some.inj (hq.symm.trans hq')
    exact ⟨q, F.expression, hq, hlive, he, by rw [h.freshValue? hF]; exact hvalue⟩

/-- The order of paths and the data of nodes are kept, but for values of nodes that are pending afterwards or that
nobody reads. -/
structure Traced (f f' : Form) : Prop where
  order : ∀ x y p q p' q', f.tree.place? x = some p → f.tree.place? y = some q →
    f'.tree.place? x = some p' → f'.tree.place? y = some q' →
    Path.matchOrder p'.path q'.path = Path.matchOrder p.path q.path
  formula : ∀ x p p', f.tree.place? x = some p → f'.tree.place? x = some p' →
    p'.node.formula = p.node.formula ∧ p'.node.formulaValue = p.node.formulaValue
  value : ∀ x p p', f.tree.place? x = some p → f'.tree.place? x = some p' →
    p'.node.value = p.node.value ∨ x ∈ f'.pending ∨ ∀ id, ¬ f'.registry.Caches id x

theorem Advance.traced (hf : f.tree.WellFormed) (h : Advance f f') : Traced f f' where
  order := h.carries.order
  formula x p p' hp hp' := by
    obtain ⟨q, hq, hnode⟩ := h.carries.node x p' hp' (FieldTree.lt_next_of_place? hf hp)
    obtain rfl := Option.some.inj (hp.symm.trans hq)
    exact ⟨by rw [hnode], by rw [hnode]⟩
  value x p p' hp hp' := by
    obtain ⟨q, hq, hnode⟩ := h.carries.node x p' hp' (FieldTree.lt_next_of_place? hf hp)
    obtain rfl := Option.some.inj (hp.symm.trans hq)
    exact .inl (by rw [hnode])

/-- A field has kept what its readers see if it has kept what was entered. -/
theorem Traced.authoritative? (h : Traced f f') {p p' : Place} (hp : f.tree.place? m = some p)
    (hp' : f'.tree.place? m = some p') (hvalue : p'.node.value = p.node.value) :
    f'.tree.authoritative? m = f.tree.authoritative? m := by
  obtain ⟨hformula, hformulaValue⟩ := h.formula m p p' hp hp'
  unfold FieldTree.authoritative?
  rw [FieldTree.get?_eq, FieldTree.get?_eq, hp, hp']
  simp only [Option.map_some, Option.bind_some, Node.authoritative?, hformula, hformulaValue, hvalue]

/-- A formula that reads the same fields as before, none of which is followed up, has the value that it had before. -/
theorem Traced.evaluateCached_eq (htraced : Traced f f') (h : Settled f) (h' : Settled f') {e : String}
    (hF : f.graph.formula? n = some F) (hF' : f'.graph.formula? n = some F)
    (hr : F.Reads f.tree f.registry n e) (hr' : F.Reads f'.tree f'.registry n e)
    (hcaches : ∀ id ∈ F.bindings, ∀ m, f'.registry.Caches id m ↔ f.registry.Caches id m)
    (hreads : ¬ ∃ m ∈ f'.pending, f'.Feeds m n) :
    F.evaluateCached f'.registry f'.tree = F.evaluateCached f.registry f.tree := by
  refine Formula.evaluateCached_congr fun id hid => ?_
  obtain ⟨b, hb⟩ := h.coherent.exists_get? hF hid
  obtain ⟨b', hb'⟩ := h'.coherent.exists_get? hF' hid
  have hd : f.registry.bound? id = some b.bound := by rw [Registry.bound?, hb, Option.map_some]
  have hd' : f'.registry.bound? id = some b'.bound := by rw [Registry.bound?, hb', Option.map_some]
  have hmem (m : NodeId) : m ∈ b'.cache ↔ m ∈ b.cache := by
    have hiff := hcaches id hid m
    simpa [Registry.Caches, hb, hb'] using hiff
  have hplaced (m : NodeId) (hm : m ∈ b.cache) : ∃ p p', f.tree.place? m = some p ∧
      f'.tree.place? m = some p' := by
    obtain ⟨p, hp, -⟩ := h.current.place?_of_caches (x := m) ⟨b, hb, hm⟩
    obtain ⟨p', hp', -⟩ := h'.current.place?_of_caches (x := m) ⟨b', hb', (hmem m).2 hm⟩
    exact ⟨p, p', hp, hp'⟩
  refine ⟨b, b', hb, hb', hr.selector_eq hr' hid hd hd', Std.ExtTreeSet.ext_mem hmem, ?_, ?_, ?_⟩
  · intro m hm
    obtain ⟨p, p', hp, hp'⟩ := hplaced m hm
    rw [FieldTree.contains_eq, FieldTree.contains_eq, hp, hp']
    rfl
  · intro m hm k hk
    obtain ⟨p, p', hp, hp'⟩ := hplaced m hm
    obtain ⟨s, s', hs, hs'⟩ := hplaced k hk
    rw [FieldTree.path_of_place? hp, FieldTree.path_of_place? hp', FieldTree.path_of_place? hs,
      FieldTree.path_of_place? hs']
    exact htraced.order m k p s p' s' hp hs hp' hs'
  · intro m hm
    obtain ⟨p, p', hp, hp'⟩ := hplaced m hm
    have hcached : f'.registry.Caches id m := ⟨b', hb', (hmem m).2 hm⟩
    refine htraced.authoritative? hp hp' ?_
    rcases htraced.value m p p' hp hp' with hv | hpend | hun
    · exact hv
    · exact absurd ⟨m, hpend, id, hcached, F, hF', hid⟩ hreads
    · exact absurd hcached (hun id)

/-- What an edit does not mark has kept its value. -/
theorem Covered.traced (hc : Covered f) (h : Settled f) (h' : Settled f') (hmarks : Marks f f')
    (htraced : Traced f f') : Covered f' := by
  intro n hstale
  by_cases hn : n ∈ f'.pending
  · exact .inl hn
  by_cases hreads : ∃ m ∈ f'.pending, f'.Feeds m n
  · exact .inr hreads
  exfalso
  obtain ⟨gone, hmarks⟩ := hmarks
  obtain ⟨F, q', hF', hq', hvalue⟩ := h'.stale_iff.1 hstale
  obtain ⟨hF, hgone, hcaches⟩ := hmarks.formula n F hF' hn
  obtain ⟨e, ⟨q, hq, -, he⟩, hr⟩ := h.current.reads n F hF
  obtain ⟨e', ⟨q'', hq'', -, he'⟩, hr'⟩ := h'.current.reads n F hF'
  obtain rfl := Option.some.inj (hq'.symm.trans hq'')
  obtain ⟨hformula, hformulaValue⟩ := htraced.formula n q q' hq hq'
  have hee : e' = e := by
    rw [hformula, he] at he'
    exact (Option.some.inj he').symm
  subst hee
  have hsame := htraced.evaluateCached_eq h h' hF hF' hr hr' (fun id hid m => (hcaches id hid m).1) hreads
  have hstale' : f.Stale n := h.stale_iff.2 ⟨F, q, hF, hq, by rw [← hformulaValue, ← hsame]; exact hvalue⟩
  rcases hc n hstale' with hp | ⟨m, hm, id, hcm, F₀, hF₀, hid⟩
  · exact (hmarks.pending n hp).elim hn hgone
  · obtain rfl := Option.some.inj (hF.symm.trans hF₀)
    obtain ⟨hiff, hnot⟩ := hcaches id hid m
    rcases hmarks.pending m hm with hp | hg
    · exact hreads ⟨m, hp, id, hiff.2 hcm, F, hF', hid⟩
    · exact hnot hcm hg

end LiveForm.Form
