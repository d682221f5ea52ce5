import LiveForm.Proofs.Form.Currency
import LiveForm.Proofs.Formula.Growing

/-!
# What the tree tells of the dependencies

Once the graph and the registry follow the tree, a formula reads the fields that the selectors in its expression stand
for. So the tree alone tells whether some formula depends on itself.
-/

set_option autoImplicit false

namespace LiveForm

/-- An error that says what is wrong with the formulas of a tree: some of them depend on themselves, and it names a circle
of these, or there is one that cannot be read. -/
def FieldTree.Explains (t : FieldTree) (e : FormError) : Prop :=
  (∃ circle, Graph.Circular t.Feeds circle ∧ e = .ofCycle (circle.map t.path)) ∨
    (e.IsOfFormula ∧ ∃ n text, t.FormulaAt n text ∧ ¬ Readable text)

/-- Such an error is not about a key. -/
theorem FieldTree.Explains.ne_duplicateKey {t : FieldTree} {e : FormError} (h : t.Explains e) (path : Path)
    (key : Step) : e ≠ .duplicateKey path key := by
  rcases h with ⟨circle, -, rfl⟩ | ⟨hof, -⟩
  · exact FormError.noConfusion
  · exact hof.ne_duplicateKey path key

/-- The nodes of a circle depend on themselves. -/
theorem FieldTree.not_acyclic_of_circular {t : FieldTree} {circle : List NodeId} (h : Graph.Circular t.Feeds circle) :
    ¬ t.Acyclic := by
  obtain ⟨n, hn⟩ := h.transGen
  exact fun hacyclic => hacyclic n hn

theorem FieldTree.Extends.formulaAt {t t' : FieldTree} {n : NodeId} {text : String} (h : Extends t t')
    (hat : t.FormulaAt n text) : t'.FormulaAt n text := by
  obtain ⟨q, hq, hlive, htext⟩ := hat
  obtain ⟨q', hq', hout⟩ := h n q hq
  obtain ⟨-, -, hformula, -, -, -, hin⟩ := Place.outline_eq hout
  exact ⟨q', hq', hin.trans hlive, hformula.trans htext⟩

/-- What is wrong with a part of a tree is wrong with the whole tree. -/
theorem FieldTree.Explains.extends {t t' : FieldTree} {e : FormError} (h : t.Explains e) (hext : Extends t t') :
    t'.Explains e := by
  rcases h with ⟨circle, hcircle, rfl⟩ | ⟨hof, n, text, hat, hread⟩
  · refine .inl ⟨circle, hcircle.mono fun m n hfeeds => hext.feeds hfeeds, congrArg _ (List.map_congr_left fun n hn => ?_)⟩
    obtain ⟨c, s, base, -, -, q, -, -, hq, -⟩ := hcircle.exists_next hn
    exact (hext.path_eq (by rw [hq]; rfl)).symm
  · exact .inr ⟨hof, n, text, hext.formulaAt hat, hread⟩

namespace Form

open Relation

variable {f : Form} {new : NodeId → Prop} {raw : BindingId → Prop} {m c : NodeId} {id : BindingId}

/-- A relation holds between the fields and the formulas that are linked, and also where a link is missing. -/
structure LinksAmong (R : NodeId → NodeId → Prop) (f : Form) : Prop where
  cached : ∀ id d m, f.registry.bound? id = some d → f.registry.Caches id m → f.tree.Matches d.selector d.base m
  related : ∀ id d m c, f.registry.bound? id = some d → f.graph.Uses c id → f.tree.Matches d.selector d.base m → R m c

section Linked

variable {R : NodeId → NodeId → Prop}

theorem LinksAmong.feeds (h : LinksAmong R f) (hfeeds : f.Feeds m c) : R m c := by
  obtain ⟨id, hc, hu⟩ := hfeeds
  have ⟨b, hb, _⟩ := hc
  have hd : f.registry.bound? id = some b.bound := by rw [Registry.bound?, hb, Option.map_some]
  exact h.related id _ m c hd hu (h.cached id _ m hd hc)

/-- If a link is refused to a field that the binding stands for, then the relation has the circle that the error names. -/
theorem LinksAmong.circular (h : LinksAmong R f) {d : Bound} (hd : f.registry.bound? id = some d)
    {fields : NodeId → Prop} (hfields : ∀ m, fields m → f.tree.Matches d.selector d.base m) {e : FormError}
    (hcloses : f.ClosesBy id fields e) : ∃ circle, Graph.Circular R circle ∧ e = f.cycleError circle :=
  hcloses.circular (fun _ _ => h.feeds) fun m c hm hu => h.related id d m c hd hu (hfields m hm)

end Linked

/-- What a formula in the graph uses, it selects. -/
theorem FollowsBut.mem_selectionsAt_of_uses (h : FollowsBut new raw f) {d : Bound} (hu : f.graph.Uses c id)
    (hd : f.registry.bound? id = some d) : (d.selector, d.base) ∈ f.tree.selectionsAt c := by
  obtain ⟨F, hF, hid⟩ := hu
  obtain ⟨e, ⟨q, hq, hlive, he⟩, hreads⟩ := h.reads c F hF
  unfold FieldTree.selectionsAt
  simp only [hq, hlive, he, Option.map_some, Option.getD_some, Bool.false_eq_true, if_false]
  exact FieldTree.mem_selections.2 (hreads.selects_iff.2 ⟨id, hid, d, hd, rfl, rfl⟩)

/-- All links are those of the tree, even while some are missing. -/
theorem FollowsBut.linksAmong (h : FollowsBut new raw f) : LinksAmong f.tree.Feeds f :=
  ⟨h.cached, fun _ d _ _ hd hu hm => ⟨d.selector, d.base, h.mem_selectionsAt_of_uses hu hd, hm⟩⟩

theorem FollowsBut.tree_feeds (h : FollowsBut new raw f) (hfeeds : f.Feeds m c) : f.tree.Feeds m c :=
  h.linksAmong.feeds hfeeds

/-- The selections of a formula in the graph are those of its bindings. -/
theorem FollowsBut.mem_selectionsAt (h : FollowsBut (fun _ => False) raw f) {s : Selector} {base : NodeId} :
    (s, base) ∈ f.tree.selectionsAt c ↔
      ∃ id d, f.graph.Uses c id ∧ f.registry.bound? id = some d ∧ d.selector = s ∧ d.base = base := by
  constructor
  · intro hmem
    unfold FieldTree.selectionsAt at hmem
    split at hmem
    · simp at hmem
    next q hq =>
      split at hmem
      · simp at hmem
      next hlive =>
        cases he : q.node.formula with
        | none => simp [he] at hmem
        | some e =>
          simp only [he, Option.map_some, Option.getD_some] at hmem
          have hat : f.tree.FormulaAt c e := ⟨q, hq, by simpa using hlive, he⟩
          obtain ⟨F, hF⟩ := Option.isSome_iff_exists.1 (h.registered c e hat not_false)
          obtain ⟨e', ⟨q', hq', -, he'⟩, hreads⟩ := h.reads c F hF
          obtain rfl := Option.some.inj (hq.symm.trans hq')
          obtain rfl := Option.some.inj (he.symm.trans he')
          obtain ⟨id, hid, d, hd, hs, hb⟩ := hreads.selects_iff.1 (FieldTree.mem_selections.1 hmem)
          exact ⟨id, d, ⟨F, hF, hid⟩, hd, hs, hb⟩
  · rintro ⟨id, d, hu, hd, rfl, rfl⟩
    exact h.mem_selectionsAt_of_uses hu hd

/-- The links are those that the tree tells. -/
theorem FollowsBut.feeds_iff (h : Follows f) : f.Feeds m c ↔ f.tree.Feeds m c := by
  refine ⟨h.tree_feeds, ?_⟩
  rintro ⟨s, base, hmem, hmatch⟩
  obtain ⟨id, d, hu, hd, rfl, rfl⟩ := h.mem_selectionsAt.1 hmem
  exact ⟨id, h.complete id d m hd not_false hmatch not_false, hu⟩

theorem FollowsBut.acyclic_iff (h : Follows f) : f.Acyclic ↔ f.tree.Acyclic := by
  have heq : f.Feeds = f.tree.Feeds := by
    funext m c
    exact propext h.feeds_iff
  unfold Form.Acyclic FieldTree.Acyclic
  rw [heq]

end Form

end LiveForm
