import LiveForm.Proofs.Selector.Matching
import LiveForm.Proofs.Tree.Insertion

/-!
# What survives an edit of a tree

An edit leaves most nodes as they are. Two degrees of this matter. The outline of a node is all about it but its
values; selectors and formulas depend on nothing else. `FieldTree.Carries` says that nodes which survive keep
their data, and that they are read in the same order.
-/

set_option autoImplicit false

namespace LiveForm

/-- The place of a node without its values. -/
def Place.outline (p : Place) : Place :=
  { p with node := { p.node with value := .void, formulaValue := none } }

theorem Place.outline_eq {p q : Place} (h : p.outline = q.outline) :
    p.key = q.key ∧ p.node.kind = q.node.kind ∧ p.node.formula = q.node.formula ∧
      p.node.isTemplate = q.node.isTemplate ∧ p.parent = q.parent ∧ p.path = q.path ∧
      p.inTemplate = q.inTemplate := by
  obtain ⟨key, ⟨kind, value, formula, formulaValue, isTemplate⟩, parent, path, inTemplate⟩ := p
  obtain ⟨key', ⟨kind', value', formula', formulaValue', isTemplate'⟩, parent', path', inTemplate'⟩ := q
  simp only [outline, Place.mk.injEq, Node.mk.injEq] at h
  simp only [true_and] at h
  grind

namespace FieldTree

variable {t t' t'' : FieldTree} {parent : NodeId} {new : Forest} {x : NodeId}

/-- Nodes that survive keep their data, and they are read in the same order. -/
structure Carries (t t' : FieldTree) : Prop where
  next : t.next ≤ t'.next
  node : ∀ x q, t'.place? x = some q → x < t.next → ∃ p, t.place? x = some p ∧ q.node = p.node
  order : ∀ x y p q p' q', t.place? x = some p → t.place? y = some q → t'.place? x = some p' →
    t'.place? y = some q' → Path.matchOrder p'.path q'.path = Path.matchOrder p.path q.path

theorem Carries.refl (t : FieldTree) : Carries t t where
  next := Nat.le_refl _
  node _ q hq _ := ⟨q, hq, rfl⟩
  order x y p q p' q' hp hq hp' hq' := by
    rw [Option.some.inj (hp.symm.trans hp'), Option.some.inj (hq.symm.trans hq')]

theorem Carries.trans (ht : t.WellFormed) (h : Carries t t') (h' : Carries t' t'') :
    Carries t t'' where
  next := Nat.le_trans h.next h'.next
  node x q hq hx := by
    obtain ⟨p', hp', hnode'⟩ := h'.node x q hq (Nat.lt_of_lt_of_le hx h.next)
    obtain ⟨p, hp, hnode⟩ := h.node x p' hp' hx
    exact ⟨p, hp, hnode'.trans hnode⟩
  order x y p q p'' q'' hp hq hp'' hq'' := by
    obtain ⟨p', hp', -⟩ :=
      h'.node x p'' hp'' (Nat.lt_of_lt_of_le (lt_next_of_place? ht hp) h.next)
    obtain ⟨q', hq', -⟩ :=
      h'.node y q'' hq'' (Nat.lt_of_lt_of_le (lt_next_of_place? ht hq) h.next)
    rw [h'.order x y p' q' p'' q'' hp' hq' hp'' hq'', h.order x y p q p' q' hp hq hp' hq']

/-- Nodes that survive in the same place survive. -/
theorem carries_of_place? (hnext : t.next ≤ t'.next)
    (h : ∀ x q, t'.place? x = some q → x < t.next → t.place? x = some q) (ht : t.WellFormed) :
    Carries t t' where
  next := hnext
  node x q hq hx := ⟨q, h x q hq hx, rfl⟩
  order x y p q p' q' hp hq hp' hq' := by
    rw [Option.some.inj (hp.symm.trans (h x p' hp' (lt_next_of_place? ht hp))),
      Option.some.inj (hq.symm.trans (h y q' hq' (lt_next_of_place? ht hq)))]

theorem Grafts.carries (h : Grafts t parent new t') (ht : t.WellFormed) : Carries t t' := by
  refine carries_of_place? h.next (fun x q hq hx => ?_) ht
  rwa [h.place?_old ht fun hn => Nat.not_lt.2 (h.fresh x hn) hx] at hq

theorem carries_without (ht : t.WellFormed) (hx : x ≠ rootId) : Carries t (t.without x) :=
  carries_of_place? (Nat.le_refl _) (fun _ _ hq _ => (place?_of_place?_without ht.keyed hx hq).1) ht

/-- The root is below no other node. -/
theorem not_within_root (ht : t.Keyed) (hx : x ≠ rootId) : ¬ t.Within x rootId := by
  rintro ⟨p, q, hp, hq, hpre⟩
  obtain ⟨g, hg⟩ := exists_below? hp
  rcases (within_iff ht hg).1 ⟨p, q, hp, hq, hpre⟩ with he | hmem
  · exact hx he.symm
  · rw [below?_of_ne_root t hx] at hg
    exact ht.ne_root _ (Forest.mem_ids_of_below? hg hmem) rfl

/-- What is below a node stays below it with its children. -/
theorem Within.child (ht : t.Keyed) {upper y : NodeId} (h : t.Within upper x) {q : Place}
    (hy : t.place? y = some q) (hparent : q.parent = some x) : t.Within upper y := by
  obtain ⟨p, q', hp, hq', hpre⟩ := h
  obtain ⟨parent, p', key, hparent', hp', -, hpath, -⟩ :=
    exists_place?_parent ht (ne_root_of_parent hy hparent) hy
  obtain rfl : x = parent := Option.some.inj (hparent.symm.trans hparent')
  obtain rfl := Option.some.inj (hq'.symm.trans hp')
  refine ⟨p, q, hp, hy, hpre.trans ?_⟩
  rw [hpath]
  exact List.prefix_append _ _

/-- A node strictly below another one has its parent at or below it. -/
theorem Within.above (ht : t.Keyed) {upper y : NodeId} (h : t.Within upper y) (hne : y ≠ upper) {q : Place}
    (hy : t.place? y = some q) (hparent : q.parent = some x) : t.Within upper x := by
  obtain ⟨p, q', hp, hq', hpre⟩ := h
  obtain rfl := Option.some.inj (hy.symm.trans hq')
  obtain ⟨parent, p', key, hparent', hp', -, hpath, -⟩ :=
    exists_place?_parent ht (ne_root_of_parent hy hparent) hy
  obtain rfl : x = parent := Option.some.inj (hparent.symm.trans hparent')
  rw [hpath, Path.child, List.prefix_concat_iff] at hpre
  rcases hpre with heq | hpre
  · have hpaths : p.path = q.path := by rw [hpath, Path.child, ← heq]
    exact absurd (eq_of_path_eq ht hy hp hpaths.symm) hne
  · exact ⟨p, p', hp, hp', hpre⟩

section Outline

/-- Which fields a selector stands for depends on the outlines of the base and of the fields. -/
theorem Matches.congr {s : Selector} {base field : NodeId} (h : t.Matches s base field)
    (hbase : (t'.place? base).map Place.outline = (t.place? base).map Place.outline)
    (hfield : (t'.place? field).map Place.outline = (t.place? field).map Place.outline) :
    t'.Matches s base field := by
  obtain ⟨p, q, steps, hp, hq, hlive, hkind, hlive', hsteps, hfits⟩ := h
  rw [hp, Option.map_some, Option.map_eq_some_iff] at hbase
  rw [hq, Option.map_some, Option.map_eq_some_iff] at hfield
  obtain ⟨p', hp', hpp⟩ := hbase
  obtain ⟨q', hq', hqq⟩ := hfield
  obtain ⟨-, -, -, -, -, hpath, htemplate⟩ := Place.outline_eq hpp
  obtain ⟨-, hkind', -, -, -, hpath', htemplate'⟩ := Place.outline_eq hqq
  exact ⟨p', q', steps, hp', hq', htemplate.trans hlive, hkind'.trans hkind, htemplate'.trans hlive',
    by rw [hpath, hpath', hsteps], hfits⟩

theorem place?_of_outline {p : Place} (hp : t.place? x = some p)
    (h : (t'.place? x).map Place.outline = (t.place? x).map Place.outline) :
    ∃ p', t'.place? x = some p' ∧ p'.outline = p.outline := by
  rw [hp, Option.map_some, Option.map_eq_some_iff] at h
  exact h

theorem parent_of_outline (h : (t'.place? x).map Place.outline = (t.place? x).map Place.outline) :
    (t'.place? x).bind Place.parent = (t.place? x).bind Place.parent := by
  cases hp : t.place? x with
  | none =>
    rw [hp, Option.map_none, Option.map_eq_none_iff] at h
    rw [h]
  | some p =>
    obtain ⟨p', hp', hpp⟩ := place?_of_outline hp h
    rw [hp']
    exact (Place.outline_eq hpp).2.2.2.2.1

end Outline

end FieldTree

end LiveForm
