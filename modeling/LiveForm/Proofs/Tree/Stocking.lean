import LiveForm.Proofs.Tree.Layout
import LiveForm.Proofs.Tree.Rows

/-!
# Arrays that elements are added to

An array has its template from the start, and its elements come one after the other. Whatever the template looks like then,
each new element is a copy of it and gets the next number.
-/

set_option autoImplicit false

namespace LiveForm

namespace FieldTree

variable {t t' : FieldTree} {array parent id : NodeId} {key : Step} {new body : Forest} {node : Node} {path : Path} {inner : Layout}
  {n : Nat}

theorem WellFormed.modify_value (ht : t.WellFormed) (id : NodeId) (value : Value) :
    (t.modify id fun n => { n with value }).WellFormed :=
  ht.modify (fun _ => rfl) (fun _ => rfl) fun p hp => ht.formulas id p hp

/-- The next number of a row is free. -/
theorem HasRow.checkInsert (h : t.HasRow array n) (ht : t.WellFormed) {p : Place} (hp : t.place? array = some p)
    (harray : p.node.kind = .array) : t.checkInsert array (.index n) = .ok () := by
  refine checkInsert_of_free ht.keyed hp (by simp [harray, keyFits]) fun c hc hkey => ?_
  obtain ⟨g, hg⟩ := exists_below? hp
  rw [children_eq, hg] at hc
  obtain ⟨q, hq, hparent, hkeyed, -⟩ := (mem_heads_below? ht.keyed hg).1 hc
  have hchild := (childByKey?_eq_some ht.keyed).2 ⟨q, hq, hparent, hkeyed.trans (congrArg some hkey)⟩
  exact Nat.lt_irrefl n (h.lt_of_child ht hchild)

/-- An array while its elements are being added: its template has a layout, and there are some elements. -/
structure Stocked (t : FieldTree) (array : NodeId) (path : Path) (inner : Layout) (n : Nat) : Prop where
  placed : ∃ p, t.place? array = some p ∧ p.node.kind = .array ∧ p.path = path
  template : ∃ x q g, t.template? array = some x ∧ t.place? x = some q ∧
    q.node.blank = { kind := .group, isTemplate := true } ∧ t.below? x = some g ∧ g.layout = inner
  row : t.HasRow array n

/-- An element is added to an array. -/
theorem Stocked.grafts (h : t.Stocked array path inner n) (ht : t.WellFormed)
    (hgraft : Grafts t array (.cons id (.index n) node body .nil) t') (hlive : node.isTemplate = false) :
    t'.Stocked array path inner (n + 1) where
  placed := by
    obtain ⟨p, hp, hkind, hpath⟩ := h.placed
    refine ⟨p, ?_, hkind, hpath⟩
    rw [hgraft.place?_old ht (hgraft.parent_not_mem ht), hp]
  template := by
    obtain ⟨x, q, g, hx, hq, hnode, hg, hlayout⟩ := h.template
    obtain ⟨q', hq', hparent, -⟩ := template?_eq_some ht hx
    obtain rfl := Option.some.inj (hq.symm.trans hq')
    have hroot := ne_root_of_parent hq hparent
    have hnot : ¬ t.Within x array := not_within_parent ht.keyed hq hparent
    have hsame : t'.template? array = some x := by
      obtain ⟨p, hp, -⟩ := h.placed
      obtain ⟨c, hc⟩ := exists_below? hp
      rw [template?, children_eq, hc, Option.map_some, Option.getD_some] at hx
      rw [template?, children_eq, hgraft.below?_parent ht hc, Option.map_some, Option.getD_some, Forest.heads_append,
        List.find?_append]
      rw [Option.map_eq_some_iff] at hx ⊢
      obtain ⟨a, ha, rfl⟩ := hx
      exact ⟨a, by rw [ha, Option.some_or], rfl⟩
    refine ⟨x, q, g, hsame, ?_, hnode, hgraft.below?_old ht hg hroot ?_ ?_, hlayout⟩
    · rw [hgraft.place?_old ht fun hm => ?_, hq]
      simp [hgraft.place?_new ht hm] at hq
    · rintro rfl
      exact hnot (within_refl hq)
    · exact fun hm => hnot ((within_iff ht.keyed hg).2 (.inr hm))
  row := h.row.grafts ht hgraft hlive

/-- A copy of the template can be added to an array. It is a group, and has the layout of the template. -/
theorem Stocked.copySubtree (h : t.Stocked array path inner n) (ht : t.WellFormed) {x : NodeId}
    (hx : t.template? array = some x) : ∃ created id body t',
      t.copySubtree x array (.index (Form.nextIndex t array)) = .ok (created, t') ∧ created.head? = some id ∧
      Grafts t array (.cons id (.index n) { kind := .group } body .nil) t' ∧ body.layout = inner := by
  obtain ⟨p, hp, harray, -⟩ := h.placed
  obtain ⟨x', q, g, hx', hq, hnode, hg, hlayout⟩ := h.template
  obtain rfl := Option.some.inj (hx.symm.trans hx')
  rw [h.row.nextIndex ht]
  cases hcopy : t.copySubtree x array (.index n) with
  | error e =>
    have hcheck := checkInsert_of_copySubtree hq hcopy
    simp [h.row.checkInsert ht hp harray] at hcheck
  | ok r =>
    obtain ⟨created, t'⟩ := r
    obtain ⟨l, hl, hhead, hgraft, -⟩ := copySubtree_ok ht hcopy
    obtain ⟨hplace, hbelow, -⟩ := locate?_eq_some hl
    obtain rfl := Option.some.inj (hplace.symm.trans hq)
    obtain rfl := Option.some.inj (hbelow.symm.trans hg)
    have hcopied : ({ l.node.forCopy with isTemplate := false } : Node) = { kind := .group } := by
      have hforCopy : l.node.forCopy = { kind := .group, isTemplate := true } := hnode
      rw [hforCopy]
    rw [copied, hcopied] at hgraft
    exact ⟨created, t.next, _, t', rfl, hhead, hgraft, by rw [Forest.layout_copy, hlayout]⟩

/-- What stands below an array that has been added with its template. -/
theorem Grafts.template (h : Grafts t parent (.cons array key node (.cons id (.index templateIndex)
      { kind := .group, isTemplate := true } body .nil) .nil) t') (ht : t.WellFormed) {p : Place}
    (hp : t.place? parent = some p) : t'.children array = [⟨id, .index templateIndex, { kind := .group, isTemplate := true }⟩] ∧
      t'.below? id = some body ∧ ∃ q, t'.place? id = some q ∧ q.node = { kind := .group, isTemplate := true } ∧
        q.path = (p.path.child key).child (.index templateIndex) := by
  have hne : array ≠ id := fun he => h.root_not_mem (he ▸ List.mem_cons_self)
  have hid : id ∈ (Forest.cons array key node (.cons id (.index templateIndex)
      { kind := .group, isTemplate := true } body .nil) .nil).ids := by simp [Forest.ids]
  have hbelow : t'.below? array = some (.cons id (.index templateIndex) { kind := .group, isTemplate := true } body .nil) := by
    rw [h.below?_new ht List.mem_cons_self, Forest.below?, if_pos rfl]
  have hplace := place?_below (h.wellFormed ht).keyed (h.place?_root ht hp) hbelow List.mem_cons_self
  rw [Forest.spot?, if_pos rfl, Option.map_some] at hplace
  refine ⟨?_, ?_, _, hplace, rfl, rfl⟩
  · rw [children_eq, hbelow]
    rfl
  · rw [h.below?_new ht hid]
    simp [Forest.below?, hne]

/-- An array that has been added with its template has no elements yet. -/
theorem Grafts.stocked (h : Grafts t parent (.cons array key node (.cons id (.index templateIndex)
      { kind := .group, isTemplate := true } body .nil) .nil) t') (ht : t.WellFormed) {p : Place}
    (hp : t.place? parent = some p) (harray : node.kind = .array) :
    t'.Stocked array (p.path.child key) body.layout 0 := by
  obtain ⟨hchildren, hbelow, q, hq, hnode, -⟩ := h.template ht hp
  refine ⟨⟨_, h.place?_root ht hp, harray, rfl⟩, ⟨id, q, body, ?_, hq, ?_, hbelow, rfl⟩, ?_⟩
  · rw [template?, hchildren]
    rfl
  · rw [hnode]
    rfl
  · rw [HasRow, hchildren]
    exact List.Perm.refl _

end FieldTree

end LiveForm
