import LiveForm.Proofs.Path.Order
import LiveForm.Proofs.Tree.Fitting
import LiveForm.Proofs.Tree.Insertion
import LiveForm.Proofs.Tree.Rekeying

/-!
# Arrays

What an array has below it: its template under an index of its own, and elements with greater indices, all of which are
groups. The edits of a form keep it so.
-/

set_option autoImplicit false

namespace LiveForm

/-- A key that a child of an array may have. -/
def Step.IsSlot (key : Step) : Prop :=
  ∃ i, key = .index i ∧ templateIndex ≤ i

namespace Forest

variable {f g new : Forest} {above : Kind} {target x : NodeId}

/-- In a forest below a node of some kind, templates have the index of templates, and arrays have groups only, whose
indices are not less than that of the template. -/
def Shaped (above : Kind) : Forest → Prop
  | nil => True
  | cons _ key node children siblings =>
    (node.isTemplate = true → key = .index templateIndex) ∧
      (above = .array → node.kind = .group ∧ key.IsSlot) ∧ children.Shaped node.kind ∧ siblings.Shaped above

/-- The condition on a node and its key below a node of some kind. -/
def IsShaped (above : Kind) (key : Step) (node : Node) : Prop :=
  (node.isTemplate = true → key = .index templateIndex) ∧ (above = .array → node.kind = .group ∧ key.IsSlot)

theorem shaped_iff : f.Shaped above ↔ f.Fits IsShaped above := by
  induction f generalizing above with
  | nil => rfl
  | cons id key node children siblings ihc ihs => simp only [Shaped, Fits, IsShaped, ihc, ihs, and_assoc]

theorem shaped_copy (rename : NodeId → NodeId) (h : f.Shaped above) :
    (f.copy rename).Shaped above :=
  shaped_iff.2 (fits_copy (fun _ _ _ hnode => hnode) rename (shaped_iff.1 h))

theorem sublist_heads (f : Forest) : (f.heads.map Child.id).Sublist f.ids := by
  induction f with
  | nil => exact List.Sublist.slnil
  | cons id key node children siblings _ ih =>
    simp only [heads, List.map_cons, ids]
    exact (ih.trans (List.sublist_append_right _ _)).cons_cons id

end Forest

namespace FieldTree

variable {t t' : FieldTree} {array parent id x : NodeId} {new : Forest}

/-- Templates have the index of templates, and arrays have groups only. -/
def Shaped (t : FieldTree) : Prop :=
  t.fields.Shaped t.root.kind

theorem shaped_iff : t.Shaped ↔ t.Fits Forest.IsShaped :=
  Forest.shaped_iff

theorem Shaped.template (h : t.Shaped) (ht : t.WellFormed) {q : Place} (hq : t.place? x = some q)
    (htemplate : q.node.isTemplate = true) : q.key = some (.index templateIndex) := by
  have hx : x ≠ rootId := by
    rintro rfl
    obtain rfl := Option.some.inj (t.place?_root.symm.trans hq)
    exact Bool.noConfusion (ht.root_live.symm.trans htemplate)
  obtain ⟨parent, p, -, hparent, hp, -⟩ := exists_place?_parent ht.keyed hx hq
  obtain ⟨key, hkey, hindex, -⟩ := (shaped_iff.1 h).child ht.keyed hq hparent hp
  rw [hkey, hindex htemplate]

/-- What is below a node fits the kind of the node. -/
theorem Shaped.below? (h : t.Shaped) (ht : t.WellFormed) {q : Place} {g : Forest}
    (hq : t.place? x = some q) (hg : t.below? x = some g) : g.Shaped q.node.kind :=
  Forest.shaped_iff.2 ((shaped_iff.1 h).below? ht.nodup hq hg)

/-- The children of an array are groups, and have indices. -/
theorem Shaped.child (h : t.Shaped) (ht : t.WellFormed) {p q : Place} (hp : t.place? array = some p)
    (harray : p.node.kind = .array) (hq : t.place? x = some q) (hparent : q.parent = some array) :
    q.node.kind = .group ∧ ∃ i, q.key = some (.index i) ∧ templateIndex ≤ i := by
  obtain ⟨key, hkey, -, hchild⟩ := (shaped_iff.1 h).child ht.keyed hq hparent hp
  obtain ⟨hkind, i, rfl, hle⟩ := hchild harray
  exact ⟨hkind, i, hkey, hle⟩

theorem Shaped.group (h : t.Shaped) (ht : t.WellFormed) {p q : Place} (hp : t.place? array = some p)
    (harray : p.node.kind = .array) (hq : t.place? x = some q) (hparent : q.parent = some array) :
    q.node.kind = .group :=
  (h.child ht hp harray hq hparent).1

theorem Shaped.graft (h : t.Shaped) (ht : t.WellFormed) {p : Place} (hp : t.place? parent = some p)
    (hnew : new.Shaped p.node.kind) {next : NodeId} :
    ({ t.graft parent new with next := next } : FieldTree).Shaped :=
  shaped_iff.2 ((fits_graft ht.nodup hp).2 ⟨shaped_iff.1 h, Forest.shaped_iff.1 hnew⟩)

theorem Shaped.without (h : t.Shaped) : (t.without id).Shaped :=
  shaped_iff.2 ((shaped_iff.1 h).without id)

theorem Shaped.modify (h : t.Shaped) {m : Node → Node} (hkind : ∀ n, (m n).kind = n.kind)
    (htemplate : ∀ n, (m n).isTemplate = n.isTemplate) : (t.modify id m).Shaped := by
  refine shaped_iff.2 ((shaped_iff.1 h).modify hkind fun above key node hnode => ?_)
  rwa [Forest.IsShaped, hkind, htemplate]

theorem Shaped.withKey (h : t.Shaped) (ht : t.WellFormed) (hid : id ≠ rootId) {q : Place}
    (hq : t.place? id = some q) (hlive : q.node.isTemplate = false) {key : Step}
    (hslot : key.IsSlot) : (t.withKey id key).Shaped := by
  refine shaped_iff.2 ((shaped_iff.1 h).withKey ht.nodup hid hq fun old a _ hold => ⟨fun htemplate => ?_, fun ha => ?_⟩)
  · rw [hlive] at htemplate
    cases htemplate
  · exact ⟨(hold.2 ha).1, hslot⟩

/-- The elements of an array are its children with indices, apart from the template. -/
theorem mem_elements (ht : t.WellFormed) {i : Int} : (i, x) ∈ t.elements array ↔ ∃ q,
    t.place? x = some q ∧ q.parent = some array ∧ q.key = some (.index i) ∧
      q.node.isTemplate = false := by
  simp only [elements, List.mem_mergeSort, List.mem_filterMap, children_eq]
  cases hg : t.below? array with
  | none =>
    simp only [Option.map_none, Option.getD_none, List.not_mem_nil, false_and, exists_false, false_iff]
    rintro ⟨q, hq, hparent, -⟩
    obtain ⟨g, hg'⟩ := exists_below?_parent ht.keyed hq hparent
    simp [hg] at hg'
  | some g =>
    simp only [Option.map_some, Option.getD_some]
    constructor
    · rintro ⟨c, hc, hsome⟩
      split at hsome
      next i' _ hkey htemplate =>
        simp only [Option.some.injEq, Prod.mk.injEq] at hsome
        obtain ⟨rfl, rfl⟩ := hsome
        obtain ⟨q, hq, hparent, hkey', hnode⟩ := (mem_heads_below? ht.keyed hg).1 hc
        exact ⟨q, hq, hparent, by rw [hkey', hkey], by rw [hnode, htemplate]⟩
      next => simp at hsome
    · rintro ⟨q, hq, hparent, hkey, htemplate⟩
      refine ⟨⟨x, .index i, q.node⟩, (mem_heads_below? ht.keyed hg).2 ⟨q, hq, hparent, hkey, rfl⟩, ?_⟩
      simp [htemplate]

/-- The elements come in the order of their indices. -/
theorem pairwise_elements (t : FieldTree) (array : NodeId) :
    (t.elements array).Pairwise fun a b => a.1 ≤ b.1 := by
  unfold elements
  exact pairwise_mergeSort_le Prod.fst _

theorem template?_eq_some (ht : t.WellFormed) (h : t.template? array = some x) : ∃ q,
    t.place? x = some q ∧ q.parent = some array ∧ q.node.isTemplate = true := by
  rw [template?, children_eq, Option.map_eq_some_iff] at h
  obtain ⟨c, hc, rfl⟩ := h
  have hmem := List.mem_of_find?_eq_some hc
  have htemplate := List.find?_some hc
  cases hg : t.below? array with
  | none => simp [hg] at hmem
  | some g =>
    rw [hg] at hmem
    obtain ⟨q, hq, hparent, -, hnode⟩ := (mem_heads_below? ht.keyed hg).1 hmem
    exact ⟨q, hq, hparent, by rw [hnode]; exact htemplate⟩

/-- The child that has a key. -/
theorem childByKey?_eq_some (ht : t.Keyed) {key : Step} :
    t.childByKey? parent key = some x ↔ ∃ q, t.place? x = some q ∧ q.parent = some parent ∧
      q.key = some key := by
  have hbelow : t.childByKey? parent key = (t.below? parent).bind (·.childByKey? key) := by
    unfold childByKey? FieldTree.below?
    cases t.locate? parent <;> rfl
  rw [hbelow]
  cases hg : t.below? parent with
  | none =>
    simp only [Option.bind_none, reduceCtorEq, false_iff]
    rintro ⟨q, hq, hparent, -⟩
    obtain ⟨g, hg'⟩ := exists_below?_parent ht hq hparent
    simp [hg] at hg'
  | some g =>
    rw [Option.bind_some, Forest.childByKey?_eq_some (distinctKeys_below? ht hg)]
    constructor
    · rintro ⟨node, hc⟩
      obtain ⟨q, hq, hparent, hkey, -⟩ := (mem_heads_below? ht hg).1 hc
      exact ⟨q, hq, hparent, hkey⟩
    · rintro ⟨q, hq, hparent, hkey⟩
      exact ⟨q.node, (mem_heads_below? ht hg).2 ⟨q, hq, hparent, hkey, rfl⟩⟩

/-- No element comes twice. -/
theorem nodup_elements (ht : t.WellFormed) (array : NodeId) :
    ((t.elements array).map Prod.snd).Nodup := by
  unfold elements
  refine ((List.mergeSort_perm _ _).map Prod.snd).nodup_iff.2 ?_
  rw [children_eq]
  cases hg : t.below? array with
  | none => simp
  | some g =>
    have hnodup : (g.heads.map Child.id).Nodup := (nodup_below? ht.keyed hg).1.sublist g.sublist_heads
    simp only [Option.map_some, Option.getD_some]
    refine hnodup.sublist ?_
    clear hnodup hg
    induction g.heads with
    | nil => exact List.Sublist.slnil
    | cons c rest ih =>
      rw [List.filterMap_cons]
      split
      · exact ih.cons _
      next entry hentry =>
        have he : entry.2 = c.id := by
          split at hentry
          · simp only [Option.some.injEq] at hentry
            rw [← hentry]
          · simp at hentry
        rw [List.map_cons, List.map_cons, he]
        exact ih.cons_cons _

/-- A node has one child with a key at most. -/
theorem eq_of_key_eq (ht : t.WellFormed) {y : NodeId} {q q' : Place} (hq : t.place? x = some q)
    (hq' : t.place? y = some q') (hparent : q.parent = some parent) (hparent' : q'.parent = some parent)
    {key : Step} (hkey : q.key = some key) (hkey' : q'.key = some key) : x = y := by
  have h := (childByKey?_eq_some ht.keyed).2 ⟨q, hq, hparent, hkey⟩
  have h' := (childByKey?_eq_some ht.keyed).2 ⟨q', hq', hparent', hkey'⟩
  exact Option.some.inj (h.symm.trans h')

/-- No two elements have the same index. -/
theorem sorted_elements (ht : t.WellFormed) (array : NodeId) :
    (t.elements array).Pairwise fun a b => a.1 < b.1 := by
  have hnodup := List.pairwise_map.1 (List.nodup_iff_pairwise_ne.1 (nodup_elements ht array))
  refine ((pairwise_elements t array).and hnodup).imp_of_mem ?_
  rintro ⟨i, x⟩ ⟨j, y⟩ hx hy ⟨hle, hne⟩
  refine Std.lt_of_le_of_ne hle fun hij => hne ?_
  obtain ⟨q, hq, hparent, hkey, -⟩ := (mem_elements ht).1 hx
  obtain ⟨q', hq', hparent', hkey', -⟩ := (mem_elements ht).1 hy
  have hij' : i = j := hij
  subst hij'
  exact eq_of_key_eq ht hq hq' hparent hparent' hkey hkey'

end FieldTree

end LiveForm
