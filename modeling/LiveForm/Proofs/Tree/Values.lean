import LiveForm.Proofs.Tree.Children
import LiveForm.Tree.Edit

/-!
# Changing the data of a node

A change of a node's data that leaves its kind and its template flag alone moves nothing: all places but
that of the node stay what they were.
-/

set_option autoImplicit false

namespace LiveForm

namespace Forest

variable {target : NodeId} {f : Node → Node}

theorem ids_modify (forest : Forest) : (forest.modify target f).ids = forest.ids := by
  induction forest with
  | nil => rfl
  | cons id key node children siblings ihc ihs => simp [modify, ids, ihc, ihs]

theorem keys_heads_modify (forest : Forest) :
    (forest.modify target f).heads.map Child.key = forest.heads.map Child.key := by
  induction forest with
  | nil => rfl
  | cons id key node children siblings _ ihs => simp [modify, heads, ihs]

theorem distinctKeys_modify {forest : Forest} (h : forest.DistinctKeys) :
    (forest.modify target f).DistinctKeys := by
  induction forest with
  | nil => exact h
  | cons id key node children siblings ihc ihs =>
    obtain ⟨hkh, hkc, hks⟩ := h
    refine ⟨?_, ihc hkc, ihs hks⟩
    intro c hc he
    have hmem : c.key ∈ siblings.heads.map Child.key := by
      rw [← keys_heads_modify (f := f)]
      exact List.mem_map_of_mem hc
    obtain ⟨c', hc', hkey⟩ := List.mem_map.1 hmem
    exact hkh c' hc' (hkey.trans he)

/-- Only the data of the changed node is another one. -/
theorem spot?_modify (hf : ∀ n, (f n).isTemplate = n.isTemplate) (x : NodeId) (forest : Forest) :
    (forest.modify target f).spot? x =
      (forest.spot? x).map fun s => { s with node := if x = target then f s.node else s.node } := by
  induction forest with
  | nil => rfl
  | cons id key node children siblings ihc ihs =>
    simp only [modify, spot?]
    by_cases hid : id = x
    · subst hid
      by_cases ht : id = target
      · simp [ht, hf]
      · simp [ht]
    · rw [if_neg hid, if_neg hid, ihc, ihs, Option.map_or, Option.map_map, Option.map_map]
      congr 1
      have htemplate : (if id = target then f node else node).isTemplate = node.isTemplate := by
        split <;> simp [hf]
      cases children.spot? x with
      | none => rfl
      | some s => simp [Spot.beneath, htemplate]

end Forest

namespace FieldTree

variable {t : FieldTree} {target : NodeId} {f : Node → Node}

/-- Only the place of the changed node shows other data. -/
theorem place?_modify (hf : ∀ n, (f n).isTemplate = n.isTemplate) (x : NodeId) :
    (t.modify target f).place? x =
      (t.place? x).map fun p => { p with node := if x = target then f p.node else p.node } := by
  by_cases ht : target = rootId
  · rw [modify, if_pos ht]
    by_cases hx : x = rootId
    · subst hx
      rw [place?_root, place?_root]
      simp [rootPlace, locatedRoot, Located.place, hf, ht]
    · have hne : x ≠ target := ht ▸ hx
      rw [place?_of_ne_root _ hx, place?_of_ne_root t hx]
      cases t.fields.spot? x with
      | none => rfl
      | some s => simp [rootPlace, locatedRoot, Located.place, Spot.place, hf, hne]
  · rw [modify, if_neg ht]
    by_cases hx : x = rootId
    · subst hx
      rw [place?_root, place?_root]
      simp [rootPlace, locatedRoot, Located.place, Ne.symm ht]
    · rw [place?_of_ne_root _ hx, place?_of_ne_root t hx, Forest.spot?_modify hf]
      cases t.fields.spot? x with
      | none => rfl
      | some s => simp [rootPlace, locatedRoot, Located.place, Spot.place]

/-- A change that keeps kinds and template flags, and gives formulas to fields only, leaves a tree
well-formed. -/
theorem WellFormed.modify (h : t.WellFormed) (hkind : ∀ n, (f n).kind = n.kind)
    (ht : ∀ n, (f n).isTemplate = n.isTemplate)
    (hf : ∀ p, t.place? target = some p → (f p.node).formula.isSome → p.node.kind = .field) :
    (t.modify target f).WellFormed := by
  have hformulas : ∀ id p, (t.modify target f).place? id = some p → p.node.formula.isSome →
      p.node.kind = .field := by
    intro id p hp hsome
    rw [place?_modify ht, Option.map_eq_some_iff] at hp
    obtain ⟨q, hq, rfl⟩ := hp
    by_cases hid : id = target
    · subst hid
      simp only [if_true, hkind] at hsome ⊢
      exact hf q hq hsome
    · simp only [if_neg hid] at hsome ⊢
      exact h.formulas id q hq hsome
  by_cases hroot : target = rootId
  · rw [FieldTree.modify, if_pos hroot] at hformulas ⊢
    exact { h with
      root_group := (hkind _).trans h.root_group
      root_live := (ht _).trans h.root_live
      formulas := hformulas }
  · rw [FieldTree.modify, if_neg hroot] at hformulas ⊢
    exact { h with
      nodup := by simpa [Forest.ids_modify] using h.nodup
      ne_root := by simpa [Forest.ids_modify] using h.ne_root
      lt_next := by simpa [Forest.ids_modify] using h.lt_next
      keys := Forest.distinctKeys_modify h.keys
      formulas := hformulas }

theorem next_modify : (t.modify target f).next = t.next := by
  rw [FieldTree.modify]
  split <;> rfl

end FieldTree

end LiveForm
