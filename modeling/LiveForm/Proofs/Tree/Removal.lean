import LiveForm.Proofs.Tree.Children
import LiveForm.Proofs.Tree.Walks
import LiveForm.Tree.Edit

/-!
# Removing a subtree

Removing a node takes away the places at and below it and leaves all others alone.
-/

set_option autoImplicit false

namespace LiveForm

namespace Forest

variable {target : NodeId}

theorem erase_of_not_mem {f : Forest} (h : target ∉ f.ids) : f.erase target = f := by
  induction f with
  | nil => rfl
  | cons id key node children siblings ihc ihs =>
    simp only [ids, List.mem_cons, List.mem_append, not_or] at h
    simp [erase, ihc h.2.1, ihs h.2.2, Ne.symm h.1]

/-- Of the forest's own nodes, all but the removed one are left. -/
theorem heads_erase (f : Forest) : (f.erase target).heads = f.heads.filter (·.id ≠ target) := by
  induction f with
  | nil => rfl
  | cons id key node children siblings _ ihs =>
    rw [erase, heads, List.filter_cons]
    by_cases hid : id = target
    · simp [hid, ihs]
    · simp [hid, heads, ihs]

theorem distinctKeys_erase {f : Forest} (h : f.DistinctKeys) : (f.erase target).DistinctKeys := by
  induction f with
  | nil => exact h
  | cons id key node children siblings ihc ihs =>
    obtain ⟨hkh, hkc, hks⟩ := h
    simp only [erase]
    split
    · exact ihs hks
    · refine ⟨fun c hc => hkh c ?_, ihc hkc, ihs hks⟩
      rw [heads_erase] at hc
      exact (List.mem_filter.1 hc).1

theorem sublist_ids_erase (f : Forest) : (f.erase target).ids.Sublist f.ids := by
  induction f with
  | nil => exact List.Sublist.refl _
  | cons id key node children siblings ihc ihs =>
    simp only [erase, ids]
    split
    · exact (ihs.trans (List.sublist_append_right _ _)).cons _
    · exact (ihc.append ihs).cons_cons _

/-- The nodes at and below the removed one are gone. -/
theorem spot?_erase_of_mem {f g : Forest} {x : NodeId} (hn : f.ids.Nodup)
    (hg : f.below? target = some g) (hx : x = target ∨ x ∈ g.ids) :
    (f.erase target).spot? x = none := by
  induction f with
  | nil => rfl
  | cons id key node children siblings ihc ihs =>
    obtain ⟨hic, his, hnc, hns, hcs⟩ := nodup_ids_cons hn
    rw [erase]
    rcases below?_cases hg with ⟨rfl, rfl⟩ | ⟨ht, hg⟩ | ⟨ht, -, hg⟩
    · rw [if_pos rfl, erase_of_not_mem his, spot?_eq_none]
      rcases hx with rfl | hx
      · exact his
      · exact hcs x hx
    · have hxc : x ∈ children.ids := hx.elim (· ▸ mem_of_below? hg) (mem_ids_of_below? hg)
      have hne : id ≠ x := fun he => hic (he ▸ hxc)
      rw [if_neg ht, spot?, if_neg hne, ihc hnc hg, Option.map_none, Option.none_or, spot?_eq_none]
      exact fun hm => hcs x hxc ((sublist_ids_erase _).subset hm)
    · have hxs : x ∈ siblings.ids := hx.elim (· ▸ mem_of_below? hg) (mem_ids_of_below? hg)
      have hne : id ≠ x := fun he => his (he ▸ hxs)
      rw [if_neg ht, spot?, if_neg hne, ihs hns hg, Option.or_none, Option.map_eq_none_iff, spot?_eq_none]
      exact fun hm => hcs x ((sublist_ids_erase _).subset hm) hxs

/-- All other nodes stay where they are. -/
theorem spot?_erase_of_not_mem {f g : Forest} {x : NodeId} (hn : f.ids.Nodup)
    (hg : f.below? target = some g) (hxt : x ≠ target) (hx : x ∉ g.ids) :
    (f.erase target).spot? x = f.spot? x := by
  induction f with
  | nil => rfl
  | cons id key node children siblings ihc ihs =>
    obtain ⟨-, his, hnc, hns, hcs⟩ := nodup_ids_cons hn
    rw [erase]
    rcases below?_cases hg with ⟨rfl, rfl⟩ | ⟨ht, hg⟩ | ⟨ht, htc, hg⟩
    · rw [if_pos rfl, erase_of_not_mem his, spot?, if_neg (Ne.symm hxt), spot?_eq_none.2 hx, Option.map_none,
        Option.none_or]
    · rw [if_neg ht, erase_of_not_mem (hcs _ (mem_of_below? hg)), spot?, spot?, ihc hnc hg]
    · rw [if_neg ht, erase_of_not_mem htc, spot?, spot?, ihs hns hg]

/-- What is below another node stays as it is, but for the removed node. -/
theorem below?_erase {f : Forest} {x : NodeId} (hn : f.ids.Nodup) (hxt : x ≠ target)
    (hx : ∀ g, f.below? target = some g → x ∉ g.ids) :
    (f.erase target).below? x = (f.below? x).map (·.erase target) := by
  induction f with
  | nil => rfl
  | cons id key node children siblings ihc ihs =>
    obtain ⟨-, his, hnc, hns, -⟩ := nodup_ids_cons hn
    rw [erase]
    by_cases hid : id = target
    · subst hid
      have hxc : x ∉ children.ids := hx children (by rw [below?, if_pos rfl])
      rw [if_pos rfl, below?, if_neg (Ne.symm hxt), below?_eq_none.2 hxc, Option.none_or]
      refine ihs hns fun g hg => ?_
      exact absurd (mem_of_below? hg) his
    · rw [if_neg hid, below?, below?]
      by_cases hix : id = x
      · rw [if_pos hix, if_pos hix, Option.map_some]
      · have hchildren : ∀ g, children.below? target = some g → x ∉ g.ids := fun g hg =>
          hx g ((below?_of_mem_children hn (mem_of_below? hg)).trans hg)
        have hsiblings : ∀ g, siblings.below? target = some g → x ∉ g.ids := fun g hg =>
          hx g ((below?_of_mem_siblings hn (mem_of_below? hg)).trans hg)
        rw [if_neg hix, if_neg hix, ihc hnc hchildren, ihs hns hsiblings, Option.map_or]

end Forest

namespace FieldTree

variable {t : FieldTree} {target : NodeId}

/-- The tree without a node that is not the root, and without what is below that node. -/
def without (t : FieldTree) (id : NodeId) : FieldTree :=
  { t with fields := t.fields.erase id }

theorem place?_without_of_within (h : t.Keyed) (ht : target ≠ rootId) {x : NodeId}
    (hx : t.Within target x) : (t.without target).place? x = none := by
  obtain ⟨p, hp⟩ : ∃ p, t.place? target = some p := by
    obtain ⟨p, _, hp, _⟩ := hx
    exact ⟨p, hp⟩
  obtain ⟨g, hg⟩ := exists_below? hp
  have hmem := (within_iff h hg).1 hx
  rw [below?_of_ne_root t ht] at hg
  have hxr : x ≠ rootId := by
    rcases hmem with rfl | hmem
    · exact ht
    · exact h.ne_root x (Forest.mem_ids_of_below? hg hmem)
  rw [place?_of_ne_root _ hxr, Option.map_eq_none_iff]
  exact Forest.spot?_erase_of_mem h.nodup hg hmem

theorem place?_without_of_not_within (h : t.Keyed) (ht : target ≠ rootId) {x : NodeId}
    (hx : ¬ t.Within target x) : (t.without target).place? x = t.place? x := by
  by_cases hxr : x = rootId
  · subst hxr
    rw [place?_root, place?_root]
    rfl
  · rw [place?_of_ne_root _ hxr, place?_of_ne_root t hxr]
    by_cases hmem : target ∈ t.fields.ids
    · obtain ⟨g, hg⟩ := Forest.exists_below? hmem
      have hg' : t.below? target = some g := by rwa [below?_of_ne_root t ht]
      rw [within_iff h hg', not_or] at hx
      rw [without, Forest.spot?_erase_of_not_mem h.nodup hg hx.1 hx.2]
      rfl
    · rw [without, Forest.erase_of_not_mem hmem]

/-- A node that is in the tree after the removal was there before. -/
theorem place?_of_place?_without (h : t.Keyed) (ht : target ≠ rootId) {x : NodeId} {p : Place}
    (hp : (t.without target).place? x = some p) : t.place? x = some p ∧ ¬ t.Within target x := by
  by_cases hx : t.Within target x
  · simp [place?_without_of_within h ht hx] at hp
  · rw [place?_without_of_not_within h ht hx] at hp
    exact ⟨hp, hx⟩

theorem WellFormed.without (h : t.WellFormed) (ht : target ≠ rootId) :
    (t.without target).WellFormed where
  nodup := h.nodup.sublist (Forest.sublist_ids_erase _)
  ne_root x hx := h.ne_root x ((Forest.sublist_ids_erase _).subset hx)
  lt_next x hx := h.lt_next x ((Forest.sublist_ids_erase _).subset hx)
  next_pos := h.next_pos
  keys := Forest.distinctKeys_erase h.keys
  root_group := h.root_group
  root_live := h.root_live
  formulas id p hp := h.formulas id p (place?_of_place?_without h.keyed ht hp).1

/-- What a removal returns. -/
theorem removeSubtree_eq (t : FieldTree) (id : NodeId) : t.removeSubtree id =
    if id = rootId then .error (.invalidPath "/" .rootRemoval)
    else if t.contains id then .ok (t.postorderFrom id, t.without id)
    else .error (.handleNotFound id) := by
  unfold removeSubtree
  by_cases hr : id = rootId
  · rw [if_pos hr, if_pos hr]
    rfl
  · rw [if_neg hr, if_neg hr]
    rcases Option.eq_none_or_eq_some (t.locate? id) with hl | ⟨l, hl⟩
    · simp only [require, contains, hl]
      rfl
    · simp only [require, contains, hl]
      rfl

end FieldTree

end LiveForm
