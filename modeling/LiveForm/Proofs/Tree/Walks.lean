import LiveForm.Proofs.Tree.WellFormed

/-!
# Walks through a tree

A walk through a subtree comes by each of its nodes once. Parents come before what is below them, or else behind it.
-/

set_option autoImplicit false

namespace LiveForm

namespace Forest

variable {f g below : Forest} {upper x : NodeId}

/-- In the order of a forest nothing comes behind what is below it. -/
theorem pairwise_ids (hn : f.ids.Nodup) : f.ids.Pairwise fun a b => ∀ g, f.below? b = some g → a ∉ g.ids := by
  induction f with
  | nil => exact .nil
  | cons id key node children siblings ihc ihs =>
    obtain ⟨hic, his, hnc, hns, hdisj⟩ := nodup_ids_cons hn
    rw [ids, List.pairwise_cons, List.pairwise_append]
    refine ⟨fun b hb g hg hid => ?_, (ihc hnc).imp_of_mem fun _ hb h g hg => ?_,
      (ihs hns).imp_of_mem fun _ hb h g hg => ?_, fun a ha b hb g hg hm => ?_⟩
    · rcases List.mem_append.1 hb with hb | hb
      · exact hic (mem_ids_of_below? (below?_of_mem_children hn hb ▸ hg) hid)
      · exact his (mem_ids_of_below? (below?_of_mem_siblings hn hb ▸ hg) hid)
    · exact h g (below?_of_mem_children hn hb ▸ hg)
    · exact h g (below?_of_mem_siblings hn hb ▸ hg)
    · exact hdisj a ha (mem_ids_of_below? (below?_of_mem_siblings hn hb ▸ hg) hm)

theorem perm_postorder (f : Forest) : f.postorder.Perm f.ids := by
  induction f with
  | nil => exact .nil
  | cons id key node children siblings ihc ihs =>
    rw [postorder, ids]
    exact List.perm_middle.trans ((ihc.append ihs).cons id)

/-- In the order in which children come first, nothing comes in front of what is below it. -/
theorem pairwise_postorder (hn : f.ids.Nodup) :
    f.postorder.Pairwise fun a b => ∀ g, f.below? a = some g → b ∉ g.ids := by
  induction f with
  | nil => exact .nil
  | cons id key node children siblings ihc ihs =>
    obtain ⟨hic, -, hnc, hns, hdisj⟩ := nodup_ids_cons hn
    rw [postorder, List.pairwise_append, List.pairwise_cons]
    refine ⟨(ihc hnc).imp_of_mem fun ha _ h g hg => ?_, ⟨fun b hb g hg hm => ?_,
      (ihs hns).imp_of_mem fun ha _ h g hg => ?_⟩, fun a ha b hb g hg hm => ?_⟩
    · exact h g (below?_of_mem_children hn (mem_postorder.1 ha) ▸ hg)
    · rw [below?, if_pos rfl] at hg
      exact hdisj b (Option.some.inj hg ▸ hm) (mem_postorder.1 hb)
    · exact h g (below?_of_mem_siblings hn (mem_postorder.1 ha) ▸ hg)
    · have hb' : b ∈ children.ids :=
        mem_ids_of_below? (below?_of_mem_children hn (mem_postorder.1 ha) ▸ hg) hm
      rcases List.mem_cons.1 hb with rfl | hb
      · exact hic hb'
      · exact hdisj b hb' (mem_postorder.1 hb)

/-- What is below a node below another one. -/
theorem below?_trans (hn : f.ids.Nodup) (hg : f.below? upper = some g) (hx : g.below? x = some below) :
    f.below? x = some below := by
  induction f with
  | nil => simp [below?] at hg
  | cons id key node children siblings ihc ihs =>
    obtain ⟨-, -, hnc, hns, -⟩ := nodup_ids_cons hn
    have hmem : x ∈ g.ids := mem_of_below? hx
    rcases below?_cases hg with ⟨-, rfl⟩ | ⟨-, hg⟩ | ⟨-, -, hg⟩
    · exact (below?_of_mem_children hn hmem).trans hx
    · exact (below?_of_mem_children hn (mem_ids_of_below? hg hmem)).trans (ihc hnc hg)
    · exact (below?_of_mem_siblings hn (mem_ids_of_below? hg hmem)).trans (ihs hns hg)

end Forest

namespace FieldTree

variable {t : FieldTree} {e n upper x : NodeId} {pre post : List NodeId}

theorem below?_of_below? (ht : t.Keyed) {g below : Forest} (hg : t.below? upper = some g)
    (hx : g.below? x = some below) : t.below? x = some below := by
  have hmem : x ∈ g.ids := Forest.mem_of_below? hx
  by_cases hupper : upper = rootId
  · subst hupper
    rw [below?_root] at hg
    obtain rfl := Option.some.inj hg
    rw [below?_of_ne_root t (ht.ne_root x hmem), hx]
  · rw [below?_of_ne_root t hupper] at hg
    rw [below?_of_ne_root t (ht.ne_root x (Forest.mem_ids_of_below? hg hmem))]
    exact Forest.below?_trans ht.nodup hg hx

/-- Among the nodes below a node, those at or below one of them. -/
theorem within_iff_of_mem (ht : t.Keyed) {g : Forest} {a b : NodeId} (hg : t.below? e = some g) (ha : a ∈ g.ids) :
    t.Within a b ↔ b = a ∨ ∃ h, g.below? a = some h ∧ b ∈ h.ids := by
  obtain ⟨h, hh⟩ := Forest.exists_below? ha
  rw [within_iff ht (below?_of_below? ht hg hh)]
  simp [hh]

/-- A node is not at or below one of those below it. -/
theorem not_within_of_mem (ht : t.Keyed) {g : Forest} {a : NodeId} (hg : t.below? e = some g) (ha : a ∈ g.ids) :
    ¬ t.Within a e := by
  obtain ⟨-, hself⟩ := nodup_below? ht hg
  rw [within_iff_of_mem ht hg ha]
  rintro (rfl | ⟨h, hh, hmem⟩)
  · exact hself ha
  · exact hself (Forest.mem_ids_of_below? hh hmem)

theorem nodup_preorderFrom (ht : t.Keyed) (e : NodeId) : (t.preorderFrom e).Nodup := by
  unfold preorderFrom
  cases hl : t.locate? e with
  | none => exact .nil
  | some l =>
    obtain ⟨-, hg, -⟩ := locate?_eq_some hl
    obtain ⟨hnodup, hself⟩ := nodup_below? ht hg
    exact List.nodup_cons.2 ⟨hself, hnodup⟩

/-- In the order of a subtree, nothing comes behind what is at or below it. -/
theorem pairwise_preorderFrom (ht : t.Keyed) (e : NodeId) :
    (t.preorderFrom e).Pairwise fun a b => ¬ t.Within b a := by
  unfold preorderFrom
  cases hl : t.locate? e with
  | none => exact .nil
  | some l =>
    obtain ⟨-, hg, -⟩ := locate?_eq_some hl
    obtain ⟨hnodup, -⟩ := nodup_below? ht hg
    refine List.pairwise_cons.2 ⟨fun b hb => not_within_of_mem ht hg hb, ?_⟩
    refine (hnodup.and (Forest.pairwise_ids hnodup)).imp_of_mem fun _ hb h => ?_
    rw [within_iff_of_mem ht hg hb]
    rintro (heq | ⟨below, hbelow, hmem⟩)
    · exact h.1 heq
    · exact h.2 below hbelow hmem

/-- Whatever is listed behind a node in the order of a subtree is not above it. -/
theorem not_within_of_preorder (ht : t.Keyed) {b : NodeId} (hnodes : t.preorderFrom e = pre ++ n :: post)
    (hb : b ∈ post) : ¬ t.Within b n := by
  have hpairwise := pairwise_preorderFrom ht e
  rw [hnodes, List.pairwise_append, List.pairwise_cons] at hpairwise
  exact hpairwise.2.1.1 b hb

/-- A node in the order of a subtree is behind all those that are above it, and in front of those that are below it. -/
theorem between_of_preorder (ht : t.Keyed) (hnodes : t.preorderFrom e = pre ++ n :: post) :
    t.Within e n ∧ n ∉ pre ∧ (∀ b, t.Within e b → b ∈ pre ++ [n] ∨ ¬ t.Within b n) ∧ ∀ x ∈ pre, ¬ t.Within n x := by
  have hmem {x : NodeId} : x ∈ pre ++ n :: post ↔ t.Within e x := by
    rw [← hnodes, mem_preorderFrom ht]
  refine ⟨hmem.1 (by simp), fun hpre => ?_, fun b hb => ?_, fun x hx => ?_⟩
  · have hnodup := nodup_preorderFrom ht e
    rw [hnodes] at hnodup
    exact (List.nodup_append.1 hnodup).2.2 n hpre n List.mem_cons_self rfl
  · rcases List.mem_append.1 (hmem.2 hb) with hpre | hpost
    · exact .inl (List.mem_append_left _ hpre)
    · rcases List.mem_cons.1 hpost with rfl | hpost
      · exact .inl (by simp)
      · exact .inr (not_within_of_preorder ht hnodes hpost)
  · obtain ⟨before, after, rfl⟩ := List.append_of_mem hx
    rw [List.append_assoc, List.cons_append] at hnodes
    exact not_within_of_preorder ht hnodes (by simp)

theorem perm_postorderFrom (t : FieldTree) (e : NodeId) : (t.postorderFrom e).Perm (t.preorderFrom e) := by
  unfold postorderFrom preorderFrom
  cases t.locate? e with
  | none => exact .nil
  | some l => exact List.perm_append_comm.trans ((Forest.perm_postorder l.children).cons e)

/-- In the order of a subtree in which children come first, nothing comes in front of what is at or below it. -/
theorem pairwise_postorderFrom (ht : t.Keyed) (e : NodeId) :
    (t.postorderFrom e).Pairwise fun a b => ¬ t.Within a b := by
  unfold postorderFrom
  cases hl : t.locate? e with
  | none => exact .nil
  | some l =>
    obtain ⟨-, hg, -⟩ := locate?_eq_some hl
    obtain ⟨hnodup, -⟩ := nodup_below? ht hg
    refine List.pairwise_append.2 ⟨?_, List.pairwise_singleton _ e, fun a ha b hb => ?_⟩
    · have hdistinct := (Forest.perm_postorder l.children).nodup_iff.2 hnodup
      refine (hdistinct.and (Forest.pairwise_postorder hnodup)).imp_of_mem fun ha _ h => ?_
      rw [within_iff_of_mem ht hg (Forest.mem_postorder.1 ha)]
      rintro (heq | ⟨below, hbelow, hmem⟩)
      · exact h.1 heq.symm
      · exact h.2 below hbelow hmem
    · rw [List.mem_singleton.1 hb]
      exact not_within_of_mem ht hg (Forest.mem_postorder.1 ha)

end FieldTree

end LiveForm
