import LiveForm.Proofs.Path.Order
import LiveForm.Proofs.Tree.Carrying
import LiveForm.Proofs.Tree.Relocating

/-!
# Moving a subtree to another index

An element of an array moves to an index that no child of the array has. The paths of all nodes below it change in one
step, and no two nodes change their order.
-/

set_option autoImplicit false

namespace LiveForm

section Order

variable {i : Int} {s : Step} {above steps : List Step}

/-- An index and the one before it compare alike with every other key. -/
theorem Step.compare_index_pred (hs : s ≠ .index i) (hs' : s ≠ .index (i - 1)) :
    compare (Step.index (i - 1)) s = compare (Step.index i) s ∧ compare (Step.index i) s ≠ .eq ∧
      compare s (Step.index (i - 1)) = compare s (Step.index i) ∧ compare s (Step.index i) ≠ .eq := by
  cases s with
  | name text => exact ⟨rfl, by simp [compare, Step.compare], rfl, by simp [compare, Step.compare]⟩
  | index j =>
    have hij : j ≠ i := fun h => hs (h ▸ rfl)
    have hij' : j ≠ i - 1 := fun h => hs' (h ▸ rfl)
    rw [compare_index, compare_index, compare_index, compare_index]
    rcases Int.lt_or_gt_of_ne hij with hlt | hgt
    · have hlt' : j < i - 1 := by omega
      rw [Int.compare_eq_lt.2 hlt, Int.compare_eq_lt.2 hlt', Int.compare_eq_gt.2 hlt, Int.compare_eq_gt.2 hlt']
      exact ⟨rfl, by simp, rfl, by simp⟩
    · have hgt' : i - 1 < j := by omega
      rw [Int.compare_eq_lt.2 hgt, Int.compare_eq_lt.2 hgt', Int.compare_eq_gt.2 hgt, Int.compare_eq_gt.2 hgt']
      exact ⟨rfl, by simp, rfl, by simp⟩

/-- A path that runs along an index compares with one that does not as if it ran along the index before. -/
theorem compare_steps_pred (hi : ¬ above ++ [.index i] <+: steps) (hi' : ¬ above ++ [.index (i - 1)] <+: steps)
    (rest : List Step) :
    compare (above ++ .index (i - 1) :: rest) steps = compare (above ++ .index i :: rest) steps ∧
      compare steps (above ++ .index (i - 1) :: rest) = compare steps (above ++ .index i :: rest) := by
  induction above generalizing steps with
  | nil =>
    cases steps with
    | nil => exact ⟨rfl, rfl⟩
    | cons s more =>
      have hs : s ≠ .index i := by
        rintro rfl
        exact hi ⟨more, rfl⟩
      have hs' : s ≠ .index (i - 1) := by
        rintro rfl
        exact hi' ⟨more, rfl⟩
      obtain ⟨hleft, hne, hright, hne'⟩ := Step.compare_index_pred hs hs'
      simp only [List.nil_append, List.compare_cons_cons, hleft, hright]
      constructor
      · cases hc : compare (Step.index i) s <;> simp_all
      · cases hc : compare s (Step.index i) <;> simp_all
  | cons a above ih =>
    cases steps with
    | nil => exact ⟨rfl, rfl⟩
    | cons s more =>
      simp only [List.cons_append, List.compare_cons_cons]
      by_cases has : a = s
      · subst has
        obtain ⟨hleft, hright⟩ := ih
          (fun h => hi ((List.prefix_cons_inj a).2 h)) fun h => hi' ((List.prefix_cons_inj a).2 h)
        rw [hleft, hright]
        exact ⟨rfl, rfl⟩
      · have hne : compare a s ≠ .eq := fun he => has (Std.LawfulEqOrd.eq_of_compare he)
        have hne' : compare s a ≠ .eq := fun he => has (Std.LawfulEqOrd.eq_of_compare he).symm
        constructor
        · cases hc : compare a s <;> simp_all
        · cases hc : compare s a <;> simp_all

end Order

namespace FieldTree

variable {t t' : FieldTree} {e : NodeId} {above : List Step} {i : Int}

/-- If a subtree moves from one index to the one before, nodes keep their data and their order. -/
theorem Reroutes.carries (h : Reroutes t t' e (above ++ [.index i]) (above ++ [.index (i - 1)]))
    (hnext : t'.next = t.next) : Carries t t' where
  next := Nat.le_of_eq hnext.symm
  node x q hq _ := by
    obtain ⟨p, hp, hnode, -⟩ := h.relocates.place?_back hq
    exact ⟨p, hp, hnode⟩
  order x y p q p' q' hp hq hp' hq' := by
    have hsteps {x : NodeId} {p p' : Place} (hx : t.Within e x) (hp : t.place? x = some p)
        (hp' : t'.place? x = some p') : ∃ rest, p.path.steps = above ++ .index i :: rest ∧
          p'.path.steps = above ++ .index (i - 1) :: rest := by
      simpa only [List.append_assoc, List.singleton_append] using h.steps hx hp hp'
    unfold Path.matchOrder
    have hlength {x : NodeId} {p p' : Place} (hp : t.place? x = some p) (hp' : t'.place? x = some p') :
        p'.path.length = p.path.length := by
      by_cases hx : t.Within e x
      · obtain ⟨rest, hold, hnew⟩ := hsteps hx hp hp'
        simp [Path.length, hold, hnew]
      · rw [h.outside x hx, hp] at hp'
        rw [Option.some.inj hp']
    rw [hlength hp hp', hlength hq hq']
    congr 1
    show compare p'.path.steps q'.path.steps = compare p.path.steps q.path.steps
    by_cases hx : t.Within e x
    · obtain ⟨rest, hold, hnew⟩ := hsteps hx hp hp'
      by_cases hy : t.Within e y
      · obtain ⟨rest', hold', hnew'⟩ := hsteps hy hq hq'
        rw [hold, hnew, hold', hnew']
        rw [compare_append rfl, compare_append rfl, List.compare_cons_cons, List.compare_cons_cons]
        simp only [Std.compare_self]
      · rw [h.outside y hy, hq] at hq'
        obtain rfl := Option.some.inj hq'
        rw [hold, hnew]
        exact (compare_steps_pred (fun hpre => hy (h.within y q hq hpre)) (h.vacant y q hq) rest).1
    · rw [h.outside x hx, hp] at hp'
      obtain rfl := Option.some.inj hp'
      by_cases hy : t.Within e y
      · obtain ⟨rest', hold', hnew'⟩ := hsteps hy hq hq'
        rw [hold', hnew']
        exact (compare_steps_pred (fun hpre => hx (h.within x p hp hpre)) (h.vacant x p hp) rest').2
      · rw [h.outside y hy, hq] at hq'
        rw [Option.some.inj hq']

end FieldTree

end LiveForm
