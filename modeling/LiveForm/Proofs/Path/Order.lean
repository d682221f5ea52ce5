import LiveForm.Path.Basic
import Mathlib.Order.Compare
import Mathlib.Data.String.Basic

/-!
# The order in which matches are read

Matches are read in the order of their paths: shorter paths first, then step by step. This is a linear
order, so what is sorted by it is determined by its members as long as no two of them have the same path.
-/

set_option autoImplicit false

namespace LiveForm

section Keys

variable {α κ : Type}

/-- What is sorted by keys comes in the order of the keys. -/
theorem pairwise_mergeSort_le [LinearOrder κ] (key : α → κ) (l : List α) :
    (l.mergeSort fun a b => key a ≤ key b).Pairwise fun a b => key a ≤ key b := by
  refine (List.pairwise_mergeSort (fun a b c hab hbc => ?_) (fun a b => ?_) l).imp of_decide_eq_true
  · exact decide_eq_true (le_trans (of_decide_eq_true hab) (of_decide_eq_true hbc))
  · simpa only [Bool.or_eq_true, decide_eq_true_eq] using le_total (key a) (key b)

/-- What is sorted by distinct keys is strictly sorted. -/
theorem pairwise_mergeSort_of_nodup (cmp : κ → κ → Ordering) [Std.TransCmp cmp] [Std.LawfulEqCmp cmp] {key : α → κ}
    {l : List α} (h : (l.map key).Nodup) : (l.mergeSort fun a b => (cmp (key a) (key b)).isLE).Pairwise fun a b =>
      cmp (key a) (key b) = .lt := by
  have hsorted : (l.mergeSort fun a b => (cmp (key a) (key b)).isLE).Pairwise fun a b =>
      (cmp (key a) (key b)).isLE = true := by
    apply List.pairwise_mergeSort
    · intro a b c hab hbc
      exact Std.TransCmp.isLE_trans hab hbc
    · intro a b
      have hswap : cmp (key b) (key a) = (cmp (key a) (key b)).swap := Std.OrientedCmp.eq_swap
      rw [hswap]
      cases cmp (key a) (key b) <;> rfl
  have hdistinct : (l.mergeSort fun a b => (cmp (key a) (key b)).isLE).Pairwise fun a b => key a ≠ key b := by
    have hperm := (List.mergeSort_perm l fun a b => (cmp (key a) (key b)).isLE).map key
    rw [← List.pairwise_map (R := fun p q => p ≠ q)]
    exact hperm.nodup_iff.2 h
  apply (hsorted.and hdistinct).imp
  rintro a b ⟨hle, hne⟩
  cases horder : cmp (key a) (key b) with
  | lt => rfl
  | eq => exact absurd (Std.LawfulEqCmp.eq_of_compare horder) hne
  | gt =>
    rw [horder] at hle
    cases hle

/-- Of lists whose first parts have the same length, these are compared first. -/
theorem compare_append [Ord α] {a b : List α} (h : a.length = b.length) (u w : List α) :
    compare (a ++ u) (b ++ w) = (compare a b).then (compare u w) := by
  induction a generalizing b with
  | nil =>
    obtain rfl := List.length_eq_zero_iff.1 h.symm
    rfl
  | cons x a ih =>
    cases b with
    | nil => cases h
    | cons y b =>
      rw [List.cons_append, List.cons_append, List.compare_cons_cons, List.compare_cons_cons,
        ih (Nat.succ.inj h), Ordering.then_assoc]

end Keys

namespace Step

/-- Names are ordered by their code points and indices by size, and a name comes before an index. -/
inductive Before : Step → Step → Prop
  | names {a b : String} (h : a < b) : Before (name a) (name b)
  | indices {i j : Int} (h : i < j) : Before (index i) (index j)
  | nameIndex (a : String) (i : Int) : Before (name a) (index i)

variable {a b : Step}

theorem compare_name (a b : String) : compare (name a) (name b) = compare a b := rfl

theorem compare_index (i j : Int) : compare (index i) (index j) = compare i j := rfl

theorem compare_name_index (a : String) (i : Int) : compare (name a) (index i) = .lt := rfl

theorem compare_index_name (i : Int) (a : String) : compare (index i) (name a) = .gt := rfl

theorem compare_eq_lt : compare a b = .lt ↔ a.Before b := by
  constructor
  · intro h
    cases a with
    | name a =>
      cases b with
      | name b =>
        rw [compare_name, compare_lt_iff_lt] at h
        exact .names h
      | index j => exact .nameIndex a j
    | index i =>
      cases b with
      | name b =>
        rw [compare_index_name] at h
        cases h
      | index j =>
        rw [compare_index, compare_lt_iff_lt] at h
        exact .indices h
  · intro h
    cases h with
    | names h => rwa [compare_name, compare_lt_iff_lt]
    | indices h => rwa [compare_index, compare_lt_iff_lt]
    | nameIndex a i => exact compare_name_index a i

instance : Std.LawfulEqOrd Step where
  compare_self {a} := by
    cases a with
    | name a =>
      rw [compare_name]
      exact Std.ReflCmp.compare_self
    | index i =>
      rw [compare_index]
      exact Std.ReflCmp.compare_self
  eq_of_compare {a b} h := by
    cases a with
    | name a =>
      cases b with
      | name b =>
        rw [compare_name] at h
        exact congrArg name (Std.LawfulEqOrd.eq_of_compare h)
      | index j => cases h
    | index i =>
      cases b with
      | name b => cases h
      | index j =>
        rw [compare_index] at h
        exact congrArg index (Std.LawfulEqOrd.eq_of_compare h)

instance : Std.TransOrd Step where
  eq_swap {a b} := by
    cases a with
    | name a =>
      cases b with
      | name b =>
        rw [compare_name, compare_name]
        exact Std.OrientedOrd.eq_swap
      | index j => rfl
    | index i =>
      cases b with
      | name b => rfl
      | index j =>
        rw [compare_index, compare_index]
        exact Std.OrientedOrd.eq_swap
  isLE_trans {a b c} hab hbc := by
    cases a with
    | name a =>
      cases c with
      | name c =>
        cases b with
        | name b =>
          rw [compare_name] at hab hbc ⊢
          exact Std.TransOrd.isLE_trans hab hbc
        | index j => cases hbc
      | index k => rfl
    | index i =>
      cases b with
      | name b => cases hab
      | index j =>
        cases c with
        | name c => cases hbc
        | index k =>
          rw [compare_index] at hab hbc ⊢
          exact Std.TransOrd.isLE_trans hab hbc

end Step

/-- Lists of steps are compared at their first difference. -/
theorem compare_steps_eq_lt {l m : List Step} : compare l m = .lt ↔ List.Lex Step.Before l m := by
  induction l generalizing m with
  | nil =>
    cases m with
    | nil => exact iff_of_false (by simp) (by rintro ⟨⟩)
    | cons b m => exact iff_of_true (by simp) .nil
  | cons a l ih =>
    cases m with
    | nil => exact iff_of_false (by simp) (by rintro ⟨⟩)
    | cons b m =>
      rw [List.compare_cons_cons, Ordering.then_eq_lt, Step.compare_eq_lt, Std.LawfulEqOrd.compare_eq_iff_eq, ih]
      constructor
      · rintro (h | ⟨rfl, h⟩)
        · exact .rel h
        · exact .cons h
      · intro h
        cases h with
        | rel h => exact .inl h
        | cons h => exact .inr ⟨rfl, h⟩

namespace Path

/-- A shorter path comes first, and of two paths of the same length the one that comes first at the first
step in which they differ. -/
def Before (p q : Path) : Prop :=
  p.length < q.length ∨ p.length = q.length ∧ List.Lex Step.Before p.steps q.steps

variable {p q : Path}

theorem matchOrder_eq_lt : matchOrder p q = .lt ↔ p.Before q := by
  rw [matchOrder, Ordering.then_eq_lt, compare_lt_iff_lt, compare_eq_iff_eq]
  exact or_congr_right (and_congr_right fun _ => compare_steps_eq_lt)

/-- Only a path itself is at the same position. -/
theorem matchOrder_eq_eq : matchOrder p q = .eq ↔ p = q := by
  rw [matchOrder, Ordering.then_eq_eq]
  constructor
  · intro h
    have hsteps : p.steps = q.steps := Std.LawfulEqOrd.eq_of_compare h.2
    exact congrArg mk hsteps
  · rintro rfl
    have hsteps : compare p.steps p.steps = .eq := Std.ReflCmp.compare_self
    exact ⟨Std.ReflCmp.compare_self, hsteps⟩

instance : Std.TransCmp matchOrder :=
  inferInstanceAs (Std.TransCmp (compareLex (compareOn length) (compareOn steps)))

instance : Std.LawfulEqCmp matchOrder where
  compare_self := matchOrder_eq_eq.2 rfl
  eq_of_compare := matchOrder_eq_eq.1

theorem Before.irrefl : ¬ p.Before p := by
  rw [← matchOrder_eq_lt, matchOrder_eq_eq.2 rfl]
  intro h
  cases h

theorem Before.asymm (h : p.Before q) : ¬ q.Before p := by
  have hswap : matchOrder q p = (matchOrder p q).swap := Std.OrientedCmp.eq_swap
  rw [← matchOrder_eq_lt] at h ⊢
  rw [hswap, h]
  intro h
  cases h

/-- What is sorted stands in this order, if no two paths are the same. -/
theorem pairwise_sortByMatchOrder {α : Type} {path : α → Path} {l : List α} (h : (l.map path).Nodup) :
    (sortByMatchOrder path l).Pairwise fun a b => (path a).Before (path b) := by
  apply (pairwise_mergeSort_of_nodup matchOrder h).imp
  intro a b hab
  exact matchOrder_eq_lt.1 hab

end Path

end LiveForm
