import LiveForm.Number
import Mathlib.Algebra.Order.Floor.Ring
import Mathlib.Algebra.Order.Field.Rat
import Mathlib.Data.Rat.Floor
import Mathlib.Tactic.Linarith

/-!
# Arithmetic on integers of 64 bits

Sums that fit into 64 bits are exact. The quotient of two integers is the floor of the exact one wherever
there is a quotient at all: the Euclidean quotient and its correction fit into 64 bits in every other case.
-/

set_option autoImplicit false

namespace LiveForm

/-- Whether 64 bits hold an integer. -/
def FitsInt64 (n : Int) : Prop :=
  -2 ^ 63 ≤ n ∧ n < 2 ^ 63

theorem fitsInt64_toInt (i : Int64) : FitsInt64 i.toInt :=
  ⟨i.le_toInt, i.toInt_lt⟩

theorem toInt_ofInt_of_fits {n : Int} (h : FitsInt64 n) : (Int64.ofInt n).toInt = n :=
  Int64.toInt_ofInt_of_le h.1 h.2

/-- A difference that fits does not overflow. -/
theorem toInt_sub_of_fits {a b : Int64} (h : FitsInt64 (a.toInt - b.toInt)) : (a - b).toInt = a.toInt - b.toInt := by
  obtain ⟨hlow, hhigh⟩ := h
  rw [Int64.toInt_sub]
  apply Int.bmod_eq_of_le <;> omega

/-- The floor of a quotient is the Euclidean quotient, less one where that was rounded up. -/
theorem floor_div (a b : Int) (hb : b ≠ 0) :
    ⌊(a : ℚ) / b⌋ = a / b - (if b < 0 ∧ a % b ≠ 0 then 1 else 0) := by
  have hdivision : (a : ℚ) = b * (a / b : ℤ) + (a % b : ℤ) := by exact_mod_cast (Int.mul_ediv_add_emod a b).symm
  have hlow : (0 : ℚ) ≤ (a % b : ℤ) := by exact_mod_cast Int.emod_nonneg a hb
  have hhigh : ((a % b : ℤ) : ℚ) < |(b : ℚ)| := by exact_mod_cast Int.emod_lt_abs a hb
  rw [Int.floor_eq_iff]
  rcases lt_or_gt_of_ne hb with hneg | hpos
  · have hneg' : (b : ℚ) < 0 := by exact_mod_cast hneg
    rw [abs_of_neg hneg'] at hhigh
    rw [le_div_iff_of_neg hneg', div_lt_iff_of_neg hneg']
    by_cases hexact : a % b = 0
    · rw [if_neg fun h => h.2 hexact]
      rw [hexact] at hdivision
      push_cast at hdivision ⊢
      constructor <;> linarith
    · have hrest : (0 : ℚ) < (a % b : ℤ) := by
        exact_mod_cast lt_of_le_of_ne (Int.emod_nonneg a hb) (Ne.symm hexact)
      rw [if_pos ⟨hneg, hexact⟩]
      push_cast at hdivision hhigh hrest ⊢
      constructor <;> linarith
  · have hpos' : (0 : ℚ) < b := by exact_mod_cast hpos
    rw [abs_of_pos hpos'] at hhigh
    rw [if_neg fun h => absurd h.1 (not_lt.2 (le_of_lt hpos)), le_div_iff₀ hpos', div_lt_iff₀ hpos']
    push_cast at hdivision hhigh hlow ⊢
    constructor <;> linarith

namespace Number

variable {a b : Int64}

/-- A sum that fits is exact. -/
theorem add_int (h : FitsInt64 (a.toInt + b.toInt)) :
    ∃ c : Int64, (int a).add (int b) = int c ∧ c.toInt = a.toInt + b.toInt := by
  have hrange : Int64.minValue.toInt ≤ a.toInt + b.toInt ∧ a.toInt + b.toInt ≤ Int64.maxValue.toInt := by
    obtain ⟨hlow, hhigh⟩ := h
    have hmin : Int64.minValue.toInt = -2 ^ 63 := by decide
    have hmax : Int64.maxValue.toInt = 2 ^ 63 - 1 := by decide
    constructor <;> omega
  refine ⟨Int64.ofInt (a.toInt + b.toInt), ?_, toInt_ofInt_of_fits h⟩
  rw [add, ofInt?, if_pos hrange]
  rfl

/-- There is no quotient where the divisor is zero, nor where the exact quotient is beyond the largest integer. -/
theorem hasNoQuotient_iff : hasNoQuotient a b = true ↔ b.toInt = 0 ∨ a.toInt = -2 ^ 63 ∧ b.toInt = -1 := by
  have hzero : b = 0 ↔ b.toInt = 0 := (Int64.toInt_inj (y := 0)).symm
  have hmin : a = Int64.minValue ↔ a.toInt = -2 ^ 63 := (Int64.toInt_inj (y := Int64.minValue)).symm
  have hminus : b = -1 ↔ b.toInt = -1 := (Int64.toInt_inj (y := -1)).symm
  rw [hasNoQuotient, Bool.or_eq_true, Bool.and_eq_true, beq_iff_eq, beq_iff_eq, beq_iff_eq, hzero, hmin, hminus]

/-- The Euclidean quotient fits, and so does what is left of it after the correction. -/
theorem fits_ediv (h : hasNoQuotient a b = false) :
    FitsInt64 (a.toInt / b.toInt) ∧ (b.toInt < 0 → -2 ^ 63 < a.toInt / b.toInt) := by
  have hnot : ¬ (b.toInt = 0 ∨ a.toInt = -2 ^ 63 ∧ b.toInt = -1) := by
    rw [← hasNoQuotient_iff, h]
    simp
  have ⟨hlow, hhigh⟩ := fitsInt64_toInt a
  have hb : b.toInt ≠ 0 := fun hb => hnot (.inl hb)
  have hdivision : b.toInt * (a.toInt / b.toInt) + a.toInt % b.toInt = a.toInt := Int.mul_ediv_add_emod _ _
  have hrest : 0 ≤ a.toInt % b.toInt := Int.emod_nonneg _ hb
  have hrest' : a.toInt % b.toInt < b.toInt.natAbs := Int.emod_lt _ hb
  have habs : (a.toInt / b.toInt).natAbs ≤ a.toInt.natAbs := Int.natAbs_ediv_le_natAbs _ _
  generalize a.toInt / b.toInt = q at hdivision habs ⊢
  generalize a.toInt % b.toInt = rest at hdivision hrest hrest'
  -- where the quotient is at the very end of the range, the division is linear in the divisor
  have hmax : q ≠ 2 ^ 63 := by
    rintro rfl
    omega
  have hmin : b.toInt < 0 → q ≠ -2 ^ 63 := by
    rintro hneg rfl
    omega
  refine ⟨⟨?_, ?_⟩, ?_⟩
  · omega
  · omega
  · intro hneg
    have hne := hmin hneg
    omega

theorem excess?_eq (h : hasNoQuotient a b = false) : ∃ e : Int64, excess? a b = some e ∧
    e.toInt = if b.toInt < 0 ∧ a.toInt % b.toInt ≠ 0 then 1 else 0 := by
  have hneg : b < 0 ↔ b.toInt < 0 := Int64.lt_iff_toInt_lt
  unfold excess?
  by_cases hb : b < 0
  · have hb' : b.toInt < 0 := hneg.1 hb
    have hlow : 0 ≤ a.toInt % b.toInt := Int.emod_nonneg _ (ne_of_lt hb')
    have hhigh : a.toInt % b.toInt < b.toInt.natAbs := Int.emod_lt _ (ne_of_lt hb')
    have hfits : FitsInt64 (a.toInt % b.toInt) := by
      have ⟨hsize, hsize'⟩ := fitsInt64_toInt b
      constructor <;> omega
    have hzero : Int64.ofInt (a.toInt % b.toInt) = 0 ↔ a.toInt % b.toInt = 0 := by
      rw [← Int64.toInt_inj, toInt_ofInt_of_fits hfits]
      rfl
    have hmod : euclideanMod? a b = some (Int64.ofInt (a.toInt % b.toInt)) := by
      rw [euclideanMod?, h]
      rfl
    rw [if_pos hb, hmod, Option.map_some]
    refine ⟨_, rfl, ?_⟩
    by_cases hexact : a.toInt % b.toInt = 0
    · rw [if_pos (hzero.2 hexact), if_neg fun hboth => hboth.2 hexact]
      rfl
    · rw [if_neg fun he => hexact (hzero.1 he), if_pos ⟨hb', hexact⟩]
      rfl
  · rw [if_neg hb, if_neg fun hboth => hb (hneg.2 hboth.1)]
    exact ⟨0, rfl, rfl⟩

theorem floorDiv?_of_hasNoQuotient (h : hasNoQuotient a b = true) : floorDiv? (int a) (int b) = none := by
  rw [floorDiv?, euclideanDiv?, h]
  rfl

/-- The quotient of integers, wherever there is one, is the floor of the exact quotient. -/
theorem floorDiv?_eq (h : hasNoQuotient a b = false) :
    ∃ q : Int64, floorDiv? (int a) (int b) = some (int q) ∧ q.toInt = ⌊(a.toInt : ℚ) / b.toInt⌋ := by
  obtain ⟨hfits, hcorrected⟩ := fits_ediv h
  obtain ⟨e, hexcess, he⟩ := excess?_eq h
  have hb : b.toInt ≠ 0 := by
    intro hb
    rw [hasNoQuotient_iff.2 (.inl hb)] at h
    cases h
  have hquotient : (Int64.ofInt (a.toInt / b.toInt)).toInt = a.toInt / b.toInt := toInt_ofInt_of_fits hfits
  refine ⟨Int64.ofInt (a.toInt / b.toInt) - e, ?_, ?_⟩
  · rw [floorDiv?, euclideanDiv?, h, hexcess]
    rfl
  · have hdifference : FitsInt64 ((Int64.ofInt (a.toInt / b.toInt)).toInt - e.toInt) := by
      rw [hquotient, he]
      obtain ⟨hlow, hhigh⟩ := hfits
      split
      next hboth =>
        have hlow' := hcorrected hboth.1
        constructor <;> omega
      next => constructor <;> omega
    rw [toInt_sub_of_fits hdifference, hquotient, he, floor_div _ _ hb]

end Number

end LiveForm
