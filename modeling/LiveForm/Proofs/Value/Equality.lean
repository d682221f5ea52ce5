import LiveForm.Proofs.Decimal.Nearest
import LiveForm.Proofs.Number
import LiveForm.Value.Basic

/-!
# Equality of values

Integers are compared exactly and reals as reals; an integer meets a real as the real that is nearest to it. So
equality is symmetric, but a real between two integers can count as equal to both. This is the only way in which
two equalities in a row do not give a third one, and both integers then have 54 bits or more.
-/

set_option autoImplicit false

namespace LiveForm

open Decimal (IsNearest)

theorem natAbs_toInt_le (i : Int64) : i.toInt.natAbs ≤ 2 ^ 63 := by
  have ⟨hlow, hhigh⟩ := fitsInt64_toInt i
  omega

/-- Different integers for which the same real is the nearest. -/
structure Merges (r : Float) (i j : Int64) : Prop where
  distinct : i ≠ j
  left : IsNearest r i.toInt
  right : IsNearest r j.toInt

theorem Merges.large {r : Float} {i j : Int64} (h : Merges r i j) :
    2 ^ 53 ≤ i.toInt.natAbs ∧ 2 ^ 53 ≤ j.toInt.natAbs := by
  have hi := natAbs_toInt_le i
  have hj := natAbs_toInt_le j
  have hdistinct : i.toInt ≠ j.toInt := fun heq => h.distinct (Int64.toInt_inj.1 heq)
  have hleft := (Decimal.ofInt_beq_iff_isNearest hi).2 h.left
  have hright := (Decimal.ofInt_beq_iff_isNearest hj).2 h.right
  have hequal := BEq.trans hleft (BEq.symm hright)
  exact ⟨Decimal.large_of_ofInt_beq hi hj hdistinct hequal,
    Decimal.large_of_ofInt_beq hj hi hdistinct.symm (BEq.symm hequal)⟩

namespace Number

variable {k m n : Number}

theorem int_beq_int {i j : Int64} : (int i == int j) = true ↔ i = j := by
  change (i == j) = true ↔ i = j
  exact beq_iff_eq

theorem int_beq_real {i : Int64} {r : Float} : (int i == real r) = true ↔ IsNearest r i.toInt :=
  Decimal.ofInt_beq_iff_isNearest (natAbs_toInt_le i)

/-- Numbers that count as equal are equal as reals. -/
theorem toReal_beq (h : (m == n) = true) : (m.toReal == n.toReal) = true := by
  cases m with
  | int i =>
    cases n with
    | int j =>
      obtain rfl := int_beq_int.1 h
      obtain ⟨b, hb, -⟩ := Decimal.nearest_ofInt (natAbs_toInt_le i)
      exact (Decimal.beq_iff_toRat_eq hb).2 ⟨b, hb, rfl⟩
    | real s => exact h
  | real r => cases n <;> exact h

theorem beq_or_distinct (h : (m.toReal == n.toReal) = true) :
    (m == n) = true ∨ ∃ i j, m = int i ∧ n = int j ∧ i ≠ j := by
  cases m with
  | int i =>
    cases n with
    | int j =>
      by_cases heq : i = j
      · exact .inl (int_beq_int.2 heq)
      · exact .inr ⟨i, j, rfl, rfl, heq⟩
    | real s => exact .inl h
  | real r => cases n <;> exact .inl h

theorem beq_symm (h : (m == n) = true) : (n == m) = true := by
  rcases beq_or_distinct (BEq.symm (toReal_beq h)) with heq | ⟨i, j, rfl, rfl, hdistinct⟩
  · exact heq
  · exact absurd (int_beq_int.1 h).symm hdistinct

/-- Two equalities in a row give a third one, unless a real in the middle merges two integers. -/
theorem beq_or_merges (h : (k == m) = true) (h' : (m == n) = true) :
    (k == n) = true ∨ ∃ i r j, k = int i ∧ m = real r ∧ n = int j ∧ Merges r i j := by
  rcases beq_or_distinct (BEq.trans (toReal_beq h) (toReal_beq h')) with heq | ⟨i, j, rfl, rfl, hdistinct⟩
  · exact .inl heq
  · cases m with
    | int l => exact absurd ((int_beq_int.1 h).trans (int_beq_int.1 h')) hdistinct
    | real r => exact .inr ⟨i, r, j, rfl, rfl, rfl, hdistinct, int_beq_real.1 h, int_beq_real.1 (beq_symm h')⟩

end Number

namespace Value

variable {a b c : Value}

theorem ofNumber_beq (m n : Number) : (ofNumber m == ofNumber n) = (m == n) := by
  cases m <;> cases n <;> rfl

theorem eq_ofNumber {n : Number} (h : a.asNumber? = some n) : a = ofNumber n := by
  cases a <;> cases h <;> rfl

/-- Values that count as equal are the same one, or two numbers that count as equal. -/
theorem eq_or_numbers (h : (a == b) = true) :
    a = b ∨ ∃ m n, a = ofNumber m ∧ b = ofNumber n ∧ (m == n) = true := by
  change same a b = true at h
  revert h
  fun_cases same a b with
  | case1 => exact fun _ => .inl rfl
  | case2 p q => exact fun h => .inl (congrArg bool (eq_of_beq h))
  | case3 s t => exact fun h => .inl (congrArg text (eq_of_beq h))
  | case4 a b _ _ _ m n hn hm => exact fun h => .inr ⟨m, n, eq_ofNumber hm, eq_ofNumber hn, h⟩
  | case5 => exact fun h => nomatch h

theorem ofNumber_injective {m n : Number} (h : ofNumber m = ofNumber n) : m = n := by
  cases m <;> cases n <;> cases h <;> rfl

theorem beq_symm (h : (a == b) = true) : (b == a) = true := by
  rcases eq_or_numbers h with rfl | ⟨m, n, rfl, rfl, heq⟩
  · exact h
  · rw [ofNumber_beq]
    exact Number.beq_symm heq

/-- Two equalities in a row give a third one, unless a real in the middle merges two integers. -/
theorem beq_or_merges (h : (a == b) = true) (h' : (b == c) = true) :
    (a == c) = true ∨ ∃ i r j, a = int i ∧ b = real r ∧ c = int j ∧ Merges r i j := by
  rcases eq_or_numbers h with rfl | ⟨k, m, rfl, rfl, heq⟩
  · exact .inl h'
  · rcases eq_or_numbers h' with rfl | ⟨m', n, hm, rfl, heq'⟩
    · exact .inl h
    · obtain rfl := ofNumber_injective hm
      rw [ofNumber_beq]
      rcases Number.beq_or_merges heq heq' with hkn | ⟨i, r, j, rfl, rfl, rfl, hmerges⟩
      · exact .inl hkn
      · exact .inr ⟨i, r, j, rfl, rfl, rfl, hmerges⟩

/-- A real that merges two integers counts as equal to both, though they differ. -/
theorem beq_of_merges {r : Float} {i j : Int64} (h : Merges r i j) :
    (int i == real r) = true ∧ (real r == int j) = true ∧ (int i == int j) = false := by
  refine ⟨Number.int_beq_real.2 h.left, beq_symm (Number.int_beq_real.2 h.right), ?_⟩
  rw [Bool.eq_false_iff]
  exact fun heq => h.distinct (Number.int_beq_int.1 heq)

/-- Equality of values is symmetric. Two equalities in a row fail to give a third one exactly where a real stands
between two integers that it merges, and both of them are then beyond the ones that reals represent exactly. -/
theorem symmetric_and_chain_broken_iff (a b c : Value) :
    (a == b) = (b == a) ∧
      ((a == b) = true ∧ (b == c) = true ∧ (a == c) = false ↔
        ∃ i r j, a = int i ∧ b = real r ∧ c = int j ∧ Merges r i j ∧
          2 ^ 53 ≤ i.toInt.natAbs ∧ 2 ^ 53 ≤ j.toInt.natAbs) := by
  refine ⟨Bool.eq_iff_iff.2 ⟨beq_symm, beq_symm⟩, ?_, ?_⟩
  · rintro ⟨hab, hbc, hac⟩
    rcases beq_or_merges hab hbc with heq | ⟨i, r, j, rfl, rfl, rfl, hmerges⟩
    · rw [heq] at hac
      cases hac
    · exact ⟨i, r, j, rfl, rfl, rfl, hmerges, hmerges.large⟩
  · rintro ⟨i, r, j, rfl, rfl, rfl, hmerges, -⟩
    exact beq_of_merges hmerges

/-- The real `2 ^ 53` merges that integer and the next one. -/
theorem chain_broken_behind_two_pow_53 :
    Merges (.ofBits 0x4340000000000000) 9007199254740992 9007199254740993 := by
  have hchain := (symmetric_and_chain_broken_iff (.int 9007199254740992) (.real (.ofBits 0x4340000000000000))
    (.int 9007199254740993)).2.1 (by decide)
  obtain ⟨i, r, j, hi, hr, hj, hmerges, -⟩ := hchain
  cases hi
  cases hr
  cases hj
  exact hmerges

/-- Equality is not transitive, even on values without a real that is not a number. -/
theorem not_transitive : ¬ ∀ a b c : Value, (∀ r, real r ∈ [a, b, c] → r.isNaN = false) →
    ((a == b) = true → (b == a) = true) ∧ ((a == b) = true → (b == c) = true → (a == c) = true) := by
  intro h
  have hnumbers : ∀ r, real r ∈ [int 9007199254740992, real (.ofBits 0x4340000000000000), int 9007199254740993] →
      r.isNaN = false := by
    intro r hr
    obtain rfl : r = .ofBits 0x4340000000000000 := by simpa using hr
    decide
  have hchain := (h _ _ _ hnumbers).2 (by decide) (by decide)
  revert hchain
  decide

end Value

end LiveForm
