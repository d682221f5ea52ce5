import LiveForm.Proofs.Decimal.Rounding

/-!
# The nearest real

Which real an integer of 64 bits is converted to: the one that no other is nearer to, and of two equally near ones
the one with the even mantissa. Below `2 ^ 53` this is the integer itself.
-/

set_option autoImplicit false

namespace LiveForm.Decimal

open Float.Model (UnpackedFloat)
open Float.Model.UnpackedFloat (Sign)

/-- Whether no finite real is nearer to a number than `x`. Of two equally near ones, `x` is the one with an even
mantissa. -/
def IsNearest (x : Float) (q : ℚ) : Prop :=
  ∃ b, Binary.ofFloat? x = some b ∧ ∀ y c, Binary.ofFloat? y = some c →
    |b.toRat - q| < |c.toRat - q| ∨ |b.toRat - q| = |c.toRat - q| ∧ (b.toRat = c.toRat ∨ Even b.mantissa)

/-! ## Around a positive number -/

namespace Binary

variable {c : Binary} {place : ℤ}

/-- A finite real is a multiple of a power of two, or smaller than the numbers with 53 places whose last one has
this weight. -/
theorem Canonical.onGrid_or_lt (hc : c.Canonical) (place : ℤ) :
    (∃ z : ℤ, c.toRat = z * 2 ^ place ∧ (Even c.mantissa → Even z)) ∨ |c.toRat| < 2 ^ 52 * 2 ^ place := by
  by_cases hplace : place ≤ c.exponent
  · left
    have hsplit : (2 : ℚ) ^ c.exponent = 2 ^ (c.exponent - place).toNat * 2 ^ place := by
      rw [← zpow_natCast, ← zpow_add₀ (by norm_num), Int.toNat_of_nonneg (by omega), sub_add_cancel]
    refine ⟨c.signed * 2 ^ (c.exponent - place).toNat, ?_, ?_⟩
    · rw [toRat, hsplit]
      push_cast
      ring
    · intro heven
      refine Even.mul_right ?_ _
      unfold signed
      split
      · exact (Int.even_coe_nat _).2 heven |>.neg
      · exact (Int.even_coe_nat _).2 heven
  · right
    rw [abs_toRat]
    exact hc.magnitude_lt (Int.lt_of_not_ge hplace)

/-- The number with the other sign. -/
def opposite (c : Binary) : Binary :=
  { c with negative := !c.negative }

theorem toRat_opposite (c : Binary) : c.opposite.toRat = -c.toRat := by
  rw [toRat_eq, toRat_eq]
  cases h : c.negative <;> simp [opposite, magnitude, h]

theorem Canonical.opposite (hc : c.Canonical) : c.opposite.Canonical :=
  ⟨hc.mantissa_lt, hc.exponent_ge, hc.full⟩

end Binary

namespace Rounds

variable {place : ℤ} {v : ℚ} {m : ℕ} {e : ℤ} {c : Binary}

/-- No multiple of the last place is nearer than the rounded number. One that is equally near is its neighbour, so
that it is odd. -/
theorem nearest_onGrid (h : Rounds place v m e) (z : ℤ) :
    |(m * 2 ^ e - v : ℚ)| < |(z * 2 ^ place - v : ℚ)| ∨
      |(m * 2 ^ e - v : ℚ)| = |(z * 2 ^ place - v : ℚ)| ∧
        ((z * 2 ^ place : ℚ) = m * 2 ^ e ∨ Even m ∧ ¬ Even z) := by
  obtain ⟨w, hw, hparity⟩ := h.onGrid
  have hnear := h.near
  have heven := h.even
  have hpos : (0 : ℚ) < 2 ^ place := by positivity
  rw [hw] at hnear heven ⊢
  by_cases hzw : z = w
  · rw [hzw]
    exact .inr ⟨rfl, .inl rfl⟩
  · have hdistinct : (1 : ℚ) ≤ |(z - w : ℚ)| := by exact_mod_cast Int.one_le_abs (sub_ne_zero.2 hzw)
    have hapart : |(z - w : ℚ)| * 2 ^ place ≤ |(z * 2 ^ place - v : ℚ)| + |(w * 2 ^ place - v : ℚ)| := by
      have htriangle := abs_sub (z * 2 ^ place - v : ℚ) (w * 2 ^ place - v)
      rwa [sub_sub_sub_cancel_right, ← sub_mul, abs_mul, abs_of_pos hpos] at htriangle
    have hunit : 1 * (2 : ℚ) ^ place ≤ |(z - w : ℚ)| * 2 ^ place := mul_le_mul_of_nonneg_right hdistinct hpos.le
    rcases lt_or_ge |(w * 2 ^ place - v : ℚ)| |(z * 2 ^ place - v : ℚ)| with hlt | hge
    · exact .inl hlt
    · right
      -- both are half a place away, on either side
      have htie : 2 * |(w * 2 ^ place - v : ℚ)| = 2 ^ place := by linarith
      have hm := heven htie
      have hneighbour : |(z - w : ℚ)| ≤ 1 := by
        rw [← mul_le_iff_le_one_left hpos]
        linarith
      have hneighbour' : |z - w| ≤ 1 := by exact_mod_cast hneighbour
      refine ⟨by linarith, .inr ⟨hm, ?_⟩⟩
      obtain ⟨u, hu⟩ := hparity hm
      rintro ⟨t, ht⟩
      rw [abs_le] at hneighbour'
      omega

/-- No finite real is nearer to a number than the rounded one. One that is equally near has an odd mantissa. -/
theorem nearest (h : Rounds place v m e) (hc : c.Canonical) :
    |(m * 2 ^ e - v : ℚ)| < |c.toRat - v| ∨
      |(m * 2 ^ e - v : ℚ)| = |c.toRat - v| ∧ (c.toRat = m * 2 ^ e ∨ Even m ∧ ¬ Even c.mantissa) := by
  rcases hc.onGrid_or_lt place with ⟨z, hz, hparity⟩ | hlt
  · rw [hz]
    rcases h.nearest_onGrid z with hfarther | ⟨hequal, hsame | ⟨heven, hodd⟩⟩
    · exact .inl hfarther
    · exact .inr ⟨hequal, .inl hsame⟩
    · exact .inr ⟨hequal, .inr ⟨heven, fun hmantissa => hodd (hparity hmantissa)⟩⟩
  · left
    -- the least number with 53 places lies in between
    have hle := h.le
    have hbelow : c.toRat < 2 ^ 52 * 2 ^ place := (abs_lt.1 hlt).2
    obtain ⟨z, hz⟩ : ∃ z : ℤ, (z : ℚ) = 2 ^ 52 := ⟨2 ^ 52, by norm_num⟩
    have hbottom : |(m * 2 ^ e - v : ℚ)| ≤ |(z * 2 ^ place - v : ℚ)| := by
      rcases h.nearest_onGrid z with hfarther | ⟨hequal, -⟩
      · exact hfarther.le
      · exact hequal.le
    rw [hz, abs_of_nonpos (by linarith : (2 ^ 52 * 2 ^ place - v : ℚ) ≤ 0)] at hbottom
    rw [abs_of_nonpos (by linarith : c.toRat - v ≤ 0)]
    linarith

/-- Numbers below `2 ^ 53` have their last place behind the point. -/
theorem place_nonpos (h : Rounds place v m e) (hv : v < 2 ^ 53) : place ≤ 0 := by
  by_contra hplace
  have hunit : (2 : ℚ) ^ (1 : ℤ) ≤ 2 ^ place := zpow_le_zpow_right₀ (by norm_num) (by omega)
  have hle := h.le
  linarith

/-- Numbers from `2 ^ 53` on are not rounded below it. -/
theorem le_of_le (h : Rounds place v m e) (hv : 2 ^ 53 ≤ v) : (2 ^ 53 : ℚ) ≤ m * 2 ^ e := by
  have hm : (2 ^ 52 : ℚ) ≤ m := by exact_mod_cast h.full
  have hplace : 0 < place := by
    by_contra hplace
    have hunit : (2 : ℚ) ^ place ≤ 2 ^ (0 : ℤ) := zpow_le_zpow_right₀ (by norm_num) (by omega)
    have hlt := h.lt
    linarith
  have he : 1 ≤ e := by
    rcases h.carried with rfl | ⟨-, rfl⟩ <;> omega
  calc (2 ^ 53 : ℚ) = 2 ^ 52 * 2 ^ (1 : ℤ) := by norm_num
    _ ≤ m * 2 ^ e := by
        gcongr
        norm_num

end Rounds

/-! ## Integers as reals -/

theorem parts_of_unpack {x : Float} {s : Sign} {m : ℕ} {e : ℤ} {h : 0 < m}
    (hx : x.toModel.unpack = .finite s m e h) :
    ∃ b, Binary.ofFloat? x = some b ∧ b.negative = (s == .negative) ∧ b.mantissa = m ∧ b.exponent = e := by
  rw [Binary.ofFloat?_eq, hx]
  exact ⟨_, rfl, rfl, rfl, rfl⟩

section OfInt

variable {n : ℤ} {x : Float} {b c : Binary}

/-- The real that an integer is made has the sign of the integer, and its size is that of the integer, rounded. -/
theorem parts_ofInt (hn : n ≠ 0) (hbound : n.natAbs ≤ 2 ^ 63) :
    ∃ b place, Binary.ofFloat? (.ofInt n) = some b ∧ b.negative = decide (n < 0) ∧
      Rounds place n.natAbs b.mantissa b.exponent := by
  cases n with
  | ofNat n =>
    have hpos : 0 < n := Nat.pos_of_ne_zero fun h => hn (congrArg Int.ofNat h)
    obtain ⟨m, e, h, place, hunpack, hrounds⟩ := unpack_ofNat hpos hbound
    obtain ⟨b, hb, hsign, rfl, rfl⟩ := parts_of_unpack (x := .ofInt (.ofNat n)) hunpack
    refine ⟨b, place, hb, ?_, hrounds⟩
    rw [hsign]
    exact (decide_eq_false (Int.not_lt.2 (Int.natCast_nonneg n))).symm
  | negSucc n =>
    have hneg : (Float.ofInt (.negSucc n)).toModel = .pack (Float.ofNat (n + 1)).toModel.unpack.neg := rfl
    obtain ⟨m, e, h, place, hunpack, hrounds⟩ := unpack_ofNat n.succ_pos hbound
    have hunpack' : (Float.ofInt (.negSucc n)).toModel.unpack = .finite .negative m e h := by
      rw [hneg, hunpack]
      exact hrounds.unpack_pack n.succ_pos hbound .negative h
    obtain ⟨b, hb, hsign, rfl, rfl⟩ := parts_of_unpack hunpack'
    refine ⟨b, place, hb, ?_, hrounds⟩
    rw [hsign, decide_eq_true (Int.negSucc_lt_zero n)]
    rfl

theorem ofFloat?_ofInt_zero : Binary.ofFloat? (.ofInt 0) = some ⟨false, 0, -1074, false⟩ := by decide

/-- No finite real is nearer to an integer than the one it is made. One that is equally near has an odd mantissa. -/
theorem nearest_ofInt (hbound : n.natAbs ≤ 2 ^ 63) :
    ∃ b, Binary.ofFloat? (.ofInt n) = some b ∧ ∀ c : Binary, c.Canonical →
      |b.toRat - n| < |c.toRat - n| ∨
        |b.toRat - n| = |c.toRat - n| ∧ (c.toRat = b.toRat ∨ Even b.mantissa ∧ ¬ Even c.mantissa) := by
  rcases lt_trichotomy n 0 with hneg | rfl | hpos
  · obtain ⟨b, place, hb, hsign, hrounds⟩ := parts_ofInt hneg.ne hbound
    refine ⟨b, hb, fun c hc => ?_⟩
    have hn : (n : ℚ) = -n.natAbs := by
      rw [Nat.cast_natAbs, abs_of_neg hneg]
      push_cast
      ring
    have hvalue : b.toRat = -(b.mantissa * 2 ^ b.exponent) := by
      rw [Binary.toRat_eq, hsign, if_pos (decide_eq_true hneg)]
      rfl
    have hmirror : |c.toRat - n| = |c.opposite.toRat - n.natAbs| := by
      rw [Binary.toRat_opposite, hn, sub_neg_eq_add, ← abs_neg, neg_add']
    rw [hmirror, hvalue, hn, neg_sub_neg, abs_sub_comm]
    rcases hrounds.nearest hc.opposite with hfarther | ⟨hequal, hsame | hodd⟩
    · exact .inl hfarther
    · exact .inr ⟨hequal, .inl (by rw [← hsame, Binary.toRat_opposite, neg_neg])⟩
    · exact .inr ⟨hequal, .inr hodd⟩
  · refine ⟨_, ofFloat?_ofInt_zero, fun c _ => ?_⟩
    have hzero : Binary.toRat ⟨false, 0, -1074, false⟩ = 0 := Binary.toRat_of_mantissa_eq_zero rfl
    rw [hzero, Int.cast_zero, sub_zero, sub_zero, abs_zero]
    rcases (abs_nonneg c.toRat).eq_or_lt with hequal | hlt
    · exact .inr ⟨hequal, .inl (abs_eq_zero.1 hequal.symm)⟩
    · exact .inl hlt
  · obtain ⟨b, place, hb, hsign, hrounds⟩ := parts_ofInt hpos.ne' hbound
    refine ⟨b, hb, fun c hc => ?_⟩
    have hn : (n : ℚ) = n.natAbs := by rw [Nat.cast_natAbs, abs_of_pos hpos]
    have hvalue : b.toRat = b.mantissa * 2 ^ b.exponent := by
      rw [Binary.toRat_eq, hsign, if_neg (by simpa using hpos.le)]
      rfl
    rw [hvalue, hn]
    exact hrounds.nearest hc

/-- An integer counts as equal to a real exactly if no other real is nearer to it. -/
theorem ofInt_beq_iff_isNearest (hbound : n.natAbs ≤ 2 ^ 63) : (.ofInt n == x) = true ↔ IsNearest x n := by
  obtain ⟨b, hb, hnearest⟩ := nearest_ofInt hbound
  have hb' := Binary.canonical_of_ofFloat? hb
  rw [beq_iff_toRat_eq hb]
  constructor
  · rintro ⟨c, hc, hvalue⟩
    have hmantissa := (hb'.of_toRat_eq (Binary.canonical_of_ofFloat? hc) hvalue.symm).1
    refine ⟨c, hc, fun y d hd => ?_⟩
    rw [hvalue, ← hmantissa]
    rcases hnearest d (Binary.canonical_of_ofFloat? hd) with hfarther | ⟨hequal, hsame | ⟨heven, -⟩⟩
    · exact .inl hfarther
    · exact .inr ⟨hequal, .inl hsame.symm⟩
    · exact .inr ⟨hequal, .inr heven⟩
  · rintro ⟨c, hc, hclosest⟩
    refine ⟨c, hc, ?_⟩
    rcases hnearest c (Binary.canonical_of_ofFloat? hc) with hfarther | ⟨hequal, hsame | ⟨-, hodd⟩⟩
    · rcases hclosest _ b hb with hnearer | ⟨hequal, -⟩
      · exact absurd hnearer hfarther.not_gt
      · exact absurd hequal hfarther.ne'
    · exact hsame
    · rcases hclosest _ b hb with hnearer | ⟨-, hsame | heven⟩
      · exact absurd hequal hnearer.ne'
      · exact hsame
      · exact absurd heven hodd

/-! ## Integers that become the same real -/

theorem toRat_ofInt_of_lt (hn : n.natAbs < 2 ^ 53) (hb : Binary.ofFloat? (.ofInt n) = some b) : b.toRat = n := by
  by_cases hzero : n = 0
  · subst hzero
    obtain rfl := Option.some.inj (ofFloat?_ofInt_zero.symm.trans hb)
    exact Binary.toRat_of_mantissa_eq_zero rfl
  · obtain ⟨c, place, hc, hsign, hrounds⟩ := parts_ofInt hzero (by omega)
    obtain rfl := Option.some.inj (hc.symm.trans hb)
    have hsize : c.magnitude = n.natAbs := hrounds.exact (hrounds.place_nonpos (by exact_mod_cast hn))
    rw [Binary.toRat_eq, hsign, hsize, Nat.cast_natAbs]
    rcases lt_or_ge n 0 with hneg | hnonneg
    · rw [if_pos (decide_eq_true hneg), abs_of_neg hneg, Int.cast_neg, neg_neg]
    · rw [if_neg (by simpa using hnonneg), abs_of_nonneg hnonneg]

theorem le_abs_toRat_ofInt (hn : 2 ^ 53 ≤ n.natAbs) (hbound : n.natAbs ≤ 2 ^ 63)
    (hb : Binary.ofFloat? (.ofInt n) = some b) : 2 ^ 53 ≤ |b.toRat| := by
  obtain ⟨c, place, hc, -, hrounds⟩ := parts_ofInt (n := n) (by rintro rfl; simp at hn) hbound
  obtain rfl := Option.some.inj (hc.symm.trans hb)
  rw [Binary.abs_toRat]
  exact hrounds.le_of_le (by exact_mod_cast hn)

/-- Different integers that one real stands for have 54 bits or more. -/
theorem large_of_ofInt_beq {i j : ℤ} (hi : i.natAbs ≤ 2 ^ 63) (hj : j.natAbs ≤ 2 ^ 63) (hdistinct : i ≠ j)
    (h : (Float.ofInt i == .ofInt j) = true) : 2 ^ 53 ≤ i.natAbs := by
  by_contra hsmall
  have hlt : i.natAbs < 2 ^ 53 := Nat.lt_of_not_le hsmall
  obtain ⟨b, hb, -⟩ := nearest_ofInt hi
  obtain ⟨c, hc, hvalue⟩ := (beq_iff_toRat_eq hb).1 h
  rw [toRat_ofInt_of_lt hlt hb] at hvalue
  rcases Nat.lt_or_ge j.natAbs (2 ^ 53) with hj' | hj'
  · rw [toRat_ofInt_of_lt hj' hc] at hvalue
    exact hdistinct (by exact_mod_cast hvalue.symm)
  · have hlarge := le_abs_toRat_ofInt hj' hj hc
    rw [hvalue, ← Int.cast_abs, ← Nat.cast_natAbs] at hlarge
    exact hsmall (by exact_mod_cast hlarge)

end OfInt

end LiveForm.Decimal
