import LiveForm.Proofs.Decimal.Parts

/-!
# Rounding to 53 places

What becomes of a natural number that is made a real. Its mantissa is cut to 53 places, and what is cut off decides
which of the two nearest multiples of the last place is taken: the nearer one, or the even one if both are equally
near. `Rounds` says this of numbers; the shifts and the carry of the algorithm do not appear in it.
-/

set_option autoImplicit false

namespace LiveForm.Decimal

open Float.Model (Format UnpackedFloat totalExponent)
open Float.Model.UnpackedFloat (Sign ExtendedMantissa packComponents)

/-! ## The quotient -/

theorem shift_succ (em : ExtendedMantissa) (k : ℕ) : em >>> (k + 1) = (em >>> k).shiftRightOne := rfl

/-- What is left of a mantissa after `k` of its bits have been dropped: the quotient, and of the rest whether it
reaches one half and whether it differs from zero and from one half. -/
theorem shift_eq (m k : ℕ) : (⟨m, false, false⟩ : ExtendedMantissa) >>> k =
    ⟨m / 2 ^ k, decide (2 ^ k ≤ 2 * (m % 2 ^ k)), decide (2 * (m % 2 ^ k) % 2 ^ k ≠ 0)⟩ := by
  induction k with
  | zero =>
    simp [Nat.mod_one]
    rfl
  | succ k ih =>
    have hrest : m % 2 ^ k < 2 ^ k := Nat.mod_lt _ (Nat.two_pow_pos k)
    have hsplit : m % 2 ^ (k + 1) = m % 2 ^ k + 2 ^ k * (m / 2 ^ k % 2) := by
      rw [Nat.pow_succ, Nat.mod_mul]
    have hdouble : 2 * (m % 2 ^ (k + 1)) % 2 ^ (k + 1) = 2 * (m % 2 ^ k) := by
      rw [Nat.pow_succ, Nat.mul_comm (2 ^ k) 2, Nat.mul_mod_mul_left, ← Nat.pow_succ',
        Nat.mod_mod_of_dvd _ (Nat.pow_dvd_pow 2 (Nat.le_succ k))]
    have hbit : m / 2 ^ k % 2 ≠ 0 ↔ 2 ^ (k + 1) ≤ 2 * (m % 2 ^ (k + 1)) := by
      rw [hsplit, Nat.pow_succ]
      rcases Nat.mod_two_eq_zero_or_one (m / 2 ^ k) with h | h <;> rw [h] <;> omega
    have hlost : 2 ^ k ≤ 2 * (m % 2 ^ k) ∨ 2 * (m % 2 ^ k) % 2 ^ k ≠ 0 ↔ 2 * (m % 2 ^ k) ≠ 0 := by
      constructor
      · rintro (h | h) hzero
        · have hpos := Nat.two_pow_pos k
          omega
        · rw [hzero] at h
          exact h (Nat.zero_mod _)
      · intro h
        by_cases hlarge : 2 ^ k ≤ 2 * (m % 2 ^ k)
        · exact .inl hlarge
        · right
          rwa [Nat.mod_eq_of_lt (Nat.lt_of_not_le hlarge)]
    rw [shift_succ, ih, ExtendedMantissa.shiftRightOne, hdouble]
    congr 1
    · rw [Nat.div_div_eq_div_mul, ← Nat.pow_succ]
    · rw [← decide_eq_decide.2 hbit]
      exact decide_not.symm
    · rw [← Bool.decide_or, decide_eq_decide.2 hlost]

/-- A quotient by a power of two, rounded to the nearest integer, and to the even one of two equally near. -/
def roundedQuotient (m k : ℕ) : ℕ :=
  if 2 * (m % 2 ^ k) < 2 ^ k then m / 2 ^ k
  else if 2 * (m % 2 ^ k) = 2 ^ k then m / 2 ^ k + m / 2 ^ k % 2
  else m / 2 ^ k + 1

theorem roundedMantissa_shift (m k : ℕ) :
    ((⟨m, false, false⟩ : ExtendedMantissa) >>> k).roundedMantissa = roundedQuotient m k := by
  have hrest : m % 2 ^ k < 2 ^ k := Nat.mod_lt _ (Nat.two_pow_pos k)
  rw [shift_eq, roundedQuotient]
  split
  next hlow =>
    rw [decide_eq_false (Nat.not_le.2 hlow)]
    cases decide (2 * (m % 2 ^ k) % 2 ^ k ≠ 0) <;> rfl
  next hlow =>
    rw [decide_eq_true (Nat.le_of_not_lt hlow)]
    split
    next htie =>
      rw [htie, Nat.mod_self]
      rfl
    next htie =>
      have hover : 2 * (m % 2 ^ k) % 2 ^ k ≠ 0 := by
        rw [Nat.mod_eq_sub_mod (Nat.le_of_not_lt hlow), Nat.mod_eq_of_lt] <;> omega
      rw [decide_eq_true hover]
      rfl

theorem roundedQuotient_bounds (m k : ℕ) :
    m / 2 ^ k ≤ roundedQuotient m k ∧ roundedQuotient m k ≤ m / 2 ^ k + 1 := by
  unfold roundedQuotient
  split
  · omega
  · split <;> omega

theorem roundedQuotient_near (m k : ℕ) :
    2 * |(roundedQuotient m k * 2 ^ k - m : ℚ)| ≤ 2 ^ k ∧
      (2 * |(roundedQuotient m k * 2 ^ k - m : ℚ)| = 2 ^ k → Even (roundedQuotient m k)) := by
  have hm : (m : ℚ) = (m / 2 ^ k : ℕ) * 2 ^ k + (m % 2 ^ k : ℕ) := by
    exact_mod_cast (Nat.div_add_mod' m (2 ^ k)).symm
  have hrest : ((m % 2 ^ k : ℕ) : ℚ) < 2 ^ k := by exact_mod_cast Nat.mod_lt m (Nat.two_pow_pos k)
  have hbelow : |((m / 2 ^ k : ℕ) * 2 ^ k - m : ℚ)| = (m % 2 ^ k : ℕ) := by
    rw [hm, sub_add_cancel_left, abs_neg, Nat.abs_cast]
  have habove : |((m / 2 ^ k + 1 : ℕ) * 2 ^ k - m : ℚ)| = 2 ^ k - (m % 2 ^ k : ℕ) := by
    rw [abs_of_nonneg]
    · rw [hm]
      push_cast
      ring
    · rw [hm]
      push_cast
      linarith
  unfold roundedQuotient
  split
  next hlow =>
    have hlow' : (2 * (m % 2 ^ k : ℕ) : ℚ) < 2 ^ k := by exact_mod_cast hlow
    rw [hbelow]
    exact ⟨hlow'.le, fun h => absurd h hlow'.ne⟩
  next hlow =>
    split
    next htie =>
      have htie' : (2 * (m % 2 ^ k : ℕ) : ℚ) = 2 ^ k := by exact_mod_cast htie
      rcases Nat.mod_two_eq_zero_or_one (m / 2 ^ k) with heven | hodd
      · rw [heven, Nat.add_zero, hbelow]
        exact ⟨htie'.le, fun _ => Nat.even_iff.2 heven⟩
      · rw [hodd, habove]
        exact ⟨by linarith, fun _ => Nat.even_add_one.2 (Nat.not_even_iff.2 hodd)⟩
    next htie =>
      have hhigh : (2 ^ k : ℚ) < 2 * (m % 2 ^ k : ℕ) := by
        exact_mod_cast lt_of_le_of_ne (Nat.le_of_not_lt hlow) (Ne.symm htie)
      rw [habove]
      exact ⟨by linarith, fun h => absurd h (by linarith)⟩

/-! ## The rounded number -/

/-- What rounding makes of `v`: the multiple of `2 ^ place` that is nearest to it, and the even one of two equally
near, written with a mantissa of 53 places. That power of two is the distance of such numbers around `v`. -/
structure Rounds (place : ℤ) (v : ℚ) (m : ℕ) (e : ℤ) : Prop where
  le : 2 ^ 52 * 2 ^ place ≤ v
  lt : v < 2 ^ 53 * 2 ^ place
  full : 2 ^ 52 ≤ m
  mantissa_lt : m < 2 ^ 53
  carried : e = place ∨ m = 2 ^ 52 ∧ e = place + 1
  near : 2 * |m * 2 ^ e - v| ≤ 2 ^ place
  even : 2 * |m * 2 ^ e - v| = 2 ^ place → Even m

theorem pow_bounds_of_log2 {m k : ℕ} (hm : m.log2 = 52 + k) : 2 ^ 52 * 2 ^ k ≤ m ∧ m < 2 ^ 53 * 2 ^ k := by
  have hne : m ≠ 0 := by
    rintro rfl
    rw [Nat.log2_zero] at hm
    omega
  constructor
  · rw [← pow_add, ← hm]
    exact Nat.log2_self_le hne
  · rw [← pow_add, show 53 + k = m.log2 + 1 by omega]
    exact Nat.lt_log2_self

/-- A quotient that has been rounded is the mantissa of a rounded number. -/
theorem rounds_of_roundedQuotient {m k : ℕ} {e : ℤ} (hm : m.log2 = 52 + k) {m' : ℕ} {e' : ℤ} (hfull : 2 ^ 52 ≤ m')
    (hmantissa : m' < 2 ^ 53) (hcarried : e' = e + k ∨ m' = 2 ^ 52 ∧ e' = e + k + 1)
    (hvalue : (m' * 2 ^ e' : ℚ) = roundedQuotient m k * 2 ^ (e + k)) (hparity : Even (roundedQuotient m k) → Even m') :
    Rounds (e + k) (m * 2 ^ e) m' e' := by
  obtain ⟨hlow, hhigh⟩ := pow_bounds_of_log2 hm
  have hlow' : (2 ^ 52 * 2 ^ k : ℚ) ≤ m := by exact_mod_cast hlow
  have hhigh' : (m : ℚ) < 2 ^ 53 * 2 ^ k := by exact_mod_cast hhigh
  have hunit : (2 : ℚ) ^ (e + k) = 2 ^ k * 2 ^ e := by rw [zpow_add₀ (by norm_num), zpow_natCast, mul_comm]
  have hpos : (0 : ℚ) < 2 ^ e := by positivity
  have hdistance : |(m' * 2 ^ e' - m * 2 ^ e : ℚ)| = |(roundedQuotient m k * 2 ^ k - m : ℚ)| * 2 ^ e := by
    rw [hvalue, hunit, ← mul_assoc, ← sub_mul, abs_mul, abs_of_pos hpos]
  obtain ⟨hnear, heven⟩ := roundedQuotient_near m k
  refine ⟨?_, ?_, hfull, hmantissa, hcarried, ?_, ?_⟩
  · rw [hunit, ← mul_assoc]
    exact mul_le_mul_of_nonneg_right hlow' hpos.le
  · rw [hunit, ← mul_assoc]
    exact mul_lt_mul_of_pos_right hhigh' hpos
  · rw [hdistance, hunit, ← mul_assoc]
    exact mul_le_mul_of_nonneg_right hnear hpos.le
  · rw [hdistance, hunit, ← mul_assoc]
    exact fun h => hparity (heven (mul_right_cancel₀ hpos.ne' h))

theorem targetExponent_eq (m : ℕ) (e : ℤ) :
    Format.binary64.targetExponent (totalExponent m e) = max (m.log2 + e - 52) (-1074) := by
  have hmin : Format.binary64.minExponent = -1074 := rfl
  have hbits : (Format.binary64.mantissaBits : ℤ) = 53 := rfl
  rw [Format.targetExponent, totalExponent, hmin, hbits]
  congr 1
  omega

theorem shiftToTargetExponent_eq {m k : ℕ} {e : ℤ} (hm : m.log2 = 52 + k) (he : -1074 ≤ e + k) :
    UnpackedFloat.shiftToTargetExponent Format.binary64 m e .exact =
      ((⟨m, false, false⟩ : ExtendedMantissa) >>> k, e + k) := by
  have hamount : (max ((m.log2 : ℤ) + e - 52) (-1074) - e).toNat = k := by omega
  unfold UnpackedFloat.shiftToTargetExponent UnpackedFloat.shiftToExponent
  dsimp only
  rw [targetExponent_eq, hamount]
  rfl

/-- A number with 53 places or more is rounded. The quotient may have gained a place; then it is a power of two, and
the second shift loses nothing. -/
theorem roundWithAccuracy_rounds (s : Sign) {m k : ℕ} {e : ℤ} (hm : m.log2 = 52 + k) (he : -1074 ≤ e + k) :
    ∃ m' e' h, UnpackedFloat.roundWithAccuracy Format.binary64 s m e .exact = .finite s m' e' h ∧
      Rounds (e + k) (m * 2 ^ e) m' e' := by
  obtain ⟨hlow, hhigh⟩ := pow_bounds_of_log2 hm
  have hquotient : 2 ^ 52 ≤ m / 2 ^ k := (Nat.le_div_iff_mul_le (Nat.two_pow_pos k)).2 hlow
  have hquotient' : m / 2 ^ k < 2 ^ 53 := (Nat.div_lt_iff_lt_mul (Nat.two_pow_pos k)).2 hhigh
  obtain ⟨hfloor, hceil⟩ := roundedQuotient_bounds m k
  unfold UnpackedFloat.roundWithAccuracy
  rw [shiftToTargetExponent_eq hm he]
  dsimp only
  rw [roundedMantissa_shift]
  by_cases hcarry : roundedQuotient m k < 2 ^ 53
  · have hpos : 0 < roundedQuotient m k := by omega
    have hlog : (roundedQuotient m k).log2 = 52 + 0 := (Nat.log2_eq_iff hpos.ne').2 ⟨by omega, hcarry⟩
    rw [shiftToTargetExponent_eq hlog (by omega)]
    refine ⟨roundedQuotient m k, e + k + (0 : ℕ), hpos, dif_neg hpos.ne', ?_⟩
    exact rounds_of_roundedQuotient hm (by omega) hcarry (.inl (by omega)) (by simp) id
  · have htop : roundedQuotient m k = 2 ^ 53 := by omega
    have hlog : (roundedQuotient m k).log2 = 52 + 1 := by rw [htop, Nat.log2_two_pow]
    have hhalf : ((⟨roundedQuotient m k, false, false⟩ : ExtendedMantissa) >>> 1).mantissa = 2 ^ 52 := by
      rw [htop]
      rfl
    rw [shiftToTargetExponent_eq hlog (by omega)]
    refine ⟨2 ^ 52, e + k + (1 : ℕ), by decide, ?_, ?_⟩
    · simp only [hhalf]
      rfl
    · refine rounds_of_roundedQuotient hm (le_refl _) (by decide) (.inr ⟨rfl, rfl⟩) ?_ fun _ => by decide
      rw [htop, Nat.cast_one, zpow_add_one₀ (by norm_num)]
      push_cast
      ring

/-- Multiples of one number that lie closer together than it are equal. -/
theorem eq_of_close {p : ℚ} (hp : 0 < p) {w z : ℤ} (h : |(w * p - z * p : ℚ)| < p) : w = z := by
  rw [← sub_mul, abs_mul, abs_of_pos hp, mul_lt_iff_lt_one_left hp] at h
  have hlt : |w - z| < 1 := by exact_mod_cast h
  rw [Int.abs_lt_one_iff] at hlt
  omega

namespace Rounds

variable {place : ℤ} {v : ℚ} {n m : ℕ} {e : ℤ}

theorem onGrid (h : Rounds place v m e) : ∃ w : ℤ, (m * 2 ^ e : ℚ) = w * 2 ^ place ∧ (Even m → Even w) := by
  rcases h.carried with rfl | ⟨rfl, rfl⟩
  · exact ⟨m, by push_cast; rfl, fun hm => by exact_mod_cast hm⟩
  · refine ⟨2 ^ 53, ?_, fun _ => by decide⟩
    rw [zpow_add_one₀ (by norm_num)]
    push_cast
    ring

/-- A natural number that has no bit below the last place is kept as it is. -/
theorem exact (h : Rounds place n m e) (hplace : place ≤ 0) : (m * 2 ^ e : ℚ) = n := by
  obtain ⟨w, hw, -⟩ := h.onGrid
  have hpos : (0 : ℚ) < 2 ^ place := by positivity
  have hn : (n : ℚ) = (n * 2 ^ (-place).toNat : ℤ) * 2 ^ place := by
    have hcancel : (2 : ℚ) ^ (-place).toNat * 2 ^ place = 1 := by
      rw [← zpow_natCast, ← zpow_add₀ (by norm_num), Int.toNat_of_nonneg (by omega), neg_add_cancel, zpow_zero]
    push_cast
    rw [mul_assoc, hcancel, mul_one]
  have hnear := h.near
  rw [hw, hn] at hnear ⊢
  have heq : w = n * 2 ^ (-place).toNat := eq_of_close hpos (by linarith)
  rw [heq]

theorem exponent_bounds (h : Rounds place n m e) (hn : 0 < n) (hbound : n ≤ 2 ^ 63) : -53 < e ∧ e < 13 := by
  have hlow : (1 : ℚ) ≤ n := by exact_mod_cast hn
  have hhigh : (n : ℚ) ≤ 2 ^ 63 := by exact_mod_cast hbound
  have hplace : (2 : ℚ) ^ (52 + place) ≤ 2 ^ (63 : ℤ) := by
    rw [zpow_add₀ (by norm_num)]
    exact_mod_cast h.le.trans hhigh
  have hplace' : (2 : ℚ) ^ (0 : ℤ) < 2 ^ (53 + place) := by
    rw [zpow_add₀ (by norm_num)]
    exact_mod_cast hlow.trans_lt h.lt
  rw [zpow_le_zpow_iff_right₀ (by norm_num)] at hplace
  rw [zpow_lt_zpow_iff_right₀ (by norm_num)] at hplace'
  rcases h.carried with rfl | ⟨-, rfl⟩ <;> omega

end Rounds

/-! ## Putting together and taking apart -/

theorem unpack_packComponents (s : Sign) {e : BitVec 11} {m : BitVec 52} (htop : e ≠ -1#11) (hbottom : e ≠ 0#11) :
    UnpackedFloat.unpack Format.binary64 (packComponents Format.binary64 s e m) =
      .finite s (1#1 ++ m).toNat (e.toNat - (Format.binary64.exponentBias + (52 : ℕ)))
        (by rw [toNat_one_append]; omega) := by
  unfold UnpackedFloat.unpack
  dsimp only
  simp only [UnpackedFloat.unpackExponent_packComponents, UnpackedFloat.unpackMantissa_packComponents,
    UnpackedFloat.unpackSign_packComponents, Sign.ofBitVec_toBitVec]
  rw [if_neg htop, if_neg hbottom]

/-- A number with 53 places survives being put together and taken apart. -/
theorem unpack_pack (s : Sign) {m : ℕ} {e : ℤ} (h : 0 < m) (hfull : 2 ^ 52 ≤ m) (hmantissa : m < 2 ^ 53)
    (hlow : -1074 ≤ e) (hhigh : e ≤ 971) : (Float.Model.pack (.finite s m e h)).unpack = .finite s m e h := by
  have hlog : m.log2 + 1 = Format.binary64.mantissaBits := by
    rw [(Nat.log2_eq_iff h.ne').2 ⟨hfull, hmantissa⟩]
    rfl
  have hbias : (Format.binary64.exponentBias : ℤ) = 1023 := rfl
  have hbiased : (BitVec.ofNat 11 (e + 1075).toNat).toNat = (e + 1075).toNat := by
    rw [BitVec.toNat_ofNat, Nat.mod_eq_of_lt (by omega)]
  have htop : BitVec.ofNat 11 (e + 1075).toNat ≠ -1#11 := by
    intro heq
    rw [heq] at hbiased
    have hvalue : (-1#11 : BitVec 11).toNat = 2047 := rfl
    omega
  have hbottom : BitVec.ofNat 11 (e + 1075).toNat ≠ 0#11 := by
    intro heq
    rw [heq] at hbiased
    have hvalue : (0#11 : BitVec 11).toNat = 0 := rfl
    omega
  have hfraction : (1#1 ++ BitVec.ofNat 52 m).toNat = m := by
    rw [toNat_one_append, BitVec.toNat_ofNat]
    omega
  have hpack : UnpackedFloat.pack Format.binary64 (.finite s m e h) =
      packComponents Format.binary64 s (BitVec.ofNat 11 (e + 1075).toNat) (BitVec.ofNat 52 m) := by
    have hexponent : (e + (Format.binary64.exponentBias : ℤ) + (52 : ℕ)).toNat = (e + 1075).toNat := by omega
    unfold UnpackedFloat.pack
    dsimp only
    rw [hexponent, if_neg (by omega), if_pos hlog]
  have hunpack : (Float.Model.pack (.finite s m e h)).unpack =
      UnpackedFloat.unpack Format.binary64 (UnpackedFloat.pack Format.binary64 (.finite s m e h)) := rfl
  rw [hunpack, hpack, unpack_packComponents s htop hbottom]
  congr 1
  rw [hbiased, hbias]
  omega

theorem Rounds.unpack_pack {place : ℤ} {n m : ℕ} {e : ℤ} (h : Rounds place n m e) (hn : 0 < n) (hbound : n ≤ 2 ^ 63)
    (s : Sign) (hm : 0 < m) : (Float.Model.pack (.finite s m e hm)).unpack = .finite s m e hm := by
  have ⟨hlow, hhigh⟩ := h.exponent_bounds hn hbound
  exact Decimal.unpack_pack s hm h.full h.mantissa_lt (by omega) (by omega)

/-! ## Natural numbers as reals -/

variable {n : ℕ}

theorem log2_mul_two_pow (hn : n ≠ 0) (j : ℕ) : (n * 2 ^ j).log2 = n.log2 + j := by
  rw [Nat.log2_eq_iff (Nat.mul_ne_zero hn (Nat.two_pow_pos j).ne')]
  constructor
  · rw [pow_add]
    exact Nat.mul_le_mul_right _ (Nat.log2_self_le hn)
  · rw [Nat.add_right_comm, pow_add]
    exact Nat.mul_lt_mul_of_pos_right Nat.lt_log2_self (Nat.two_pow_pos j)

/-- A natural number whose bits are moved up by as many places as its exponent is lowered stays what it is. -/
theorem shiftLeft_mul_zpow (n j : ℕ) {e : ℤ} (he : e = -(j : ℤ)) : ((n <<< j : ℕ) * 2 ^ e : ℚ) = n := by
  have hcancel : (2 : ℚ) ^ j * 2 ^ (-(j : ℤ)) = 1 := by
    rw [← zpow_natCast, ← zpow_add₀ (by norm_num), add_neg_cancel, zpow_zero]
  rw [he, Nat.shiftLeft_eq]
  push_cast
  rw [mul_assoc, hcancel, mul_one]

theorem round_rounds (s : Sign) (hn : 0 < n) (hsmall : n < 2 ^ 53) :
    ∃ m e h, UnpackedFloat.round Format.binary64 s n 0 = .finite s m e h ∧ Rounds (n.log2 - 52) n m e := by
  have hlog : n.log2 < 53 := (Nat.log2_lt hn.ne').2 hsmall
  have hamount : (0 - max ((n.log2 : ℤ) + 0 - 52) (-1074)).toNat = 52 - n.log2 := by omega
  have hlog' : (n <<< (52 - n.log2)).log2 = 52 + 0 := by
    rw [Nat.shiftLeft_eq, log2_mul_two_pow hn.ne']
    omega
  have hplace : (0 : ℤ) - (52 - n.log2 : ℕ) + (0 : ℕ) = n.log2 - 52 := by omega
  obtain ⟨m, e, h, hround, hrounds⟩ := roundWithAccuracy_rounds s hlog' (e := 0 - (52 - n.log2 : ℕ)) (by omega)
  rw [hplace, shiftLeft_mul_zpow n _ (by omega)] at hrounds
  refine ⟨m, e, h, ?_, hrounds⟩
  unfold UnpackedFloat.round UnpackedFloat.decreaseExponent
  dsimp only
  rw [targetExponent_eq, hamount, hround]

theorem mul_one_rounds {place : ℤ} {m : ℕ} {e : ℤ} (h : 0 < m) (hn : Rounds place n m e) (hplace : place ≤ 0)
    (he : -1074 ≤ e) :
    ∃ m' e' h', UnpackedFloat.mul Format.binary64 (.finite .positive m e h)
        (.finite .positive (2 ^ 52) (-52) (by decide)) = .finite .positive m' e' h' ∧ Rounds e n m' e' := by
  have hlog : (m * 2 ^ 52).log2 = 52 + 52 := by
    rw [log2_mul_two_pow h.ne', (Nat.log2_eq_iff h.ne').2 ⟨hn.full, hn.mantissa_lt⟩]
  have hvalue : ((m * 2 ^ 52 : ℕ) * 2 ^ (e + -52) : ℚ) = n := by
    rw [← hn.exact hplace, zpow_add₀ (by norm_num)]
    push_cast
    ring
  have hplace' : e + -52 + (52 : ℕ) = e := by omega
  obtain ⟨m', e', h', hround, hrounds⟩ := roundWithAccuracy_rounds .positive hlog (e := e + -52) (by omega)
  rw [hplace', hvalue] at hrounds
  exact ⟨m', e', h', hround, hrounds⟩

/-- Where 53 places hold a number, it is converted as a word of 64 bits and multiplied by one. -/
theorem toModel_ofNat_of_lt (h : n < 2 ^ 53) :
    (Float.ofNat n).toModel = .pack (.mul Format.binary64
      (Float.Model.pack (.ofNat Format.binary64 n.toUInt64.toNat)).unpack
      (.finite .positive (2 ^ 52) (-52) (by decide))) := by
  have hcase : n < 2 ^ 53 ∧ 0 ≤ 22 := ⟨h, Nat.zero_le _⟩
  have hone : (Float.Model.ofBits 0x3FF0000000000000).unpack = .finite .positive (2 ^ 52) (-52) (by decide) := rfl
  rw [← hone]
  unfold Float.ofNat OfScientific.ofScientific instOfScientificFloat Float.ofScientific
  dsimp only
  rw [dif_pos hcase]
  rfl

theorem toModel_ofNat_of_le (h : 2 ^ 53 ≤ n) :
    (Float.ofNat n).toModel = .pack (.roundWithAccuracy Format.binary64 .positive (n <<< 53) (-53) .exact) := by
  have hcase : ¬(n < 2 ^ 53 ∧ 0 ≤ 22) := by omega
  have hne : n ≠ 0 := by omega
  have hlow : ¬((0 : ℤ) < -((2 ^ 11 : ℤ) + n.log2)) := by omega
  have hzero : Int.ofNat 0 = 0 := rfl
  have hproduct : n <<< Format.binary64.mantissaBits * 10 ^ (0 : ℤ).toNat = n <<< 53 := Nat.mul_one _
  unfold Float.ofNat OfScientific.ofScientific instOfScientificFloat Float.ofScientific
  dsimp only
  rw [dif_neg hcase]
  unfold Float.Model.ofScientific UnpackedFloat.ofScientific
  rw [dif_neg hne]
  simp only [Bool.false_eq_true, if_false, hzero]
  rw [if_neg (by decide), if_neg hlow, if_pos (le_refl _)]
  unfold UnpackedFloat.mul
  dsimp only
  rw [hproduct]
  rfl

theorem ofNat_toUInt64 (hn : 0 < n) (hsmall : n < 2 ^ 53) :
    UnpackedFloat.ofNat Format.binary64 n.toUInt64.toNat = UnpackedFloat.round Format.binary64 .positive n 0 := by
  have hword : n.toUInt64.toNat = n := by
    rw [Nat.toUInt64_eq]
    exact UInt64.toNat_ofNat_of_lt (by rw [UInt64.size]; omega)
  have hsign : compare (n : ℤ) 0 = .gt := Int.compare_eq_gt.2 (by omega)
  rw [hword]
  unfold UnpackedFloat.ofNat UnpackedFloat.ofInt UnpackedFloat.normalize
  rw [hsign]
  rfl

/-- The real that a natural number is made is that number, rounded. -/
theorem unpack_ofNat (hn : 0 < n) (hbound : n ≤ 2 ^ 63) :
    ∃ m e h place, (Float.ofNat n).toModel.unpack = .finite .positive m e h ∧ Rounds place n m e := by
  by_cases hsmall : n < 2 ^ 53
  · have hlog : n.log2 < 53 := (Nat.log2_lt hn.ne').2 hsmall
    obtain ⟨m, e, h, hround, hrounds⟩ := round_rounds .positive hn hsmall
    have ⟨hlow, hhigh⟩ := hrounds.exponent_bounds hn hbound
    obtain ⟨m', e', h', hmul, hrounds'⟩ := mul_one_rounds h hrounds (by omega) (by omega)
    refine ⟨m', e', h', e, ?_, hrounds'⟩
    rw [toModel_ofNat_of_lt hsmall, ofNat_toUInt64 hn hsmall, hround, hrounds.unpack_pack hn hbound, hmul,
      hrounds'.unpack_pack hn hbound]
  · have hlarge : 2 ^ 53 ≤ n := Nat.le_of_not_lt hsmall
    have hlog : (n <<< 53).log2 = 52 + (n.log2 + 1) := by
      rw [Nat.shiftLeft_eq, log2_mul_two_pow hn.ne']
      omega
    obtain ⟨m, e, h, hround, hrounds⟩ := roundWithAccuracy_rounds .positive hlog (e := -53) (by omega)
    rw [shiftLeft_mul_zpow n 53 (e := -53) rfl] at hrounds
    refine ⟨m, e, h, _, ?_, hrounds⟩
    rw [toModel_ofNat_of_le hlarge, hround, hrounds.unpack_pack hn hbound]

end LiveForm.Decimal
