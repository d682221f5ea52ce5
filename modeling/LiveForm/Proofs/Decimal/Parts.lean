import LiveForm.Decimal.Binary
import Mathlib

/-!
# The value of a real

Sign, mantissa and exponent make up a rational number, and each number but zero has these parts in one way only.
So two finite reals count as equal exactly if they have the same value.
-/

set_option autoImplicit false

namespace LiveForm.Decimal

open Float.Model (Format UnpackedFloat)
open Float.Model.UnpackedFloat (Sign unpackSign unpackExponent unpackMantissa)

theorem toNat_one_append {w : ℕ} (v : BitVec w) : (1#1 ++ v).toNat = 2 ^ w + v.toNat := by
  rw [BitVec.toNat_append, ← Nat.shiftLeft_add_eq_or_of_lt v.isLt, Nat.shiftLeft_eq]
  simp

section Fields

variable (bits : BitVec 64)

theorem toNat_unpackMantissa : (@unpackMantissa Format.binary64 bits).toNat = bits.toNat % Nat.pow 2 52 := by
  simp [unpackMantissa]

theorem toNat_unpackExponent :
    (@unpackExponent Format.binary64 bits).toNat = bits.toNat / Nat.pow 2 52 % Nat.pow 2 11 := by
  simp [unpackExponent, Nat.shiftRight_eq_div_pow]

theorem ofBitVec_unpackSign_beq :
    (Sign.ofBitVec (@unpackSign Format.binary64 bits) == .negative) = decide (Nat.pow 2 63 ≤ bits.toNat) := by
  have hbound := bits.isLt
  have hpow : Nat.pow 2 63 = 2 ^ 63 := rfl
  have hbit : (@unpackSign Format.binary64 bits).toNat = bits.toNat / 2 ^ 63 := by
    simp [unpackSign, Nat.shiftRight_eq_div_pow]
    omega
  unfold Sign.ofBitVec
  by_cases h : Nat.pow 2 63 ≤ bits.toNat
  · have hne : @unpackSign Format.binary64 bits ≠ 0#1 := by
      intro h0
      rw [h0] at hbit
      have hzero : (0#1).toNat = 0 := rfl
      omega
    rw [if_neg hne, decide_eq_true h]
    rfl
  · have hzero : bits.toNat / 2 ^ 63 = 0 := by omega
    have heq : @unpackSign Format.binary64 bits = 0#1 := BitVec.eq_of_toNat_eq (hbit.trans hzero)
    rw [if_pos heq, decide_eq_false h]
    rfl

end Fields

namespace Binary

/-- The parts of an unpacked number. -/
def ofUnpacked? : UnpackedFloat → Option Binary
  | .finite s m e _ => some ⟨s == .negative, m, e, m = Nat.pow 2 52 && (-1074 : Int) < e⟩
  | .zero s => some ⟨s == .negative, 0, -1074, false⟩
  | .infinity _ => none
  | .notANumber => none

theorem ofFloat?_eq (x : Float) : ofFloat? x = ofUnpacked? x.toModel.unpack := by
  have hbits : x.toBits.toNat = x.toModel.toBits.toBitVec.toNat := rfl
  have hbias : (Format.binary64.exponentBias : Int) + (52 : Nat) = 1075 := rfl
  unfold ofFloat? Float.Model.unpack UnpackedFloat.unpack
  dsimp only
  rw [hbits, ← toNat_unpackMantissa, ← toNat_unpackExponent, ← ofBitVec_unpackSign_beq]
  set m : BitVec 52 := @unpackMantissa Format.binary64 x.toModel.toBits.toBitVec
  set e : BitVec 11 := @unpackExponent Format.binary64 x.toModel.toBits.toBitVec
  have htop : e = -1#11 ↔ e.toNat = 2047 := BitVec.toNat_inj.symm
  have hbottom : e = 0#11 ↔ e.toNat = 0 := BitVec.toNat_inj.symm
  have hm : m.toNat < Nat.pow 2 52 := m.isLt
  simp only [htop, hbottom, hbias]
  split
  next => split <;> rfl
  next =>
    split
    next he =>
      split
      next hzero =>
        rw [hzero]
        rfl
      next =>
        rw [ofUnpacked?, he, decide_eq_false (Nat.ne_of_lt hm)]
        rfl
    next he =>
      have hfull : m.toNat = 0 ↔ Nat.pow 2 52 + m.toNat = Nat.pow 2 52 := by omega
      have hlowest : 1 < e.toNat ↔ (-1074 : Int) < (e.toNat : Int) - 1075 := by omega
      rw [ofUnpacked?, toNat_one_append, decide_eq_decide.2 hfull, decide_eq_decide.2 hlowest]
      rfl

/-- The mantissa has 53 places and fills them, unless the exponent is the least one. -/
structure Canonical (b : Binary) : Prop where
  mantissa_lt : b.mantissa < 2 ^ 53
  exponent_ge : -1074 ≤ b.exponent
  full : 2 ^ 52 ≤ b.mantissa ∨ b.exponent = -1074

theorem canonical_of_ofFloat? {x : Float} {b : Binary} (h : ofFloat? x = some b) : b.Canonical := by
  have hfraction : x.toBits.toNat % Nat.pow 2 52 < Nat.pow 2 52 := Nat.mod_lt _ (by decide)
  have hpow : Nat.pow 2 52 = 2 ^ 52 := rfl
  unfold ofFloat? at h
  dsimp only at h
  split at h
  next => cases h
  next =>
    split at h
    next =>
      obtain rfl := Option.some.inj h
      exact ⟨by dsimp only; omega, le_refl _, .inr rfl⟩
    next =>
      obtain rfl := Option.some.inj h
      exact ⟨by dsimp only; omega, by dsimp only; omega, .inl (by dsimp only; omega)⟩

/-- The size of the number. -/
def magnitude (b : Binary) : ℚ :=
  b.mantissa * 2 ^ b.exponent

/-- The number that the parts stand for. -/
def toRat (b : Binary) : ℚ :=
  b.signed * 2 ^ b.exponent

variable {b c : Binary}

theorem toRat_eq (b : Binary) : b.toRat = if b.negative then -b.magnitude else b.magnitude := by
  unfold toRat signed magnitude
  split
  · push_cast
    ring
  · push_cast
    ring

theorem magnitude_nonneg (b : Binary) : 0 ≤ b.magnitude := by
  unfold magnitude
  positivity

theorem magnitude_pos (h : 0 < b.mantissa) : 0 < b.magnitude := by
  unfold magnitude
  positivity

theorem abs_toRat (b : Binary) : |b.toRat| = b.magnitude := by
  rw [toRat_eq]
  split
  · rw [abs_neg, abs_of_nonneg b.magnitude_nonneg]
  · rw [abs_of_nonneg b.magnitude_nonneg]

theorem toRat_of_mantissa_eq_zero (h : b.mantissa = 0) : b.toRat = 0 := by
  rw [toRat_eq, magnitude, h]
  simp

/-- A number with a lower last place stays below those that fill 53 places. -/
theorem Canonical.magnitude_lt (hb : b.Canonical) {place : ℤ} (h : b.exponent < place) :
    b.magnitude < 2 ^ 52 * 2 ^ place := by
  have hmantissa : (b.mantissa : ℚ) < 2 ^ 53 := by exact_mod_cast hb.mantissa_lt
  calc b.magnitude < 2 ^ 53 * 2 ^ b.exponent := mul_lt_mul_of_pos_right hmantissa (by positivity)
    _ = 2 ^ 52 * 2 ^ (b.exponent + 1) := by
        rw [zpow_add₀ (by norm_num)]
        ring
    _ ≤ 2 ^ 52 * 2 ^ place := by
        gcongr
        · norm_num
        · omega

theorem Canonical.magnitude_lt_of_exponent_lt (hb : b.Canonical) (hc : c.Canonical) (h : b.exponent < c.exponent) :
    b.magnitude < c.magnitude := by
  have hfull : 2 ^ 52 ≤ c.mantissa := by
    have hge := hb.exponent_ge
    exact hc.full.resolve_right (by omega)
  have hmantissa : (2 ^ 52 : ℚ) ≤ c.mantissa := by exact_mod_cast hfull
  exact (hb.magnitude_lt h).trans_le (mul_le_mul_of_nonneg_right hmantissa (by positivity))

theorem Canonical.eq_of_magnitude_eq (hb : b.Canonical) (hc : c.Canonical) (h : b.magnitude = c.magnitude) :
    b.mantissa = c.mantissa ∧ b.exponent = c.exponent := by
  rcases lt_trichotomy b.exponent c.exponent with hlt | heq | hgt
  · exact absurd h (hb.magnitude_lt_of_exponent_lt hc hlt).ne
  · unfold magnitude at h
    rw [heq] at h
    have hmantissa : (b.mantissa : ℚ) = c.mantissa := mul_right_cancel₀ (by positivity) h
    exact ⟨by exact_mod_cast hmantissa, heq⟩
  · exact absurd h (hc.magnitude_lt_of_exponent_lt hb hgt).ne'

/-- A number has its parts in one way only, but for the sign of zero. -/
theorem Canonical.of_toRat_eq (hb : b.Canonical) (hc : c.Canonical) (h : b.toRat = c.toRat) :
    b.mantissa = c.mantissa ∧ b.exponent = c.exponent ∧ (0 < b.mantissa → b.negative = c.negative) := by
  have hsize : b.magnitude = c.magnitude := by rw [← abs_toRat, ← abs_toRat, h]
  obtain ⟨hmantissa, hexponent⟩ := hb.eq_of_magnitude_eq hc hsize
  refine ⟨hmantissa, hexponent, ?_⟩
  intro hpos
  have hb' := magnitude_pos hpos
  rw [toRat_eq, toRat_eq, ← hsize] at h
  cases hbn : b.negative with
  | false =>
    cases hcn : c.negative with
    | false => rfl
    | true =>
      rw [hbn, hcn] at h
      have hopposite : b.magnitude = -b.magnitude := h
      linarith
  | true =>
    cases hcn : c.negative with
    | false =>
      rw [hbn, hcn] at h
      have hopposite : -b.magnitude = b.magnitude := h
      linarith
    | true => rfl

end Binary

section Equality

variable {u v : UnpackedFloat} {x y : Float} {b c : Binary}

theorem ofUnpacked?_of_beq (h : u.beq v = true) (hb : Binary.ofUnpacked? u = some b) :
    ∃ c, Binary.ofUnpacked? v = some c ∧ c.toRat = b.toRat := by
  obtain ⟨-, -, rfl | ⟨rfl, rfl⟩ | ⟨rfl, rfl⟩⟩ := (UnpackedFloat.beq_iff_ne_notANumber_and_eq u v).1 h
  · exact ⟨b, hb, rfl⟩
  · obtain rfl := Option.some.inj hb
    exact ⟨_, rfl, by rw [Binary.toRat_of_mantissa_eq_zero rfl, Binary.toRat_of_mantissa_eq_zero rfl]⟩
  · obtain rfl := Option.some.inj hb
    exact ⟨_, rfl, by rw [Binary.toRat_of_mantissa_eq_zero rfl, Binary.toRat_of_mantissa_eq_zero rfl]⟩

theorem beq_of_toRat_eq (hu : Binary.ofUnpacked? u = some b) (hv : Binary.ofUnpacked? v = some c) (hb : b.Canonical)
    (hc : c.Canonical) (h : b.toRat = c.toRat) : u.beq v = true := by
  obtain ⟨hmantissa, hexponent, hsign⟩ := hb.of_toRat_eq hc h
  cases u with
  | infinity s => cases hu
  | notANumber => cases hu
  | zero s =>
    obtain rfl := Option.some.inj hu
    cases v with
    | infinity t => cases hv
    | notANumber => cases hv
    | zero t => rfl
    | finite t n f hn =>
      obtain rfl := Option.some.inj hv
      exact absurd hmantissa hn.ne
  | finite s m e hm =>
    obtain rfl := Option.some.inj hu
    cases v with
    | infinity t => cases hv
    | notANumber => cases hv
    | zero t =>
      obtain rfl := Option.some.inj hv
      exact absurd hmantissa hm.ne'
    | finite t n f hn =>
      obtain rfl := Option.some.inj hv
      obtain rfl : m = n := hmantissa
      obtain rfl : e = f := hexponent
      have hsign' : (s == .negative) = (t == .negative) := hsign hm
      obtain rfl : s = t := by cases s <;> cases t <;> first | rfl | cases hsign'
      exact (UnpackedFloat.beq_iff_ne_notANumber_and_eq _ _).2 ⟨nofun, nofun, .inl rfl⟩

/-- What counts as equal to a finite real are the finite reals of the same value. -/
theorem beq_iff_toRat_eq (h : Binary.ofFloat? x = some b) :
    (x == y) = true ↔ ∃ c, Binary.ofFloat? y = some c ∧ c.toRat = b.toRat := by
  have hbeq : (x == y) = x.toModel.unpack.beq y.toModel.unpack := rfl
  have hb := Binary.canonical_of_ofFloat? h
  rw [Binary.ofFloat?_eq] at h
  rw [hbeq]
  constructor
  · intro heq
    rw [Binary.ofFloat?_eq]
    exact ofUnpacked?_of_beq heq h
  · rintro ⟨c, hc, hvalue⟩
    have hc' := Binary.canonical_of_ofFloat? hc
    rw [Binary.ofFloat?_eq] at hc
    exact beq_of_toRat_eq h hc hb hc' hvalue.symm

end Equality

end LiveForm.Decimal
