import Mathlib.Data.String.Basic
import Mathlib.Tactic.SplitIfs

/-!
# The bytes of texts

Texts are ordered by the code points of their characters. That is the order of their bytes: of two characters, the one with
the smaller code point is encoded by bytes that come first.
-/

set_option autoImplicit false

namespace LiveForm

/-- The bytes that a text is stored as. -/
def bytes (s : String) : List UInt8 :=
  s.toUTF8.data.toList

theorem bytes_eq (s : String) : bytes s = s.toList.flatMap String.utf8EncodeChar := by
  have hdata : s.toUTF8 = s.toList.utf8Encode := String.utf8Encode_toList.symm
  rw [bytes, hdata, List.utf8Encode, List.toList_data_toByteArray]

/-- All bytes of a character but the first hold six bits each. -/
theorem div_lt_or_mod_lt {v w : Nat} (h : v < w) : v / 64 < w / 64 ∨ v / 64 = w / 64 ∧ v % 64 < w % 64 := by
  omega

/-- Whatever follows, the bytes of a smaller character come first. -/
theorem utf8EncodeChar_append_lt {c d : Char} (h : c < d) (x y : List UInt8) :
    String.utf8EncodeChar c ++ x < String.utf8EncodeChar d ++ y := by
  have hlt : c.val.toNat < d.val.toNat := h
  have hmax : d.val.toNat < 1114112 := by
    have hvalid := d.valid
    unfold UInt32.isValidChar Nat.isValidChar at hvalid
    omega
  unfold String.utf8EncodeChar
  dsimp only
  generalize c.val.toNat = v at hlt ⊢
  generalize d.val.toNat = w at hlt hmax ⊢
  split_ifs <;> try omega
  all_goals
    simp only [List.cons_append, List.nil_append, List.cons_lt_cons_iff, UInt8.lt_iff_toNat_lt, ← UInt8.toNat_inj,
      UInt8.toNat_ofNat']
  -- the last case is that both characters have four bytes
  on_goal 10 =>
    have hv : v / 4096 = v / 64 / 64 := by omega
    have hv' : v / 262144 = v / 64 / 64 / 64 := by omega
    have hw : w / 4096 = w / 64 / 64 := by omega
    have hw' : w / 262144 = w / 64 / 64 / 64 := by omega
    rw [hv, hv', hw, hw']
    have hmaxw : w / 64 / 64 / 64 < 8 := by omega
    have hmaxv : v / 64 / 64 / 64 < 8 := by omega
    rcases div_lt_or_mod_lt hlt with h₁ | ⟨h₁, h₁'⟩
    · rcases div_lt_or_mod_lt h₁ with h₂ | ⟨h₂, h₂'⟩
      · rcases div_lt_or_mod_lt h₂ with h₃ | ⟨h₃, h₃'⟩
        · clear * - h₃ hmaxv hmaxw; omega
        · clear * - h₃ h₃' hmaxv hmaxw; omega
      · rw [h₂]; clear * - h₂'; omega
    · rw [h₁]; clear * - h₁'; omega
  all_goals omega

/-- The bytes of a smaller text come first. -/
theorem bytes_lt {a b : String} (h : a < b) : bytes a < bytes b := by
  rw [String.lt_iff_toList_lt] at h
  rw [bytes_eq, bytes_eq]
  generalize a.toList = l at h
  generalize b.toList = m at h
  induction h with
  | nil =>
    rw [List.flatMap_cons, List.flatMap_nil]
    cases hfirst : String.utf8EncodeChar _ with
    | nil => exact absurd hfirst String.utf8EncodeChar_ne_nil
    | cons first rest => exact List.nil_lt_cons _ _
  | cons h ih =>
    rw [List.flatMap_cons, List.flatMap_cons]
    exact List.append_left_lt ih
  | rel h =>
    rw [List.flatMap_cons, List.flatMap_cons]
    exact utf8EncodeChar_append_lt h _ _

end LiveForm
