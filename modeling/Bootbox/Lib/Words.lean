import Mathlib.Data.BitVec
import Mathlib.Tactic.IntervalCases

/-!
Machine words at two widths: the rotations, byte swaps and divisions of C, and what
becomes of a shift or a division when its operands are widened first.
-/

namespace Bootbox.Lib.Words

open BitVec

/-! ### Rotations -/

section Rotate

variable {w : ℕ}

/-- Rotation to the left by two shifts, with the count taken modulo the width. -/
def rol (word : BitVec w) (shift : ℕ) : BitVec w :=
  word <<< (shift % w) ||| word >>> ((w - shift % w) % w)

def ror (word : BitVec w) (shift : ℕ) : BitVec w :=
  word >>> (shift % w) ||| word <<< ((w - shift % w) % w)

theorem rotateLeft_eq_rol (hw : 0 < w) (x : BitVec w) (n : ℕ) : x.rotateLeft n = rol x n := by
  rw [rotateLeft_def, rol]
  have := Nat.mod_lt n hw
  rcases Nat.eq_zero_or_pos (n % w) with h | h
  · simp [h, ushiftRight_eq_zero (le_refl w)]
  · rw [Nat.mod_eq_of_lt (by omega : w - n % w < w)]

theorem rotateRight_eq_ror (hw : 0 < w) (x : BitVec w) (n : ℕ) : x.rotateRight n = ror x n := by
  rw [rotateRight_def, ror]
  have := Nat.mod_lt n hw
  rcases Nat.eq_zero_or_pos (n % w) with h | h
  · simp [h, shiftLeft_eq_zero (le_refl w)]
  · rw [Nat.mod_eq_of_lt (by omega : w - n % w < w)]

end Rotate

/-! ### Widened operands -/

section Widen

variable {v w : ℕ}

theorem setWidth_shiftLeft (h : v ≤ w) (x : BitVec w) (n : ℕ) :
    (x <<< n).setWidth v = x.setWidth v <<< n := by
  refine eq_of_getLsbD_eq fun i hi => ?_
  simp only [getLsbD_setWidth, getLsbD_shiftLeft, hi, decide_true, Bool.true_and,
    decide_eq_true (show i < w by omega), decide_eq_true (show i - n < v by omega)]

theorem ushiftRight_setWidth (h : v ≤ w) (x : BitVec v) (n : ℕ) :
    x.setWidth w >>> n = (x >>> n).setWidth w := by
  refine eq_of_toNat_eq ?_
  have hx : x.toNat % 2 ^ w = x.toNat :=
    Nat.mod_eq_of_lt (x.isLt.trans_le (Nat.pow_le_pow_right (by decide) h))
  have hs : (x >>> n).toNat % 2 ^ w = (x >>> n).toNat :=
    Nat.mod_eq_of_lt ((x >>> n).isLt.trans_le (Nat.pow_le_pow_right (by decide) h))
  rw [toNat_ushiftRight, toNat_setWidth, hx, toNat_setWidth, hs, toNat_ushiftRight]

theorem sshiftRight_signExtend (h : v ≤ w) (x : BitVec v) (n : ℕ) :
    (x.signExtend w).sshiftRight n = (x.sshiftRight n).signExtend w := by
  refine eq_of_toInt_eq ?_
  rw [toInt_sshiftRight, toInt_signExtend_of_le h, toInt_signExtend_of_le h, toInt_sshiftRight]

/-- A signed quotient that does not overflow is the quotient of the widened operands. -/
theorem sdiv_signExtend (h : v ≤ w) {a b : BitVec v} (hd : a ≠ intMin v ∨ b ≠ -1#v) :
    (a.signExtend w).sdiv (b.signExtend w) = (a.sdiv b).signExtend w := by
  refine eq_of_toInt_eq ?_
  rw [toInt_sdiv, toInt_signExtend_of_le h, toInt_signExtend_of_le h,
    ← toInt_sdiv_of_ne_or_ne a b hd, ← toInt_signExtend_of_le h, toInt_bmod_cancel]

theorem srem_signExtend (h : v ≤ w) (a b : BitVec v) :
    (a.signExtend w).srem (b.signExtend w) = (a.srem b).signExtend w := by
  refine eq_of_toInt_eq ?_
  rw [toInt_srem, toInt_signExtend_of_le h, toInt_signExtend_of_le h,
    toInt_signExtend_of_le h, toInt_srem]

theorem udiv_setWidth (h : v ≤ w) (a b : BitVec v) :
    a.setWidth w / b.setWidth w = (a / b).setWidth w := by
  refine eq_of_toNat_eq ?_
  rw [toNat_udiv, toNat_setWidth_of_le h, toNat_setWidth_of_le h,
    toNat_setWidth_of_le h, toNat_udiv]

theorem umod_setWidth (h : v ≤ w) (a b : BitVec v) :
    a.setWidth w % b.setWidth w = (a % b).setWidth w := by
  refine eq_of_toNat_eq ?_
  rw [toNat_umod, toNat_setWidth_of_le h, toNat_setWidth_of_le h,
    toNat_setWidth_of_le h, toNat_umod]

theorem signExtend_eq_zero_iff (h : v ≤ w) (x : BitVec v) : x.signExtend w = 0 ↔ x = 0 := by
  rw [← toInt_inj, ← toInt_inj, toInt_signExtend_of_le h]
  simp

theorem setWidth_eq_zero_iff (h : v ≤ w) (x : BitVec v) : x.setWidth w = 0 ↔ x = 0 := by
  rw [← toNat_inj, ← toNat_inj, toNat_setWidth_of_le h]
  simp

theorem and_mask_eq (x : BitVec w) (h : v ≤ w) :
    x &&& BitVec.ofNat w (2 ^ v - 1) = (x.setWidth v).setWidth w := by
  refine BitVec.eq_of_toNat_eq ?_
  have hm : (2 ^ v - 1) % 2 ^ w = 2 ^ v - 1 := Nat.mod_eq_of_lt
    ((Nat.sub_lt (Nat.two_pow_pos v) one_pos).trans_le (Nat.pow_le_pow_right (by decide) h))
  rw [BitVec.toNat_and, BitVec.toNat_ofNat, hm, Nat.and_two_pow_sub_one_eq_mod,
    BitVec.toNat_setWidth_of_le h, BitVec.toNat_setWidth]

/-- A count is masked by a power of two less one: the remainder. -/
theorem toNat_and_mask (x : BitVec w) {k : ℕ} (h : k ≤ w) :
    (x &&& BitVec.ofNat w (2 ^ k - 1)).toNat = x.toNat % 2 ^ k := by
  rw [and_mask_eq x h, BitVec.toNat_setWidth_of_le h, BitVec.toNat_setWidth]

end Widen

/-! ### Divisions of C -/

section Division

variable {w : ℕ}

/-- A signed division of C; where it is undefined there is no value. -/
def cDivision (f : BitVec w → BitVec w → BitVec w) (a b : BitVec w) : Option (BitVec w) :=
  if b = 0 ∨ a = intMin w ∧ b = -1 then none else some (f a b)

def cDivisionU (f : BitVec w → BitVec w → BitVec w) (a b : BitVec w) : Option (BitVec w) :=
  if b = 0 then none else some (f a b)

end Division

/-! ### Byte swaps -/

def bswap16 (x : BitVec 16) : BitVec 16 := x.extractLsb' 0 8 ++ x.extractLsb' 8 8

def bswap32 (x : BitVec 32) : BitVec 32 :=
  x.extractLsb' 0 8 ++ x.extractLsb' 8 8 ++ x.extractLsb' 16 8 ++ x.extractLsb' 24 8

def bswap64 (x : BitVec 64) : BitVec 64 :=
  x.extractLsb' 0 8 ++ x.extractLsb' 8 8 ++ x.extractLsb' 16 8 ++ x.extractLsb' 24 8 ++
    x.extractLsb' 32 8 ++ x.extractLsb' 40 8 ++ x.extractLsb' 48 8 ++ x.extractLsb' 56 8

/-- Halves exchanged, then the bytes of either half moved under masks. -/
theorem bswap64_eq (x : BitVec 64) :
    ((x.rotateRight 32 &&& 0xff000000ff000000#64) >>> 24 |||
        (x.rotateRight 32 &&& 0x00ff000000ff0000#64) >>> 8) |||
      ((x.rotateRight 32 &&& 0x0000ff000000ff00#64) <<< 8 |||
        (x.rotateRight 32 &&& 0x000000ff000000ff#64) <<< 24) = bswap64 x := by
  refine eq_of_getLsbD_eq fun i hi => ?_
  simp only [bswap64, getLsbD_append, getLsbD_extractLsb', getLsbD_or, getLsbD_and,
    getLsbD_ushiftRight, getLsbD_shiftLeft, getLsbD_rotateRight]
  interval_cases i <;> simp

theorem bswap32_eq (x : BitVec 32) :
    (x.rotateRight 16 &&& 0xff00ff00#32) >>> 8 ||| (x.rotateRight 16 &&& 0x00ff00ff#32) <<< 8 =
      bswap32 x := by
  refine eq_of_getLsbD_eq fun i hi => ?_
  simp only [bswap32, getLsbD_append, getLsbD_extractLsb', getLsbD_or, getLsbD_and,
    getLsbD_ushiftRight, getLsbD_shiftLeft, getLsbD_rotateRight]
  interval_cases i <;> simp

/-- The low half of a word swapped, the upper half zero. -/
theorem bswap16_eq (x : BitVec 32) :
    (x.rotateRight 8 &&& 0x000000ff#32) ||| (x.rotateRight 8 &&& 0xff000000#32) >>> 16 =
      (bswap16 (x.setWidth 16)).setWidth 32 := by
  refine eq_of_getLsbD_eq fun i hi => ?_
  simp only [bswap16, getLsbD_append, getLsbD_extractLsb', getLsbD_or, getLsbD_and,
    getLsbD_ushiftRight, getLsbD_setWidth, getLsbD_rotateRight]
  interval_cases i <;> simp

/-- With an arithmetic shift only the low half is the swapped one. -/
theorem bswap16_signed_eq (x : BitVec 32) :
    ((x.rotateRight 8 &&& 0x000000ff#32) |||
      (x.rotateRight 8 &&& 0xff000000#32).sshiftRight 16).setWidth 16 =
      bswap16 (x.setWidth 16) := by
  refine eq_of_getLsbD_eq fun i hi => ?_
  simp only [bswap16, getLsbD_append, getLsbD_extractLsb', getLsbD_or, getLsbD_and,
    getLsbD_sshiftRight, getLsbD_setWidth, getLsbD_rotateRight]
  interval_cases i <;> simp

end Bootbox.Lib.Words
