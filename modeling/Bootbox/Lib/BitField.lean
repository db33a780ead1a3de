import Mathlib.Data.BitVec
import Mathlib.Data.Nat.Bitwise

/-!
Fields of a machine word: putting a field, reading it back unsigned or signed, and what
that does to the other fields. Everything is said bit by bit first.
-/

namespace Bootbox.Lib.BitField

open BitVec

variable {w : ℕ}

variable {start len i : ℕ}

def fieldMask (w start len : ℕ) : BitVec w := (allOnes w >>> (w - len)) <<< start

/-- Replace the `len` bits from `start` on. -/
def deposit (v : BitVec w) (start len : ℕ) (f : BitVec w) : BitVec w :=
  (v &&& ~~~fieldMask w start len) ||| ((f <<< start) &&& fieldMask w start len)

/-- The `len` bits from `start` on, as an unsigned number. -/
def extract (v : BitVec w) (start len : ℕ) : BitVec w :=
  (v >>> start) &&& (allOnes w >>> (w - len))

/-- The `len` bits from `start` on, as a signed number. -/
def sextract (v : BitVec w) (start len : ℕ) : BitVec w :=
  (v <<< (w - len - start)).sshiftRight (w - len)

theorem getLsbD_fieldMask (h : start + len ≤ w) (hi : i < w) :
    (fieldMask w start len).getLsbD i = decide (start ≤ i ∧ i < start + len) := by
  rw [Bool.eq_iff_iff]
  simp only [fieldMask, getLsbD_shiftLeft, getLsbD_ushiftRight, getLsbD_allOnes, Bool.and_eq_true,
    Bool.not_eq_true', decide_eq_true_eq, decide_eq_false_iff_not]
  omega

variable {v f : BitVec w}

theorem getLsbD_deposit (h : start + len ≤ w) (hi : i < w) :
    (deposit v start len f).getLsbD i =
      if start ≤ i ∧ i < start + len then f.getLsbD (i - start) else v.getLsbD i := by
  simp only [deposit, getLsbD_or, getLsbD_and, getLsbD_not,
    getLsbD_shiftLeft, getLsbD_fieldMask h hi]
  split <;> rename_i hs
  · simp [hs, hi]
  · simp [hs, hi]

theorem getLsbD_extract (h : start + len ≤ w) :
    (extract v start len).getLsbD i = (decide (i < len) && v.getLsbD (start + i)) := by
  have hm : (allOnes w >>> (w - len)).getLsbD i = decide (i < len) := by
    rw [Bool.eq_iff_iff]
    simp only [getLsbD_ushiftRight, getLsbD_allOnes, decide_eq_true_eq]
    omega
  rw [extract, getLsbD_and, getLsbD_ushiftRight, hm, Bool.and_comm]

theorem getLsbD_sextract (h : start + len ≤ w) (hl : 0 < len) (hi : i < w) :
    (sextract v start len).getLsbD i = v.getLsbD (start + min i (len - 1)) := by
  have hs : ∀ j, w - len ≤ j → j < w →
      (v <<< (w - len - start)).getLsbD j = v.getLsbD (start + (j - (w - len))) := by
    intro j h₁ h₂
    have hj : j - (w - len - start) = start + (j - (w - len)) := by omega
    have hlt : ¬ j < w - len - start := by omega
    rw [getLsbD_shiftLeft, hj]
    simp [h₂, hlt]
  rw [sextract, getLsbD_sshiftRight, msb_eq_getLsbD_last]
  rw [decide_eq_false (by omega : ¬ w ≤ i), Bool.not_false, Bool.true_and]
  split
  · rw [hs _ (by omega) (by omega)]
    congr 2
    omega
  · rw [hs _ (by omega) (by omega)]
    congr 2
    omega

@[simp] theorem extract_deposit_self (h : start + len ≤ w) :
    extract (deposit v start len f) start len = extract f 0 len := by
  refine eq_of_getLsbD_eq fun i hi => ?_
  rw [getLsbD_extract h, getLsbD_extract (by omega)]
  by_cases hl : i < len
  · rw [getLsbD_deposit h (by omega), if_pos (by omega)]
    congr 2
    omega
  · simp [hl]

@[simp] theorem extract_deposit_of_disjoint {start' len' : ℕ} (h : start + len ≤ w)
    (h' : start' + len' ≤ w)
    (hd : start + len ≤ start' ∨ start' + len' ≤ start) :
    extract (deposit v start' len' f) start len = extract v start len := by
  refine eq_of_getLsbD_eq fun i hi => ?_
  rw [getLsbD_extract h, getLsbD_extract h]
  by_cases hl : i < len
  · rw [getLsbD_deposit h' (by omega), if_neg (by omega)]
  · simp [hl]

theorem sextract_deposit_self (h : start + len ≤ w) (hl : 0 < len) :
    sextract (deposit v start len f) start len = sextract f 0 len := by
  refine eq_of_getLsbD_eq fun i hi => ?_
  rw [getLsbD_sextract h hl hi, getLsbD_sextract (by omega) hl hi,
    getLsbD_deposit h (by omega), if_pos (by omega)]
  congr 2
  omega

theorem sextract_eq_signExtend (h : len ≤ w) (hl : 0 < len) :
    sextract v 0 len = (v.setWidth len).signExtend w := by
  refine eq_of_getLsbD_eq fun i hi => ?_
  rw [getLsbD_sextract (by omega) hl hi, getLsbD_signExtend, msb_eq_getLsbD_last]
  by_cases hlt : i < len
  · simp [hi, hlt, show min i (len - 1) = i by omega]
  · simp [hi, hlt, show min i (len - 1) = len - 1 by omega, show len - 1 < len by omega]

theorem deposit_deposit {f' : BitVec w} (h : start + len ≤ w) :
    deposit (deposit v start len f) start len f' = deposit v start len f' := by
  refine eq_of_getLsbD_eq fun i hi => ?_
  rw [getLsbD_deposit h hi, getLsbD_deposit h hi, getLsbD_deposit h hi]
  split
  · rfl
  · rfl

theorem extract_zero_of_lt (hw : len ≤ w) (h : v.toNat < 2 ^ len) : extract v 0 len = v := by
  refine eq_of_getLsbD_eq fun i hi => ?_
  rw [getLsbD_extract (by omega), Nat.zero_add]
  by_cases hl : i < len
  · simp [hl]
  · have : v.getLsbD i = false := by
      rw [getLsbD, Nat.testBit_lt_two_pow]
      exact h.trans_le (Nat.pow_le_pow_right (by decide) (by omega))
    simp [hl, this]

end Bootbox.Lib.BitField
