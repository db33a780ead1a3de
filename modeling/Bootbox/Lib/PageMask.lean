import Mathlib.Data.Nat.Bitwise
import Mathlib.Data.BitVec

/-!
Pages and alignment of machine addresses. An address is compared with the page
number and the alignment bits at once, by masking out the bits between them; an
access that is larger than its alignment is compared at its last aligned part.
A match means that the access is aligned and stays in its page.
-/

namespace Bootbox.Lib.PageMask

open BitVec

variable {w : ℕ}

/-- The bits that number the page of `2 ^ p` bytes. -/
def pageMask (w p : ℕ) : BitVec w := allOnes w <<< p

/-- The bits that must be clear in a multiple of `2 ^ a`. -/
def alignMask (w a : ℕ) : BitVec w := BitVec.ofNat w (2 ^ a - 1)

/-- The address compared, for an access of `2 ^ s` bytes. -/
def comparedAddr (x : BitVec w) (a s : ℕ) : BitVec w :=
  if a < s then x + BitVec.ofNat w (2 ^ s - 2 ^ a) else x

theorem testBit_alignMask (a i : ℕ) (h : a ≤ w) :
    (alignMask w a).getLsbD i = decide (i < a) := by
  rw [alignMask, BitVec.getLsbD_ofNat, Nat.testBit_two_pow_sub_one]
  by_cases hi : i < a
  · simp [hi, hi.trans_le h]
  · simp [hi]

theorem toNat_and_masks (x : BitVec w) {a p : ℕ} (hap : a ≤ p) (hpw : p ≤ w) :
    (x &&& (pageMask w p ||| alignMask w a)).toNat =
      2 ^ p * (x.toNat / 2 ^ p) + x.toNat % 2 ^ a := by
  have hlt : x.toNat % 2 ^ a < 2 ^ p :=
    (Nat.mod_lt _ (Nat.two_pow_pos a)).trans_le (Nat.pow_le_pow_right (by omega) hap)
  apply Nat.eq_of_testBit_eq
  intro i
  rw [Nat.testBit_two_pow_mul_add _ hlt, Nat.testBit_mod_two_pow, Nat.testBit_div_two_pow,
    testBit_toNat, getLsbD_and, getLsbD_or, testBit_alignMask a i (hap.trans hpw), pageMask,
    getLsbD_shiftLeft, getLsbD_allOnes, testBit_toNat, testBit_toNat]
  by_cases hip : i < p
  · by_cases hia : i < a
    · simp [hip, hia]
    · simp [hip, hia]
  · have hia : ¬i < a := by omega
    have hsub : i - p + p = i := by omega
    by_cases hiw : i < w
    · have : i - p < w := by omega
      simp [hip, hia, hiw, this, hsub]
    · have : x.getLsbD i = false := getLsbD_of_ge x i (by omega)
      simp [hip, hia, hsub, this]

theorem aligned_of_match {x cmp : BitVec w} {a p : ℕ} (hap : a ≤ p) (hpw : p ≤ w)
    (hcmp : cmp.toNat % 2 ^ a = 0) (h : x &&& (pageMask w p ||| alignMask w a) = cmp) :
    x.toNat % 2 ^ a = 0 ∧ cmp.toNat = 2 ^ p * (x.toNat / 2 ^ p) := by
  have hdvd : 2 ^ a ∣ 2 ^ p * (x.toNat / 2 ^ p) :=
    (Nat.pow_dvd_pow 2 hap).mul_right _
  have hval := toNat_and_masks x hap hpw
  rw [h] at hval
  have hmod : x.toNat % 2 ^ a = 0 := by
    rw [hval, Nat.add_mod, Nat.mod_eq_zero_of_dvd hdvd, Nat.zero_add, Nat.mod_mod,
      Nat.mod_mod] at hcmp
    exact hcmp
  exact ⟨hmod, by rw [hval, hmod, Nat.add_zero]⟩

theorem and_masks_ne_allOnes (x : BitVec w) {a p : ℕ} (hap : a < p) (hpw : p ≤ w) :
    x &&& (pageMask w p ||| alignMask w a) ≠ allOnes w := by
  intro h
  have hbit := congrArg (fun y => y.getLsbD a) h
  have hlt : a < w := by omega
  simp only [getLsbD_and, getLsbD_or, testBit_alignMask a a hlt.le, pageMask,
    getLsbD_shiftLeft, getLsbD_allOnes, Nat.lt_irrefl, hap, hlt, decide_false,
    decide_true, Bool.not_true, Bool.and_false, Bool.false_and, Bool.or_false] at hbit
  cases hbit

/-- A multiple of `2 ^ a` below a larger power of two leaves room for one more. -/
theorem add_le_of_aligned {a p r : ℕ} (hap : a ≤ p) (hr : r % 2 ^ a = 0) (hlt : r < 2 ^ p) :
    r + 2 ^ a ≤ 2 ^ p := by
  obtain ⟨r', rfl⟩ := Nat.dvd_of_mod_eq_zero hr
  obtain ⟨P', hP⟩ := Nat.pow_dvd_pow 2 hap
  rw [hP] at hlt ⊢
  have hlt' : r' < P' := Nat.lt_of_mul_lt_mul_left hlt
  calc 2 ^ a * r' + 2 ^ a = 2 ^ a * (r' + 1) := (Nat.mul_succ _ _).symm
    _ ≤ 2 ^ a * P' := Nat.mul_le_mul_left _ hlt'

theorem no_crossing_of_parity_eq {x d p : ℕ} (hpw : p < w) (hx : x < 2 ^ w) (hd : d < 2 ^ p)
    (h : (x + d) % 2 ^ w / 2 ^ p % 2 = x / 2 ^ p % 2) :
    x % 2 ^ p + d < 2 ^ p ∧ (x + d) % 2 ^ w = x + d := by
  have hpos := Nat.two_pow_pos p
  have hr := Nat.mod_lt x hpos
  have hxqr := Nat.div_add_mod x (2 ^ p)
  obtain ⟨m, hm⟩ : ∃ m, 2 ^ w = 2 ^ p * (2 * m) := by
    refine ⟨2 ^ (w - p - 1), ?_⟩
    rw [← Nat.pow_succ', ← Nat.pow_add]
    congr 1
    omega
  have hq : x / 2 ^ p < 2 * m := Nat.div_lt_of_lt_mul (hm ▸ hx)
  have hdiv : (x + d) / 2 ^ p = x / 2 ^ p + (x % 2 ^ p + d) / 2 ^ p := by
    conv_lhs => rw [← hxqr, Nat.add_assoc, Nat.mul_add_div hpos]
  rw [hm, Nat.mod_mul_right_div_self, Nat.mod_mul_right_mod, hdiv] at h
  have hstay : x % 2 ^ p + d < 2 ^ p := by
    by_contra hcarry
    have hone : (x % 2 ^ p + d) / 2 ^ p = 1 :=
      Nat.div_eq_of_lt_le (by omega) (by omega)
    rw [hone] at h
    omega
  refine ⟨hstay, Nat.mod_eq_of_lt ?_⟩
  calc x + d = 2 ^ p * (x / 2 ^ p) + (x % 2 ^ p + d) := by omega
    _ < 2 ^ p * (x / 2 ^ p) + 2 ^ p := by omega
    _ = 2 ^ p * (x / 2 ^ p + 1) := (Nat.mul_succ _ _).symm
    _ ≤ 2 ^ p * (2 * m) := Nat.mul_le_mul_left _ hq
    _ = 2 ^ w := hm.symm

/-- An access of `2 ^ s` bytes at `x`, matched against the comparator in the table
entry that `x` selects: aligned, on the comparator's page, and not past its end. -/
theorem access_of_match {x cmp : BitVec w} {a s p k : ℕ} (hap : a ≤ p) (hsp : s ≤ p) (hpw : p < w)
    (hk : 0 < k) (hcmp : cmp.toNat % 2 ^ a = 0)
    (hindex : cmp.toNat / 2 ^ p % 2 ^ k = x.toNat / 2 ^ p % 2 ^ k)
    (h : comparedAddr x a s &&& (pageMask w p ||| alignMask w a) = cmp) :
    x.toNat % 2 ^ a = 0 ∧ cmp.toNat = 2 ^ p * (x.toNat / 2 ^ p) ∧
      x.toNat % 2 ^ p + 2 ^ s ≤ 2 ^ p := by
  have hpos := Nat.two_pow_pos p
  obtain ⟨haligned, hpage⟩ := aligned_of_match hap hpw.le hcmp h
  rw [hpage, Nat.mul_div_cancel_left _ hpos] at hindex
  have hparity : (comparedAddr x a s).toNat / 2 ^ p % 2 = x.toNat / 2 ^ p % 2 := by
    have h2 : 2 ∣ 2 ^ k := dvd_pow_self 2 hk.ne'
    rw [← Nat.mod_mod_of_dvd _ h2, hindex, Nat.mod_mod_of_dvd _ h2]
  have hmod (y : ℕ) : y % 2 ^ p % 2 ^ a = y % 2 ^ a := Nat.mod_mod_of_dvd _ (Nat.pow_dvd_pow 2 hap)
  by_cases has : a < s
  · have hpow : 2 ^ a < 2 ^ s := Nat.pow_lt_pow_right (by omega) has
    have hsp' : 2 ^ s ≤ 2 ^ p := Nat.pow_le_pow_right (by omega) hsp
    have hpw' : 2 ^ p < 2 ^ w := Nat.pow_lt_pow_right (by omega) hpw
    have hd : 2 ^ s - 2 ^ a < 2 ^ p := by
      have := Nat.two_pow_pos a
      omega
    have hc : (comparedAddr x a s).toNat = (x.toNat + (2 ^ s - 2 ^ a)) % 2 ^ w := by
      rw [comparedAddr, if_pos has, BitVec.toNat_add, BitVec.toNat_ofNat,
        Nat.mod_eq_of_lt (hd.trans hpw')]
    rw [hc] at hparity haligned hpage
    obtain ⟨hstay, hnowrap⟩ := no_crossing_of_parity_eq hpw x.isLt hd hparity
    rw [hnowrap] at haligned hpage
    have hdvd : 2 ^ a ∣ 2 ^ s - 2 ^ a := Nat.dvd_sub (Nat.pow_dvd_pow 2 has.le) dvd_rfl
    have hx : x.toNat % 2 ^ a = 0 := by
      rw [Nat.add_mod, Nat.mod_eq_zero_of_dvd hdvd, Nat.add_zero, Nat.mod_mod] at haligned
      exact haligned
    have hsame : (x.toNat + (2 ^ s - 2 ^ a)) / 2 ^ p = x.toNat / 2 ^ p := by
      conv_lhs => rw [← Nat.div_add_mod x.toNat (2 ^ p), Nat.add_assoc, Nat.mul_add_div hpos]
      rw [Nat.div_eq_of_lt hstay, Nat.add_zero]
    refine ⟨hx, by rw [hpage, hsame], ?_⟩
    have := add_le_of_aligned hap
      (by rw [Nat.add_mod, hmod, hx, Nat.mod_eq_zero_of_dvd hdvd, Nat.add_zero, Nat.zero_mod]) hstay
    omega
  · have hc : comparedAddr x a s = x := if_neg has
    rw [hc] at haligned hpage
    refine ⟨haligned, hpage, ?_⟩
    have := add_le_of_aligned hap (by rw [hmod, haligned]) (Nat.mod_lt x.toNat hpos)
    have : 2 ^ s ≤ 2 ^ a := Nat.pow_le_pow_right (by omega) (by omega)
    omega

/-- Selecting `k` bits above the lowest `e`, as the index of a table whose entries
have `2 ^ e` bytes. -/
theorem and_index_mask (z k e : ℕ) :
    z &&& (2 ^ k - 1) * 2 ^ e = 2 ^ e * (z / 2 ^ e % 2 ^ k) := by
  apply Nat.eq_of_testBit_eq
  intro i
  rw [Nat.testBit_and, Nat.mul_comm, Nat.testBit_two_pow_mul, Nat.testBit_two_pow_mul,
    Nat.testBit_two_pow_sub_one, Nat.testBit_mod_two_pow, Nat.testBit_div_two_pow]
  by_cases hi : e ≤ i
  · simp [hi, Bool.and_comm]
  · simp [hi]

end Bootbox.Lib.PageMask
