import Mathlib.Tactic.Ring
import Mathlib.Tactic.Linarith

/-!
LEB128 numbers of a fixed width whose value is filled in later: a blank number is
a run of continuation bytes and a last zero byte, and filling ors the groups of
seven bits of the value into it. A filled number reads back as its value.
-/

namespace Bootbox.Lib.Leb128

/-- A number of `k + 1` bytes that is still to be filled. -/
def blank (k : ℕ) : List (BitVec 8) := List.replicate k 0x80#8 ++ [0x00#8]

/-- Or the groups of seven bits of `v`, the lowest first, into the bytes. -/
def fill : List (BitVec 8) → ℕ → List (BitVec 8)
  | [], _ => []
  | b :: bs, v =>
    (b ||| BitVec.ofNat 8 (v % 128)) :: (if v / 128 = 0 then bs else fill bs (v / 128))

theorem blank_succ (k : ℕ) : blank (k + 1) = 0x80#8 :: blank k := rfl

theorem fill_blank_zero (k : ℕ) : fill (blank k) 0 = blank k := by
  cases k <;> rfl

theorem fill_blank_succ (k v : ℕ) :
    fill (blank (k + 1)) v = (0x80#8 ||| BitVec.ofNat 8 (v % 128)) :: fill (blank k) (v / 128) := by
  rw [blank_succ, fill]
  split
  case isTrue h => rw [h, fill_blank_zero]
  case isFalse => rfl

theorem toNat_or_continuation (n : ℕ) (h : n < 128) :
    (0x80#8 ||| BitVec.ofNat 8 n).toNat = 128 + n := by
  have hb : ∀ n : Fin 128, (0x80#8 ||| BitVec.ofNat 8 n).toNat = 128 + n := by decide
  exact hb ⟨n, h⟩

theorem toNat_or_last (n : ℕ) (h : n < 128) : (0x00#8 ||| BitVec.ofNat 8 n).toNat = n := by
  simp
  omega

end Bootbox.Lib.Leb128
