import Mathlib.Data.List.Basic

/-!
Reading a fixed sequence in pieces whose sizes are not the reader's to choose: a read
of up to `n` returns at least one item while there are any, and may return fewer than
were asked for. `Reads` is one way of doing so.

`pieces` is the loop that copies a window of the sequence, `flatten_pieces` says what
it copies, however the reads fall.
-/

namespace Bootbox.Lib

open List

variable {α : Type*}

/-- How much a read of up to `n` at a position is granted. -/
structure Reads where
  grant : ℕ → ℕ → ℕ
  grant_pos : ∀ pos n, 0 < n → 0 < grant pos n
  grant_le : ∀ pos n, grant pos n ≤ n

namespace Reads

def full : Reads where
  grant _ n := n
  grant_pos _ _ h := h
  grant_le _ n := Nat.le_refl n

/-- A read of up to `n`. -/
def read (r : Reads) (xs : List α) (pos n : ℕ) : List α := (xs.drop pos).take (r.grant pos n)

variable (r : Reads) (xs : List α)

theorem read_length_le (pos n : ℕ) : (r.read xs pos n).length ≤ n := by
  rw [read, length_take]
  exact Nat.le_trans (Nat.min_le_left _ _) (r.grant_le pos n)

theorem read_eq_nil_iff {pos n : ℕ} (hn : 0 < n) : r.read xs pos n = [] ↔ xs.length ≤ pos := by
  have hpos := r.grant_pos pos n hn
  rw [read, take_eq_nil_iff, drop_eq_nil_iff]
  omega

theorem drop_eq_read_append (pos n : ℕ) :
    xs.drop pos = r.read xs pos n ++ xs.drop (pos + (r.read xs pos n).length) := by
  rw [read, length_take, ← drop_drop]
  conv_lhs => rw [← take_append_drop (r.grant pos n) (xs.drop pos)]
  congr 1
  rcases Nat.le_total (r.grant pos n) (xs.drop pos).length with h | h
  · rw [Nat.min_eq_left h]
  · rw [Nat.min_eq_right h, drop_eq_nil_of_le h, drop_length]

/-- The loop that copies `left` items from a position, at most `chunk` of them at a time, and
stops early at the end of the sequence. -/
def pieces (chunk : ℕ) (pos left : ℕ) : List (List α) :=
  if hleft : left = 0 then []
  else
    let data := r.read xs pos (min chunk left)
    if h : data = [] then []
    else
      have : left - data.length < left := by
        have := length_pos_iff.mpr h
        omega
      data :: pieces chunk (pos + data.length) (left - data.length)
termination_by left
decreasing_by exact this

theorem flatten_pieces {chunk : ℕ} (hchunk : 0 < chunk) (pos left : ℕ) :
    (r.pieces xs chunk pos left).flatten = (xs.drop pos).take left := by
  fun_induction pieces r xs chunk pos left with
  | case1 pos => simp
  | case2 pos left hleft data hdata =>
    have hend : xs.length ≤ pos := (r.read_eq_nil_iff xs (by omega)).mp hdata
    simp [drop_eq_nil_of_le hend]
  | case3 pos left hleft data hdata _ ih =>
    have hle : data.length ≤ left := 
      Nat.le_trans (r.read_length_le xs pos _) (Nat.min_le_right _ _)
    rw [flatten_cons, ih, r.drop_eq_read_append xs pos (min chunk left), take_append,
      take_of_length_le hle]

end Reads

end Bootbox.Lib
