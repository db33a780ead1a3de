import Mathlib.Data.List.GetD
import Mathlib.Order.Basic

/-!
The abstract file: a flat array of bytes with a current size. Everything past
the size reads as zero, and that is carried by the type, so a file that grows
shows zeros in the new range without any operation having to say so.

`Step` is what one call may do to such a file, failures included, and `Runs`
closes it under sequences of calls.
-/

namespace Bootbox.Lib

/-- A growable array over `α`, zero past its size. -/
@[ext] structure FlatFile (α : Type*) [Zero α] where
  size : ℕ
  byte : ℕ → α
  beyond : ∀ i, size ≤ i → byte i = 0

namespace FlatFile

variable {α : Type*} [Zero α]

/-- The bytes of `[pos, pos + len)`, clipped to the current size. -/
def read (f : FlatFile α) (pos len : ℕ) : List α :=
  (List.range (min len (f.size - pos))).map fun i => f.byte (pos + i)

/-- Replace `[pos, pos + data.length)`, growing the file if the range ends past its size. -/
def write (f : FlatFile α) (pos : ℕ) (data : List α) : FlatFile α where
  size := max f.size (pos + data.length)
  byte i := if pos ≤ i ∧ i < pos + data.length then data.getD (i - pos) 0 else f.byte i
  beyond i hi := by
    rw [if_neg (by omega)]
    exact f.beyond i (by omega)

/-- Replace the part of `[pos, pos + data.length)` that lies below the current size. -/
def overwrite (f : FlatFile α) (pos : ℕ) (data : List α) : FlatFile α where
  size := f.size
  byte i :=
    if pos ≤ i ∧ i < pos + data.length ∧ i < f.size then data.getD (i - pos) 0 else f.byte i
  beyond i hi := by
    rw [if_neg (by omega)]
    exact f.beyond i hi

/-- Cut or extend the file to `n` bytes. -/
def resize (f : FlatFile α) (n : ℕ) : FlatFile α where
  size := n
  byte i := if i < n then f.byte i else 0
  beyond i hi := if_neg (by omega)

inductive Call (α : Type*)
  | read (pos len : ℕ)
  | write (pos : ℕ) (data : List α)
  | allocate (offset len : ℕ)
  | truncate (size : ℕ)

inductive Reply (α : Type*)
  | bytes (data : List α)
  | count (n : ℕ)
  | done
  | failed
  deriving DecidableEq

/-- One call. A failed read leaves the file alone; a failed write may have
stored a prefix of its data below the size, and has not moved the size. -/
inductive Step : FlatFile α → Call α → Reply α → FlatFile α → Prop
  | read (f : FlatFile α) (pos len : ℕ) : Step f (.read pos len) (.bytes (f.read pos len)) f
  | readFailed (f : FlatFile α) (pos len : ℕ) : Step f (.read pos len) .failed f
  | write (f : FlatFile α) (pos : ℕ) (data : List α) :
      Step f (.write pos data) (.count data.length) (f.write pos data)
  | writeFailed (f : FlatFile α) (pos : ℕ) (data : List α) (k : ℕ) :
      Step f (.write pos data) .failed (f.overwrite pos (data.take k))
  | allocate (f : FlatFile α) (offset len : ℕ) :
      Step f (.allocate offset len) .done (f.resize (max f.size (offset + len)))
  | truncate (f : FlatFile α) (size : ℕ) : Step f (.truncate size) .done (f.resize size)

inductive Runs : FlatFile α → List (Call α) → List (Reply α) → FlatFile α → Prop
  | nil (f : FlatFile α) : Runs f [] [] f
  | cons {f f' f'' : FlatFile α} {c : Call α} {r : Reply α} {cs : List (Call α)}
      {rs : List (Reply α)} (head : Step f c r f') (tail : Runs f' cs rs f'') :
      Runs f (c :: cs) (r :: rs) f''

@[simp] theorem size_write (f : FlatFile α) (pos : ℕ) (data : List α) :
    (f.write pos data).size = max f.size (pos + data.length) := rfl

@[simp] theorem size_overwrite (f : FlatFile α) (pos : ℕ) (data : List α) :
    (f.overwrite pos data).size = f.size := rfl

@[simp] theorem size_resize (f : FlatFile α) (n : ℕ) : (f.resize n).size = n := rfl

end FlatFile

end Bootbox.Lib
