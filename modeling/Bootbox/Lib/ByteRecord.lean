import Bootbox.Lib.ByteMemory
import Mathlib.Data.Nat.Bitwise

/-!
Binary formats as lists of bytes: records of little-endian fields, and readers that
take positions from the data they read.

An access outside the data is a trap, which is `none` here. A reader that checks its
positions first gives a value for every position, `0` outside (`u16?_eq`, `u32?_eq`).
A record is given by the widths and values of its fields; `value_field` finds a field
in it by its number.
-/

namespace Bootbox.Lib.ByteRecord

open ByteMemory List Option

/-! ### Reading -/

def slice? (d : List UInt8) (a b : ℕ) : Option (List UInt8) :=
  if a ≤ b ∧ b ≤ d.length then some ((d.drop a).take (b - a)) else none

def u16? (d : List UInt8) (o : ℕ) : Option ℕ :=
  if o + 2 ≤ d.length then do
    let b₀ ← d[o]?
    let b₁ ← d[o + 1]?
    return b₀.toNat ||| b₁.toNat <<< 8
  else some 0

def u32? (d : List UInt8) (o : ℕ) : Option ℕ :=
  if o + 4 ≤ d.length then do
    let b₀ ← d[o]?
    let b₁ ← d[o + 1]?
    let b₂ ← d[o + 2]?
    let b₃ ← d[o + 3]?
    return b₀.toNat ||| b₁.toNat <<< 8 ||| b₂.toNat <<< 16 ||| b₃.toNat <<< 24
  else some 0

/-- The number in the `n` bytes from a position on. -/
def value (d : List UInt8) (o n : ℕ) : ℕ := leNat ((d.drop o).take n)

def field (d : List UInt8) (o n : ℕ) : ℕ := if o + n ≤ d.length then value d o n else 0

theorem or_shiftLeft {a k : ℕ} (b : ℕ) (h : a < 2 ^ k) : a ||| b <<< k = a + 2 ^ k * b := by
  rw [Nat.or_comm, ← Nat.shiftLeft_add_eq_or_of_lt h, Nat.shiftLeft_eq, Nat.mul_comm, Nat.add_comm]

/-- The top bit of a number is set if it is large. -/
theorem and_two_pow_ne_zero {n k : ℕ} (h : n < 2 ^ (k + 1)) : n &&& 2 ^ k ≠ 0 ↔ 2 ^ k ≤ n := by
  have hpos : 0 < 2 ^ k := Nat.two_pow_pos k
  rw [Nat.and_two_pow, Nat.testBit_eq_decide_div_mod_eq]
  rcases Nat.lt_or_ge n (2 ^ k) with hlt | hge
  · simp [Nat.div_eq_of_lt hlt, hlt]
  · -- below the next power the quotient is one
    have hdiv : n / 2 ^ k = 1 := by
      rw [Nat.div_eq_iff hpos]
      omega
    simp [hdiv, hge]

theorem take_drop_two {d : List UInt8} {o : ℕ} (h : o + 2 ≤ d.length) :
    ∃ b₀ b₁, d[o]? = some b₀ ∧ d[o + 1]? = some b₁ ∧ (d.drop o).take 2 = [b₀, b₁] := by
  refine ⟨d[o], d[o + 1], getElem?_eq_getElem _, getElem?_eq_getElem _, ?_⟩
  rw [drop_eq_getElem_cons (by omega), drop_eq_getElem_cons (by omega)]
  rfl

theorem u16?_eq (d : List UInt8) (o : ℕ) : u16? d o = some (field d o 2) := by
  rw [u16?, field]
  split
  case isTrue h =>
    obtain ⟨b₀, b₁, h₀, h₁, htake⟩ := take_drop_two h
    have hlt : b₀.toNat < 2 ^ 8 := b₀.toNat_lt
    rw [h₀, h₁, value, htake]
    simp only [Option.bind_eq_bind, Option.bind_some, Option.pure_def, leNat, Option.some.injEq]
    rw [or_shiftLeft _ hlt]
    omega
  case isFalse => rfl

theorem u32?_eq (d : List UInt8) (o : ℕ) : u32? d o = some (field d o 4) := by
  rw [u32?, field]
  split
  case isTrue h =>
    obtain ⟨b₀, b₁, h₀, h₁, hlow⟩ := take_drop_two (show o + 2 ≤ d.length by omega)
    obtain ⟨b₂, b₃, h₂, h₃, hhigh⟩ := take_drop_two (show o + 2 + 2 ≤ d.length by omega)
    have htake : (d.drop o).take 4 = [b₀, b₁, b₂, b₃] := by
      rw [show 4 = 2 + 2 from rfl, List.take_add, hlow, List.drop_drop, hhigh]
      rfl
    have hlt₀ : b₀.toNat < 2 ^ 8 := b₀.toNat_lt
    have hlt₁ : b₁.toNat < 2 ^ 8 := b₁.toNat_lt
    have hlt₂ : b₂.toNat < 2 ^ 8 := b₂.toNat_lt
    rw [h₀, h₁, h₂, h₃, value, htake]
    simp only [Option.bind_eq_bind, Option.bind_some, Option.pure_def, leNat, Option.some.injEq]
    rw [or_shiftLeft _ hlt₀, or_shiftLeft _ (show _ < 2 ^ 16 by omega),
      or_shiftLeft _ (show _ < 2 ^ 24 by omega)]
    omega
  case isFalse => rfl

theorem slice?_eq {d : List UInt8} (pre mid rest : List UInt8) {a b : ℕ}
    (hd : d = pre ++ (mid ++ rest))
    (ha : pre.length = a) (hb : a + mid.length = b) : slice? d a b = some mid := by
  subst hd ha hb
  rw [slice?, if_pos, drop_left, Nat.add_sub_cancel_left, take_left]
  simp only [length_append]
  omega

theorem slice?_isSome (d : List UInt8) {a b : ℕ} (hab : a ≤ b) :
    (slice? d a b).isSome ↔ b ≤ d.length := by
  rw [slice?]
  split <;> simp_all

theorem field_append (pre d : List UInt8) (o n : ℕ) :
    field (pre ++ d) (pre.length + o) n = field d o n := by
  rw [field, field, value, value, length_append, ← drop_drop, drop_left]
  congr 1
  apply propext
  omega

/-- What stands at a position, with what is before and after it. -/
theorem exists_append_of_drop {d bs : List UInt8} {p : ℕ} (h : bs <+: d.drop p) (hne : bs ≠ []) :
    ∃ pre rest, d = pre ++ (bs ++ rest) ∧ pre.length = p := by
  obtain ⟨rest, hrest⟩ := h
  have hle : p ≤ d.length := by
    by_contra hlt
    rw [drop_eq_nil_of_le (by omega)] at hrest
    exact hne (append_eq_nil_iff.mp hrest).1
  exact ⟨d.take p, rest, by rw [hrest, take_append_drop], length_take_of_le hle⟩

theorem le_field {d : List UInt8} {o n : ℕ} {b : UInt8} (hb : d[o]? = some b) (hn : 0 < n)
    (h : o + n ≤ d.length) : b.toNat ≤ field d o n := by
  obtain ⟨n, rfl⟩ : ∃ m, n = m + 1 := ⟨n - 1, by omega⟩
  obtain ⟨ho, hget⟩ := List.getElem?_eq_some_iff.mp hb
  rw [field, if_pos h, value, List.drop_eq_getElem_cons ho, hget, List.take_succ_cons, leNat]
  omega

/-! ### Records -/

def encode (fs : List (ℕ × ℕ)) : List UInt8 := fs.flatMap fun f => leBytes f.1 f.2

def width (fs : List (ℕ × ℕ)) : ℕ := (fs.map Prod.fst).sum

@[simp] theorem length_encode (fs : List (ℕ × ℕ)) : (encode fs).length = width fs := by
  induction fs with
  | nil => rfl
  | cons f fs ih =>
    rw [encode, flatMap_cons, length_append, length_leBytes, width, map_cons, sum_cons]
    exact congrArg _ ih

theorem width_map (w : ℕ) (vs : List ℕ) : width (vs.map (w, ·)) = vs.length * w := by
  induction vs with
  | nil => exact (Nat.zero_mul w).symm
  | cons v vs ih =>
    rw [map_cons, width, map_cons, sum_cons, length_cons, Nat.succ_mul, Nat.add_comm]
    exact congrArg (· + w) ih

theorem encode_append (fs gs : List (ℕ × ℕ)) : encode (fs ++ gs) = encode fs ++ encode gs :=
  flatMap_append

theorem field_encode {fs : List (ℕ × ℕ)} {k w v : ℕ} (hk : fs[k]? = some (w, v))
    (hv : v < 256 ^ w) (rest : List UInt8) :
    field (encode fs ++ rest) (width (fs.take k)) w = v := by
  obtain ⟨hlt, hget⟩ := List.getElem?_eq_some_iff.mp hk
  have hsplit : encode fs = encode (fs.take k) ++ (leBytes w v ++ encode (fs.drop (k + 1))) := by
    conv_lhs => rw [← List.take_append_drop k fs, List.drop_eq_getElem_cons hlt, hget]
    rw [encode_append]
    rfl
  rw [hsplit, List.append_assoc, ← length_encode (fs.take k),
    show (encode (fs.take k)).length = (encode (fs.take k)).length + 0 from rfl, field_append,
    field, List.append_assoc, if_pos, value, List.drop_zero, List.take_left' (length_leBytes w v),
    leNat_leBytes, Nat.mod_eq_of_lt hv]
  rw [List.length_append, length_leBytes]
  omega

theorem field_at (k : ℕ) {d pre rest : List UInt8} {fs : List (ℕ × ℕ)} {p w v : ℕ}
    (hd : d = pre ++ (encode fs ++ rest)) (hp : pre.length = p) (hk : fs[k]? = some (w, v))
    (hv : v < 256 ^ w) : field d (p + width (fs.take k)) w = v := by
  rw [hd, ← hp, field_append]
  exact field_encode hk hv rest

end Bootbox.Lib.ByteRecord
