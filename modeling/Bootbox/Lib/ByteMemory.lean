import Mathlib.Data.List.GetD
import Mathlib.Tactic.Ring

/-!
Byte-addressed memory: ranges, little-endian numbers, and the block operations
of the C library related to the loops they replace.

`copyElems` and `fillElems` go element by element, each reading what the
elements before it have written. `copyElems_eq_memmove` says when that is one
block move, and `fillElems_eq_memset` that a fill is one block store.
-/

namespace Bootbox.Lib.ByteMemory

open List BitVec

abbrev Bytes := ℕ → UInt8

/-- The `n` bytes from `a` on. -/
def load (m : Bytes) (a n : ℕ) : List UInt8 :=
  (range n).map fun i => m (a + i)

/-- Replace the bytes from `a` on. -/
def store (m : Bytes) (a : ℕ) (bs : List UInt8) : Bytes :=
  fun i => if a ≤ i ∧ i < a + bs.length then bs.getD (i - a) 0 else m i

def leNat : List UInt8 → ℕ
  | [] => 0
  | b :: bs => b.toNat + 256 * leNat bs

/-- The low `n` bytes of a number, least significant first. -/
def leBytes : ℕ → ℕ → List UInt8
  | 0, _ => []
  | n + 1, v => UInt8.ofNat (v % 256) :: leBytes n (v / 256)

def word64 (m : Bytes) (a : ℕ) : BitVec 64 := BitVec.ofNat 64 (leNat (load m a 8))

def word32 (m : Bytes) (a : ℕ) : BitVec 32 := BitVec.ofNat 32 (leNat (load m a 4))

/-- The number with `n` bytes of value one. -/
def repunit : ℕ → ℕ
  | 0 => 0
  | n + 1 => 1 + 256 * repunit n

/-- `memmove(d, s, n)`: the source is read before anything is written. -/
def memmove (m : Bytes) (d s n : ℕ) : Bytes := store m d (load m s n)

/-- `memset(d, b, n)`. -/
def memset (m : Bytes) (d : ℕ) (b : UInt8) (n : ℕ) : Bytes := store m d (replicate n b)

/-- Copy `k` elements of `size` bytes in ascending order, one after the other. -/
def copyElems (m : Bytes) (d s size : ℕ) : ℕ → Bytes
  | 0 => m
  | k + 1 =>
    let m := copyElems m d s size k
    store m (d + k * size) (load m (s + k * size) size)

/-- Store `k` copies of one element in ascending order. -/
def fillElems (m : Bytes) (d : ℕ) (bs : List UInt8) : ℕ → Bytes
  | 0 => m
  | k + 1 => store (fillElems m d bs k) (d + k * bs.length) bs

variable {m : Bytes} {a b d s n k size : ℕ}

@[simp] theorem length_load (m : Bytes) (a n : ℕ) : (load m a n).length = n := by
  simp [load]

@[simp] theorem length_leBytes (n v : ℕ) : (leBytes n v).length = n := by
  induction n generalizing v with
  | zero => rfl
  | succ n ih => simp [leBytes, ih]

@[simp] theorem store_nil (m : Bytes) (a : ℕ) : store m a [] = m := by
  funext i
  exact if_neg (by simp only [length_nil]; omega)

theorem load_add (m : Bytes) (a n k : ℕ) :
    load m a (n + k) = load m a n ++ load m (a + n) k := by
  simp only [load, range_add, map_append, map_map]
  congr 1
  refine map_congr_left fun i _ => ?_
  simp only [Function.comp, Nat.add_assoc]

theorem store_append (m : Bytes) (a : ℕ) (xs ys : List UInt8) :
    store (store m a xs) (a + xs.length) ys = store m a (xs ++ ys) := by
  funext i
  simp only [store, length_append, getD_eq_getElem?_getD, getElem?_append]
  by_cases h₁ : a ≤ i ∧ i < a + xs.length
  · rw [if_neg (by omega), if_pos h₁, if_pos (by omega), if_pos (by omega)]
  · by_cases h₂ : a + xs.length ≤ i ∧ i < a + xs.length + ys.length
    · rw [if_pos h₂, if_pos (by omega), if_neg (by omega)]
      congr 2
      omega
    · rw [if_neg h₂, if_neg h₁, if_neg (by omega)]

theorem load_congr {m' : Bytes} (h : ∀ i, a ≤ i → i < a + n → m i = m' i) :
    load m a n = load m' a n := by
  refine map_congr_left fun i hi => ?_
  have := mem_range.mp hi
  exact h (a + i) (by omega) (by omega)

theorem store_of_not_mem {bs : List UInt8} {i : ℕ} (h : i < a ∨ a + bs.length ≤ i) :
    store m a bs i = m i :=
  if_neg (by omega)

theorem load_store_of_disjoint {bs : List UInt8} (h : a + n ≤ d ∨ d + bs.length ≤ a) :
    load (store m d bs) a n = load m a n :=
  load_congr fun _ _ _ => store_of_not_mem (by omega)

theorem load_store_self (m : Bytes) (a : ℕ) (bs : List UInt8) :
    load (store m a bs) a bs.length = bs := by
  refine ext_getElem (length_load ..) fun i h₁ h₂ => ?_
  simp only [load, getElem_map, getElem_range, store]
  rw [if_pos (by omega), Nat.add_sub_cancel_left, getD_eq_getElem _ _ h₂]

/-! ### Little-endian numbers -/

theorem leNat_lt (bs : List UInt8) : leNat bs < 256 ^ bs.length := by
  induction bs with
  | nil => simp [leNat]
  | cons b bs ih =>
    have hb := b.toNat_lt
    simp only [leNat, length_cons, pow_succ]
    omega

theorem leBytes_leNat (bs : List UInt8) : leBytes bs.length (leNat bs) = bs := by
  induction bs with
  | nil => rfl
  | cons b bs ih =>
    have hb := b.toNat_lt
    have hmod : (b.toNat + 256 * leNat bs) % 256 = b.toNat := by omega
    have hdiv : (b.toNat + 256 * leNat bs) / 256 = leNat bs := by omega
    simp only [leNat, length_cons, leBytes, hmod, hdiv, ih, UInt8.ofNat_toNat]

theorem leNat_leBytes (n v : ℕ) : leNat (leBytes n v) = v % 256 ^ n := by
  induction n generalizing v with
  | zero => simp [leBytes, leNat, Nat.mod_one]
  | succ n ih =>
    have hb : (UInt8.ofNat (v % 256)).toNat = v % 256 := by
      rw [UInt8.toNat_ofNat']
      omega
    rw [leBytes, leNat, ih, hb, Nat.pow_succ', Nat.mod_mul]

theorem word64_store (m : Bytes) (a : ℕ) (v : BitVec 64) :
    word64 (store m a (leBytes 8 v.toNat)) a = v := by
  have hload := load_store_self m a (leBytes 8 v.toNat)
  rw [length_leBytes] at hload
  have hlt : v.toNat < 256 ^ 8 := v.isLt
  rw [word64, hload, leNat_leBytes, Nat.mod_eq_of_lt hlt, BitVec.ofNat_toNat, BitVec.setWidth_eq]

theorem word64_store_of_disjoint (m : Bytes) {a d : ℕ} (v : BitVec 64)
    (h : a + 8 ≤ d ∨ d + 8 ≤ a) : word64 (store m d (leBytes 8 v.toNat)) a = word64 m a := by
  rw [word64, word64, load_store_of_disjoint (by rwa [length_leBytes])]

theorem word32_store (m : Bytes) (a : ℕ) (v : BitVec 32) :
    word32 (store m a (leBytes 4 v.toNat)) a = v := by
  have hload := load_store_self m a (leBytes 4 v.toNat)
  rw [length_leBytes] at hload
  have hlt : v.toNat < 256 ^ 4 := v.isLt
  rw [word32, hload, leNat_leBytes, Nat.mod_eq_of_lt hlt, BitVec.ofNat_toNat, BitVec.setWidth_eq]

theorem word32_congr {m m' : Bytes} {a : ℕ} (h : ∀ i, a ≤ i → i < a + 4 → m i = m' i) :
    word32 m a = word32 m' a := by
  rw [word32, word32, load_congr h]

theorem leBytes_mod (n v : ℕ) : leBytes n (v % 256 ^ n) = leBytes n v := by
  induction n generalizing v with
  | zero => rfl
  | succ n ih =>
    have hmod : v % 256 ^ (n + 1) % 256 = v % 256 :=
      Nat.mod_mod_of_dvd v (Dvd.intro_left (256 ^ n) (pow_succ 256 n).symm)
    have hdiv : v % 256 ^ (n + 1) / 256 = v / 256 % 256 ^ n := by
      rw [pow_succ, mul_comm, Nat.mod_mul_right_div_self]
    simp only [leBytes, hmod, hdiv, ih]

theorem leBytes_mul_repunit {v : ℕ} (hv : v < 256) (h : n ≤ k) :
    leBytes n (v * repunit k) = List.replicate n (UInt8.ofNat v) := by
  induction n generalizing k with
  | zero => rfl
  | succ n ih =>
    obtain ⟨k, rfl⟩ : ∃ l, k = l + 1 := ⟨k - 1, by omega⟩
    have hsplit : v * repunit (k + 1) = v + 256 * (v * repunit k) := by
      rw [repunit]
      ring
    rw [hsplit, leBytes, Nat.add_mul_mod_self_left, Nat.mod_eq_of_lt hv,
      Nat.add_mul_div_left _ _ (by omega), Nat.div_eq_of_lt hv, Nat.zero_add, ih (by omega),
      List.replicate_succ]

/-! ### Loops and blocks -/

/-- Copying upwards is a block move when the destination does not start inside
the rest of the source. -/
theorem copyElems_eq_memmove (h : d ≤ s ∨ s + k * size ≤ d) :
    copyElems m d s size k = memmove m d s (k * size) := by
  induction k with
  | zero => simp [copyElems, memmove, load]
  | succ k ih =>
    rw [Nat.succ_mul] at h ⊢
    have hread : load (store m d (load m s (k * size))) (s + k * size) size =
        load m (s + k * size) size := by
      refine load_store_of_disjoint ?_
      rw [length_load]
      omega
    have happend := store_append m d (load m s (k * size)) (load m (s + k * size) size)
    rw [length_load] at happend
    rw [copyElems, ih (by omega), memmove, hread, happend, memmove, load_add]

theorem fillElems_eq_memset (m : Bytes) (d : ℕ) (b : UInt8) (size k : ℕ) :
    fillElems m d (replicate size b) k = memset m d b (k * size) := by
  induction k with
  | zero => simp [fillElems, memset]
  | succ k ih =>
    have happend :=
      store_append m d (replicate (k * size) b) (replicate size b)
    rw [length_replicate] at happend
    rw [fillElems, ih, memset, length_replicate, happend, memset, Nat.succ_mul,
      replicate_append_replicate]

end Bootbox.Lib.ByteMemory
