import Bootbox.Tcg.Emit
import Bootbox.Lib.PageMask
import Mathlib.Tactic.IntervalCases

/-!
Guest loads and stores in the interpreter. Both engines look an address up in the
software TLB: the entry that the address selects is compared with the address, its
page and its alignment at once, and on a match the entry's addend turns the guest
address into a host address. `TlbValid` says what the memory system keeps true of
the table; `access_of_hit` is what a match then means.
-/

namespace Bootbox.Tcg

open Lib ByteMemory PageMask BitVec

/-- The size part of a `MemOp`: `MO_8` to `MO_64`. -/
inductive MoSize
  | mo8 | mo16 | mo32 | mo64
  deriving DecidableEq

def MoSize.bits : MoSize → ℕ
  | .mo8 => 0
  | .mo16 => 1
  | .mo32 => 2
  | .mo64 => 3

def MoSize.bytes (s : MoSize) : ℕ := 2 ^ s.bits

/-- The atomicity part of a `MemOp`. -/
inductive MoAtom
  | ifalign | ifalignPair | within16 | within16Pair | subalign | none
  deriving DecidableEq

def MoAtom.code : MoAtom → ℕ
  | .ifalign => 0
  | .ifalignPair => 1
  | .within16 => 2
  | .within16Pair => 3
  | .subalign => 4
  | .none => 5

/-- A `MemOp` without byte swap. -/
structure MemOp where
  size : MoSize
  sign : Bool
  amask : Fin 8
  atom : MoAtom

/-- A `MemOpIdx`: the operation and the MMU index. -/
structure MemOpIdx where
  mop : MemOp
  mmuIdx : Fin 16

/-- `make_memop_idx`: the descriptor as the helpers get it. -/
def MemOpIdx.code (oi : MemOpIdx) : BitVec 32 :=
  BitVec.ofNat 32
    ((oi.mop.size.bits + 8 * oi.mop.sign.toNat + 32 * oi.mop.amask.val +
      256 * oi.mop.atom.code) * 16 + oi.mmuIdx.val)

def getAlignmentBits (mop : MemOp) : ℕ :=
  if mop.amask.val = 0 then 0
  else if mop.amask.val = 7 then mop.size.bits
  else mop.amask.val

/-- The alignment of `atom_and_align_for_opc`, for a host with `MO_ATOM_IFALIGN`
that never issues two operations. -/
def atomAndAlignForOpc (mop : MemOp) : ℕ :=
  let align := getAlignmentBits mop
  match mop.atom with
  | .none | .ifalign | .ifalignPair | .within16Pair => align
  | .within16 | .subalign => max align mop.size.bits

theorem getAlignmentBits_le (mop : MemOp) : getAlignmentBits mop ≤ atomAndAlignForOpc mop := by
  rw [atomAndAlignForOpc]
  cases mop.atom <;> simp

theorem MoSize.bits_le (s : MoSize) : s.bits ≤ 3 := by cases s <;> decide

theorem atomAndAlignForOpc_le (mop : MemOp) : atomAndAlignForOpc mop ≤ 6 := by
  have hsize := mop.size.bits_le
  have halign : getAlignmentBits mop ≤ 6 := by
    rw [getAlignmentBits]
    have := mop.amask.isLt
    split
    · omega
    · split <;> omega
  rw [atomAndAlignForOpc]
  cases mop.atom <;> simp <;> omega

/-- A guest load or store. The backend takes signed loads below 64 bits only, and
no signed stores. -/
structure GuestOp where
  isLd : Bool
  a32 : Bool
  dataReg : Reg
  addrReg : Reg
  oi : MemOpIdx
  sign_ok : oi.mop.sign = true → isLd = true ∧ oi.mop.size ≠ .mo64

/-- The bits of alignment the fast path asks for, and of the size. -/
def GuestOp.a (op : GuestOp) : ℕ := atomAndAlignForOpc op.oi.mop

def GuestOp.s (op : GuestOp) : ℕ := op.oi.mop.size.bits

/-- What the code generator knows of the guest: the page size, and the offset of
each MMU mode's `CPUTLBDescFast` from the CPU state. -/
structure Target where
  pageBits : ℕ
  fastOfs : Fin 16 → BitVec 32
  pageBits_ge : 10 ≤ pageBits
  pageBits_le : pageBits ≤ 31

variable (t : Target) (op : GuestOp)

/-- The offset of the field `mask`, then that of `table`: `uintptr_t` has four
bytes. -/
def maskOfs : BitVec 32 := t.fastOfs op.oi.mmuIdx

def tableOfs : BitVec 32 := t.fastOfs op.oi.mmuIdx + 4#32

def cpuTlbEntryBits : ℕ := 5

/-- The offset of `addr_read` or `addr_write` in an entry. -/
def compareOff : ℕ := if op.isLd then 0 else 8

/-- The offset of `addend`. -/
def addendOff : ℕ := 24

/-! ### The interpreter -/

/-- The constants `tcg_tci_out_qemu_ldst` puts in the pool. -/
def poolWord : ℕ → BitVec 64
  | 0 => BitVec.ofNat 64 op.dataReg.val
  | 1 => BitVec.ofNat 64 op.addrReg.val
  | 2 => op.oi.code.setWidth 64
  | 3 => (BitVec.ofNat 32 (2 ^ op.a - 1)).signExtend 64
  | 4 => (maskOfs t op).signExtend 64
  | 5 => BitVec.ofNat 64 t.pageBits
  | 6 => pageMask 64 t.pageBits
  | _ => (tableOfs t op).signExtend 64

/-- `tlb_load`: the host address of a match, otherwise zero. Pointers have 32 bits,
and the addend is sign-extended. -/
def tlbLoad (m : Bytes) (env : BitVec 32) (taddr : BitVec 64) (sBits : ℕ)
    (data64 : ℕ → BitVec 64) (isLd : Bool) : BitVec 64 :=
  let aMask : BitVec 32 := lo (data64 3)
  let maskOfs : BitVec 32 := lo (data64 4)
  let pageBits : ℕ := (data64 5).toNat
  let pageMask := data64 6
  let tableOfs : BitVec 32 := lo (data64 7)
  let sMask : BitVec 32 := (1#32 <<< sBits) - 1#32
  let tmp0 := taddr >>> (pageBits - cpuTlbEntryBits)
  let tmp2 := word64 m (env + maskOfs).toNat
  let tmp2b := word64 m (env + tableOfs).toNat
  let tmp3 := (tmp0 &&& tmp2) + tmp2b
  let off : BitVec 32 := if isLd then 0#32 else 8#32
  let target := word64 m (lo tmp3 + off).toNat
  let cAddr := if aMask < sMask then taddr + (sMask - aMask).setWidth 64 else taddr
  let compareMask := pageMask ||| aMask.setWidth 64
  if cAddr &&& compareMask = target then
    taddr + (word32 m (lo tmp3 + 24#32).toNat).signExtend 64
  else 0#64

inductive MmuHelper
  | ldub | ldsb | lduw | ldsw | ldul | ldsl | ldq
  | stb | stw | stl | stq
  deriving DecidableEq

/-- The helper an operation calls, by its size and sign. -/
def mmuHelper : MmuHelper :=
  match op.isLd, op.oi.mop.size, op.oi.mop.sign with
  | true, .mo8, false => .ldub
  | true, .mo8, true => .ldsb
  | true, .mo16, false => .lduw
  | true, .mo16, true => .ldsw
  | true, .mo32, false => .ldul
  | true, .mo32, true => .ldsl
  | true, .mo64, _ => .ldq
  | false, .mo8, _ => .stb
  | false, .mo16, _ => .stw
  | false, .mo32, _ => .stl
  | false, .mo64, _ => .stq

/-- The value operand of a store helper: `uint64_t` for 64 bits, else `uint32_t`. -/
def storeOperand (v : BitVec 64) : Wasm.Value :=
  if op.oi.mop.size = .mo64 then .i64 v else .i32 (lo v)

/-- The operands of the helper, less the return address. -/
def helperArgs (env : BitVec 32) (addr data : BitVec 64) : List Wasm.Value :=
  [.i32 env, .i64 addr] ++ (if op.isLd then [] else [storeOperand op data]) ++
    [.i32 op.oi.code]

/-- What a guest access does: touch host memory, or call a helper. -/
inductive Access
  | direct (host : BitVec 32)
  | slow (helper : MmuHelper) (args : List Wasm.Value)
  deriving DecidableEq

/-- The guest address: the low word of the register for a 32-bit guest. -/
def guestAddr (regs : RegFile) : BitVec 64 :=
  if op.a32 then (lo (regs op.addrReg)).setWidth 64 else regs op.addrReg

/-- `tci_qemu_ld` and `tci_qemu_st`, with their opcodes' choice of the address. -/
def tciAccess (regs : RegFile) (m : Bytes) : Access :=
  let env := lo (regs areg0)
  let taddr := guestAddr op regs
  let targetAddr := tlbLoad m env taddr op.s (poolWord t op) op.isLd
  if targetAddr ≠ 0#64 then .direct (lo targetAddr)
  else .slow (mmuHelper op) (helperArgs op env taddr (regs op.dataReg))

/-! ### The table -/

/-- What the memory system keeps true of the entry at index `i`: a comparator is
all ones or the address of a page that belongs there, with flags above the
alignment bits; a page without flags is host memory, and not at address zero. -/
def EntryValid (m : Bytes) (size k i e : ℕ) : Prop :=
  let cmp := word64 m (e + compareOff op)
  let host := (lo cmp + word32 m (e + addendOff)).toNat
  cmp = allOnes 64 ∨
    (cmp.toNat % 2 ^ op.a = 0 ∧ cmp.toNat / 2 ^ t.pageBits % 2 ^ k = i ∧
      (op.a32 = true → cmp.toNat < 2 ^ 32) ∧
      (cmp.toNat % 2 ^ t.pageBits = 0 → 0 < host ∧ host + 2 ^ t.pageBits ≤ size))

/-- The table of the operation's MMU mode in memory. -/
structure Tlb (m : Bytes) (size : ℕ) (env : BitVec 32) where
  desc : ℕ
  table : ℕ
  indexBits : ℕ
  indexBits_pos : 0 < indexBits
  mask_at : (env.toNat : ℤ) + (maskOfs t op).toInt = desc
  table_at : (env.toNat : ℤ) + (tableOfs t op).toInt = (desc + 4 : ℕ)
  desc_le : desc + 12 ≤ size
  size_le : size ≤ 2 ^ 32
  mask_eq : (lo (word64 m desc)).toNat = (2 ^ indexBits - 1) * 2 ^ cpuTlbEntryBits
  table_eq : (lo (word64 m (desc + 4))).toNat = table
  table_le : table + 2 ^ cpuTlbEntryBits * 2 ^ indexBits ≤ size
  entries : ∀ i < 2 ^ indexBits,
    EntryValid t op m size indexBits i (table + 2 ^ cpuTlbEntryBits * i)

variable {t op} {m : Bytes} {size : ℕ} {env : BitVec 32}

def Tlb.index (tlb : Tlb t op m size env) (x : BitVec 64) : ℕ :=
  x.toNat / 2 ^ t.pageBits % 2 ^ tlb.indexBits

def Tlb.entry (tlb : Tlb t op m size env) (x : BitVec 64) : ℕ :=
  tlb.table + 2 ^ cpuTlbEntryBits * tlb.index x

/-- The pointer to the entry, as both engines compute it. -/
def entryPtr (t : Target) (m : Bytes) (desc : ℕ) (x : BitVec 64) : BitVec 32 :=
  lo ((x >>> (t.pageBits - cpuTlbEntryBits) &&& word64 m desc) + word64 m (desc + 4))

theorem Tlb.indexBits_le (tlb : Tlb t op m size env) : tlb.indexBits + cpuTlbEntryBits ≤ 32 := by
  have hle : 2 ^ (cpuTlbEntryBits + tlb.indexBits) ≤ 2 ^ 32 := by
    rw [Nat.pow_add]
    have := tlb.table_le
    have := tlb.size_le
    omega
  have := (Nat.pow_le_pow_iff_right (show 1 < 2 by decide)).mp hle
  omega

theorem Tlb.index_lt (tlb : Tlb t op m size env) (x : BitVec 64) :
    tlb.index x < 2 ^ tlb.indexBits :=
  Nat.mod_lt _ (Nat.two_pow_pos _)

theorem Tlb.entry_le (tlb : Tlb t op m size env) (x : BitVec 64) : tlb.entry x + 32 ≤ size := by
  have hindex := tlb.index_lt x
  have := tlb.table_le
  rw [Tlb.entry]
  rw [cpuTlbEntryBits] at *
  omega

theorem lo_add (x y : BitVec 64) : lo (x + y) = lo x + lo y :=
  setWidth_add x y (by decide)

theorem lo_and (x y : BitVec 64) : lo (x &&& y) = lo x &&& lo y :=
  setWidth_and

/-- The pointer computed is the address of the selected entry: whatever the upper
halves of the two descriptor words hold, it drops out. -/
theorem Tlb.toNat_entryPtr (tlb : Tlb t op m size env) (x : BitVec 64) :
    (entryPtr t m tlb.desc x).toNat = tlb.entry x := by
  have hbits := tlb.indexBits_le
  have hpage := t.pageBits_ge
  have hindex : x.toNat / 2 ^ (t.pageBits - cpuTlbEntryBits) % 2 ^ 32 / 2 ^ cpuTlbEntryBits %
      2 ^ tlb.indexBits = tlb.index x := by
    have hsplit : 2 ^ 32 = 2 ^ cpuTlbEntryBits * 2 ^ (32 - cpuTlbEntryBits) := by decide
    have hpow : 2 ^ (t.pageBits - cpuTlbEntryBits) * 2 ^ cpuTlbEntryBits = 2 ^ t.pageBits := by
      rw [← Nat.pow_add, Nat.sub_add_cancel (by rw [cpuTlbEntryBits]; omega)]
    rw [hsplit, Nat.mod_mul_right_div_self, Nat.div_div_eq_div_mul, hpow,
      Nat.mod_mod_of_dvd _ (Nat.pow_dvd_pow 2 (by omega))]
    rfl
  have hlt : 2 ^ cpuTlbEntryBits * tlb.index x + tlb.table < 2 ^ 32 := by
    have hentry := tlb.entry_le x
    have := tlb.size_le
    rw [Tlb.entry] at hentry
    omega
  rw [entryPtr, lo_add, lo_and, toNat_add, toNat_and, tlb.mask_eq, tlb.table_eq,
    toNat_lo, toNat_ushiftRight, Nat.shiftRight_eq_div_pow, and_index_mask, hindex,
    Nat.mod_eq_of_lt hlt, Tlb.entry, Nat.add_comm]

/-- The comparator and the addend of the selected entry. -/
def Tlb.cmp (tlb : Tlb t op m size env) (x : BitVec 64) : BitVec 64 :=
  word64 m (tlb.entry x + compareOff op)

def Tlb.addend (tlb : Tlb t op m size env) (x : BitVec 64) : BitVec 32 :=
  word32 m (tlb.entry x + addendOff)

def Tlb.Hit (tlb : Tlb t op m size env) (x : BitVec 64) : Prop :=
  comparedAddr x op.a op.s &&& (pageMask 64 t.pageBits ||| alignMask 64 op.a) = tlb.cmp x

instance (tlb : Tlb t op m size env) (x : BitVec 64) : Decidable (tlb.Hit x) :=
  inferInstanceAs (Decidable (_ = _))

/-- An access the fast path may make: the selected entry holds the page of the
address, the address is aligned, and no byte is on another page. -/
structure Tlb.Allows (tlb : Tlb t op m size env) (x : BitVec 64) : Prop where
  page : (tlb.cmp x).toNat = 2 ^ t.pageBits * (x.toNat / 2 ^ t.pageBits)
  aligned : x.toNat % 2 ^ getAlignmentBits op.oi.mop = 0
  one_page : x.toNat % 2 ^ t.pageBits + op.oi.mop.size.bytes ≤ 2 ^ t.pageBits

/-- What a match means. The host address lies in memory, away from zero. -/
theorem Tlb.access_of_hit (tlb : Tlb t op m size env) {x : BitVec 64} (h : tlb.Hit x) :
    tlb.Allows x ∧ (op.a32 = true → x.toNat < 2 ^ 32) ∧
      0 < (lo x + tlb.addend x).toNat ∧
      (lo x + tlb.addend x).toNat + op.oi.mop.size.bytes ≤ size := by
  have ha : op.a ≤ 6 := atomAndAlignForOpc_le _
  have hs : op.s ≤ 3 := MoSize.bits_le _
  have hpage := t.pageBits_ge
  have hpage' := t.pageBits_le
  -- the entry is not empty
  have hvalid : EntryValid t op m size tlb.indexBits (tlb.index x) (tlb.entry x) :=
    tlb.entries _ (tlb.index_lt x)
  rcases hvalid with hempty | ⟨hcmp, hindex, hnarrow, hhost⟩
  · have hempty' : tlb.cmp x = allOnes 64 := hempty
    rw [Tlb.Hit, hempty'] at h
    exact absurd h (and_masks_ne_allOnes _ (by omega) (by omega))
  · change (tlb.cmp x).toNat % 2 ^ op.a = 0 at hcmp
    obtain ⟨haligned, hcmpage, hone⟩ := access_of_match (by omega) (by omega) (by omega)
      tlb.indexBits_pos hcmp hindex h
    have hzero : (tlb.cmp x).toNat % 2 ^ t.pageBits = 0 := by rw [hcmpage, Nat.mul_mod_right]
    obtain ⟨hpos, hfit⟩ := hhost hzero
    -- the address is the page plus an offset, so the host address is the host page plus it
    have hsum : x.toNat = (tlb.cmp x).toNat + x.toNat % 2 ^ t.pageBits := by
      rw [hcmpage, Nat.div_add_mod]
    have hoff := Nat.mod_lt x.toNat (Nat.two_pow_pos t.pageBits)
    have haddr : (lo x + tlb.addend x).toNat =
        (lo (tlb.cmp x) + tlb.addend x).toNat + x.toNat % 2 ^ t.pageBits := by
      have hsize := tlb.size_le
      have hfit' : (lo (tlb.cmp x) + tlb.addend x).toNat + 2 ^ t.pageBits ≤ size := hfit
      rw [toNat_add, toNat_lo] at hfit' ⊢
      rw [toNat_add, toNat_lo]
      omega
    refine ⟨⟨hcmpage, ?_, hone⟩, ?_, ?_, ?_⟩
    · rw [← Nat.mod_mod_of_dvd _ (Nat.pow_dvd_pow 2 (getAlignmentBits_le op.oi.mop))]
      exact (congrArg (· % 2 ^ getAlignmentBits op.oi.mop) haligned).trans (Nat.zero_mod _)
    · intro hwidth
      have := add_le_of_aligned (by omega) hzero (hnarrow hwidth)
      omega
    · have : 0 < (lo (tlb.cmp x) + tlb.addend x).toNat := hpos
      omega
    · have : (lo (tlb.cmp x) + tlb.addend x).toNat + 2 ^ t.pageBits ≤ size := hfit
      have hbytes : op.oi.mop.size.bytes = 2 ^ op.s := rfl
      omega

/-! ### The interpreter's lookup -/

/-- An offset that lands on a field does so in 32-bit pointer arithmetic. -/
theorem toNat_add_ofs {env ofs : BitVec 32} {a : ℕ} (ha : a < 2 ^ 32)
    (h : (env.toNat : ℤ) + ofs.toInt = a) : (env + ofs).toNat = a := by
  rw [toInt_eq_toNat_cond] at h
  rw [toNat_add]
  split at h <;> omega

theorem comparedAddr_eq (x : BitVec 64) {a s : ℕ} (ha : a ≤ 6) (hs : s ≤ 3) :
    (if BitVec.ofNat 32 (2 ^ a - 1) < (1#32 <<< s) - 1#32 then
      x + ((1#32 <<< s) - 1#32 - BitVec.ofNat 32 (2 ^ a - 1)).setWidth 64 else x) =
      comparedAddr x a s := by
  have hlt : BitVec.ofNat 32 (2 ^ a - 1) < (1#32 <<< s) - 1#32 ↔ a < s := by
    interval_cases a <;> interval_cases s <;> decide
  have hdiff : a < s → ((1#32 <<< s) - 1#32 - BitVec.ofNat 32 (2 ^ a - 1)).setWidth 64 =
      BitVec.ofNat 64 (2 ^ s - 2 ^ a) := by
    interval_cases a <;> interval_cases s <;> decide
  rw [comparedAddr]
  by_cases h : a < s
  · rw [if_pos (hlt.mpr h), if_pos h, hdiff h]
  · rw [if_neg (mt hlt.mp h), if_neg h]

theorem setWidth_ofNat_alignMask {a : ℕ} (ha : a ≤ 6) :
    (BitVec.ofNat 32 (2 ^ a - 1)).setWidth 64 = alignMask 64 a := by
  interval_cases a <;> rfl

theorem Tlb.tlbLoad_eq (tlb : Tlb t op m size env) (x : BitVec 64) :
    tlbLoad m env x op.s (poolWord t op) op.isLd =
      if tlb.Hit x then x + (tlb.addend x).signExtend 64 else 0#64 := by
  have ha : op.a ≤ 6 := atomAndAlignForOpc_le _
  have hs : op.s ≤ 3 := MoSize.bits_le _
  have hsize := tlb.size_le
  have hdesc := tlb.desc_le
  have hentry := tlb.entry_le x
  have hpage := t.pageBits_le
  have hmask : (env + maskOfs t op).toNat = tlb.desc := toNat_add_ofs (by omega) tlb.mask_at
  have htable : (env + tableOfs t op).toNat = tlb.desc + 4 :=
    toNat_add_ofs (by omega) tlb.table_at
  have hbits : (BitVec.ofNat 64 t.pageBits).toNat = t.pageBits := by
    rw [BitVec.toNat_ofNat]
    omega
  have hptr := tlb.toNat_entryPtr x
  rw [entryPtr] at hptr
  have hcmp (off : BitVec 32) (hoff : off.toNat ≤ 24) :
      (lo ((x >>> (t.pageBits - cpuTlbEntryBits) &&& word64 m tlb.desc) +
        word64 m (tlb.desc + 4)) + off).toNat = tlb.entry x + off.toNat := by
    rw [BitVec.toNat_add, hptr]
    omega
  have hoff : (if op.isLd then 0#32 else 8#32).toNat = compareOff op := by
    rw [compareOff]
    split <;> rfl
  simp only [tlbLoad, poolWord, lo_signExtend, hmask, htable, hbits,
    comparedAddr_eq x ha hs, setWidth_ofNat_alignMask ha]
  rw [hcmp _ (by split <;> decide), hoff, hcmp 24#32 (by decide)]
  rfl

end Bootbox.Tcg
