import Bootbox.Lib.BitField
import Bootbox.Tcg.Emit

/-!
The instruction formats of the interpreter's code: how `tcg_tci_out_op_*` packs operands
into a word and how `tci_args_*` takes them out again.

A word is built by depositing one field after the other, so a field is read back from it
by passing the deposits made after it.
-/

namespace Bootbox.Tcg.Tci

open Lib BitField

abbrev Word := BitVec 32

/-- `TCGOpcode`; there are fewer than 256. -/
abbrev Opcode := BitVec 8

def opCall : Opcode := 2#8
def opBr : Opcode := 3#8
def opAddI64 : Opcode := 78#8
def opExitTb : Opcode := 130#8
def opGotoTb : Opcode := 131#8
def opTciMovi : Opcode := 194#8
def opTciMovl : Opcode := 195#8

/-- `TCGCond`. -/
inductive Cond
  | never | always | eq | ne | lt | ge | le | gt | ltu | geu | leu | gtu
  deriving DecidableEq

def Cond.num : Cond → BitVec 4
  | .never => 0#4
  | .always => 1#4
  | .eq => 8#4
  | .ne => 9#4
  | .lt => 2#4
  | .ge => 3#4
  | .le => 10#4
  | .gt => 11#4
  | .ltu => 4#4
  | .geu => 5#4
  | .leu => 12#4
  | .gtu => 13#4

def ofReg (r : Reg) : Word := BitVec.ofNat 32 r

def ofCond (c : Cond) : Word := c.num.setWidth 32

def ofBit (b : Fin 64) : Word := BitVec.ofNat 32 b

/-! ### Encoding -/

def opWord (op : Opcode) : Word := deposit 0#32 0 8 (op.setWidth 32)

/-- `tcg_tci_out_op_l`, before its relocation. -/
def outOpL (op : Opcode) : Word := opWord op

/-- `tcg_tci_out_op_p`, with the displacement it computes. -/
def outOpP (op : Opcode) (diff : Word) : Word := deposit (opWord op) 12 20 diff

/-- `tcg_tci_out_op_r`. -/
def outOpR (op : Opcode) (r0 : Reg) : Word := deposit (opWord op) 8 4 (ofReg r0)

/-- `tcg_tci_out_op_v`. -/
def outOpV (op : Opcode) : Word := op.setWidth 32

/-- `tcg_tci_out_op_ri`. -/
def outOpRi (op : Opcode) (r0 : Reg) (i1 : Word) : Word := deposit (outOpR op r0) 12 20 i1

/-- `tcg_tci_out_op_rl`, before its relocation. -/
def outOpRl (op : Opcode) (r0 : Reg) : Word := outOpR op r0

/-- `tcg_tci_out_op_rr`. -/
def outOpRr (op : Opcode) (r0 r1 : Reg) : Word := deposit (outOpR op r0) 12 4 (ofReg r1)

/-- `tcg_tci_out_op_rrr`. -/
def outOpRrr (op : Opcode) (r0 r1 r2 : Reg) : Word := deposit (outOpRr op r0 r1) 16 4 (ofReg r2)

/-- `tcg_tci_out_op_rrs`. -/
def outOpRrs (op : Opcode) (r0 r1 : Reg) (i2 : Word) : Word := deposit (outOpRr op r0 r1) 16 16 i2

/-- `tcg_tci_out_op_rrbb`. -/
def outOpRrbb (op : Opcode) (r0 r1 : Reg) (b2 b3 : Fin 64) : Word :=
  deposit (deposit (outOpRr op r0 r1) 16 6 (ofBit b2)) 22 6 (ofBit b3)

/-- `tcg_tci_out_op_rrrc`. -/
def outOpRrrc (op : Opcode) (r0 r1 r2 : Reg) (c3 : Cond) : Word :=
  deposit (outOpRrr op r0 r1 r2) 20 4 (ofCond c3)

/-- `tcg_tci_out_op_rrrbb`. -/
def outOpRrrbb (op : Opcode) (r0 r1 r2 : Reg) (b3 b4 : Fin 64) : Word :=
  deposit (deposit (outOpRrr op r0 r1 r2) 20 6 (ofBit b3)) 26 6 (ofBit b4)

/-- `tcg_tci_out_op_rrrr`. -/
def outOpRrrr (op : Opcode) (r0 r1 r2 r3 : Reg) : Word :=
  deposit (outOpRrr op r0 r1 r2) 20 4 (ofReg r3)

/-- `tcg_tci_out_op_rrrrr`. -/
def outOpRrrrr (op : Opcode) (r0 r1 r2 r3 r4 : Reg) : Word :=
  deposit (outOpRrrr op r0 r1 r2 r3) 24 4 (ofReg r4)

/-- `tcg_tci_out_op_rrrrrc`. -/
def outOpRrrrrc (op : Opcode) (r0 r1 r2 r3 r4 : Reg) (c5 : Cond) : Word :=
  deposit (outOpRrrrr op r0 r1 r2 r3 r4) 28 4 (ofCond c5)

/-- `tcg_tci_out_op_rrrrrr`. -/
def outOpRrrrrr (op : Opcode) (r0 r1 r2 r3 r4 r5 : Reg) : Word :=
  deposit (outOpRrrrr op r0 r1 r2 r3 r4) 28 4 (ofReg r5)

/-- `tcg_tci_out_call` and `tcg_tci_out_qemu_ldst` before their relocations: the length of
the result, or nothing, beside the opcode. -/
def outOpN (op : Opcode) (n : Fin 16) : Word := deposit (opWord op) 8 4 (BitVec.ofNat 32 n)

/-! ### Decoding -/

def opcodeOf (insn : Word) : Word := extract insn 0 8

def relative (insn tbPtr : Word) : Word := tbPtr + sextract insn 12 20

/-- `tci_args_l`: displacement 0 stands for the null pointer. -/
def tciArgsL (insn tbPtr : Word) : Word :=
  if sextract insn 12 20 = 0 then 0#32 else relative insn tbPtr

def tciArgsBr (insn tbPtr : Word) : Word := relative insn tbPtr

def tciArgsR (insn : Word) : Word := extract insn 8 4

def tciArgsNl (insn tbPtr : Word) : Word × Word := (extract insn 8 4, relative insn tbPtr)

def tciArgsRl (insn tbPtr : Word) : Word × Word := (extract insn 8 4, relative insn tbPtr)

def tciArgsRr (insn : Word) : Word × Word := (extract insn 8 4, extract insn 12 4)

def tciArgsRi (insn : Word) : Word × BitVec 64 :=
  (extract insn 8 4, (sextract insn 12 20).signExtend 64)

def tciArgsRrr (insn : Word) : Word × Word × Word :=
  (extract insn 8 4, extract insn 12 4, extract insn 16 4)

def tciArgsRrs (insn : Word) : Word × Word × Word :=
  (extract insn 8 4, extract insn 12 4, sextract insn 16 16)

def tciArgsRrbb (insn : Word) : Word × Word × Word × Word :=
  (extract insn 8 4, extract insn 12 4, extract insn 16 6, extract insn 22 6)

/-- `tci_args_rrrc` and `tci_args_rrrr`. -/
def tciArgsRrrr (insn : Word) : Word × Word × Word × Word :=
  (extract insn 8 4, extract insn 12 4, extract insn 16 4, extract insn 20 4)

def tciArgsRrrbb (insn : Word) : Word × Word × Word × Word × Word :=
  (extract insn 8 4, extract insn 12 4, extract insn 16 4, extract insn 20 6, extract insn 26 6)

def tciArgsRrrrr (insn : Word) : Word × Word × Word × Word × Word :=
  (extract insn 8 4, extract insn 12 4, extract insn 16 4, extract insn 20 4, extract insn 24 4)

/-- `tci_args_rrrrrc` and `tci_args_rrrrrr`. -/
def tciArgsRrrrrr (insn : Word) : Word × Word × Word × Word × Word × Word :=
  (extract insn 8 4, extract insn 12 4, extract insn 16 4, extract insn 20 4, extract insn 24 4,
    extract insn 28 4)

/-! ### Reading fields back -/

@[simp] theorem extract_ofReg (r : Reg) : extract (ofReg r) 0 4 = ofReg r := by
  refine extract_zero_of_lt (by decide) ?_
  have := r.isLt
  simp only [ofReg, BitVec.toNat_ofNat]
  omega

@[simp] theorem extract_ofCond (c : Cond) : extract (ofCond c) 0 4 = ofCond c := by
  refine extract_zero_of_lt (by decide) ?_
  have := c.num.isLt
  simp only [ofCond, BitVec.toNat_setWidth]
  omega

@[simp] theorem extract_ofBit (b : Fin 64) : extract (ofBit b) 0 6 = ofBit b := by
  refine extract_zero_of_lt (by decide) ?_
  have := b.isLt
  simp only [ofBit, BitVec.toNat_ofNat]
  omega

theorem extract_op (op : Opcode) : extract (op.setWidth 32) 0 8 = op.setWidth 32 := by
  refine extract_zero_of_lt (by decide) ?_
  have := op.isLt
  simp only [BitVec.toNat_setWidth]
  omega

def Fits (len : ℕ) (v : Word) : Prop := sextract v 0 len = v

instance (len : ℕ) (v : Word) : Decidable (Fits len v) := inferInstanceAs (Decidable (_ = _))

/-! The two kinds of rewriting, a field put last and a field put before, are all there is to
a read-back in any format; the side conditions are about fixed positions. -/

section Formats

variable (op : Opcode) (r0 r1 r2 : Reg) (n : Fin 16)

theorem opcodeOf_opWord : opcodeOf (opWord op) = op.setWidth 32 := by
  rw [opcodeOf, opWord, extract_deposit_self (by decide), extract_op]

theorem opcodeOf_deposit {w f : Word} {start len : ℕ} (hs : 8 ≤ start) (h : start + len ≤ 32) :
    opcodeOf (deposit w start len f) = opcodeOf w :=
  extract_deposit_of_disjoint (by decide) h (by omega)

theorem opcodeOf_outOpR : opcodeOf (outOpR op r0) = op.setWidth 32 := by
  rw [outOpR, opcodeOf_deposit (by decide) (by decide), opcodeOf_opWord]

theorem opcodeOf_outOpRr : opcodeOf (outOpRr op r0 r1) = op.setWidth 32 := by
  rw [outOpRr, opcodeOf_deposit (by decide) (by decide), opcodeOf_outOpR]

theorem opcodeOf_outOpRrr : opcodeOf (outOpRrr op r0 r1 r2) = op.setWidth 32 := by
  rw [outOpRrr, opcodeOf_deposit (by decide) (by decide), opcodeOf_outOpRr]

theorem opcodeOf_outOpN : opcodeOf (outOpN op n) = op.setWidth 32 := by
  rw [outOpN, opcodeOf_deposit (by decide) (by decide), opcodeOf_opWord]

theorem tciArgsR_outOpR : tciArgsR (outOpR op r0) = ofReg r0 := by
  rw [tciArgsR, outOpR, extract_deposit_self (by decide), extract_ofReg]

theorem tciArgsRrr_outOpRrr :
    tciArgsRrr (outOpRrr op r0 r1 r2) = (ofReg r0, ofReg r1, ofReg r2) := by
  simp (disch := decide) [tciArgsRrr, outOpRrr, outOpRr, outOpR]

variable {v : Word}

theorem tciArgsRi_outOpRi (h : Fits 20 v) :
    tciArgsRi (outOpRi op r0 v) = (ofReg r0, v.signExtend 64) := by
  rw [tciArgsRi, outOpRi, sextract_deposit_self (by decide) (by decide), h,
    extract_deposit_of_disjoint (by decide) (by decide) (by decide), outOpR,
    extract_deposit_self (by decide), extract_ofReg]

theorem tciArgsRrs_outOpRrs (h : Fits 16 v) :
    tciArgsRrs (outOpRrs op r0 r1 v) = (ofReg r0, ofReg r1, v) := by
  rw [tciArgsRrs, outOpRrs, sextract_deposit_self (by decide) (by decide), h]
  simp (disch := decide) [outOpRr, outOpR]

/-- A displacement put into the upper twenty bits, by `tcg_tci_out_op_p` or by
`patch_reloc`, leads to its target. -/
theorem relative_deposit {w target tbPtr : Word} (h : Fits 20 (target - tbPtr)) :
    relative (deposit w 12 20 (target - tbPtr)) tbPtr = target := by
  rw [relative, sextract_deposit_self (by decide) (by decide), h, BitVec.add_comm,
    BitVec.sub_add_cancel]

theorem tciArgsL_deposit {w target tbPtr : Word} (h : Fits 20 (target - tbPtr))
    (hne : target ≠ tbPtr) : tciArgsL (deposit w 12 20 (target - tbPtr)) tbPtr = target := by
  rw [tciArgsL, sextract_deposit_self (by decide) (by decide), h, if_neg, relative_deposit h]
  intro h0
  exact hne (sub_eq_zero.mp h0)

end Formats

end Bootbox.Tcg.Tci
