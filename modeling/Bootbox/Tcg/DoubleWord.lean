import Bootbox.Tcg.Emit
import Mathlib.Data.BitVec
import Mathlib.Tactic.LinearCombination

/-!
The double-word 32-bit operations `add2_i32`, `sub2_i32`, `mulu2_i32` and
`muls2_i32`. The interpreter computes them on the low words of its registers.
The generated code works on whole 64-bit registers, and takes the carry from a
64-bit comparison and the high product word from a 64-bit product, so what it
leaves depends on the upper halves. `doubleWord_agrees_iff` says exactly when
the two agree.
-/

namespace Bootbox.Tcg

open Lib Wasm

inductive DoubleWordOp
  | add2 (retl reth al ah bl bh : Reg)
  | sub2 (retl reth al ah bl bh : Reg)
  | mulu2 (retl reth arg1 arg2 : Reg)
  | muls2 (retl reth arg1 arg2 : Reg)

def DoubleWordOp.retl : DoubleWordOp → Reg
  | .add2 retl .. | .sub2 retl .. | .mulu2 retl .. | .muls2 retl .. => retl

def DoubleWordOp.reth : DoubleWordOp → Reg
  | .add2 _ reth .. | .sub2 _ reth .. | .mulu2 _ reth .. | .muls2 _ reth .. => reth

/-! ### The interpreter -/

def tciUint64 (high low : BitVec 32) : BitVec 64 := high.setWidth 64 <<< 32 + low.setWidth 64

/-- `tci_write_reg64`: the low word first. -/
def tciWriteReg64 (regs : RegFile) (highIndex lowIndex : Reg) (value : BitVec 64) : RegFile :=
  Function.update (Function.update regs lowIndex ((lo value).setWidth 64)) highIndex (value >>> 32)

def tciDoubleWordValue (regs : RegFile) : DoubleWordOp → BitVec 64
  | .add2 _ _ r2 r3 r4 r5 =>
    tciUint64 (lo (regs r3)) (lo (regs r2)) + tciUint64 (lo (regs r5)) (lo (regs r4))
  | .sub2 _ _ r2 r3 r4 r5 =>
    tciUint64 (lo (regs r3)) (lo (regs r2)) - tciUint64 (lo (regs r5)) (lo (regs r4))
  | .mulu2 _ _ r2 r3 => (lo (regs r2)).setWidth 64 * (lo (regs r3)).setWidth 64
  | .muls2 _ _ r2 r3 => (lo (regs r2)).signExtend 64 * (lo (regs r3)).signExtend 64

def tciDoubleWord (op : DoubleWordOp) (regs : RegFile) : RegFile :=
  tciWriteReg64 regs op.reth op.retl (tciDoubleWordValue regs op)

/-! ### The generated code -/

variable {φ : Type}

def tcgWasmOutAdd2 (retl reth al ah bl bh : Reg) : List (WInstr φ) :=
  [getR ah, getR bh, .bin64 .add, getR al, getR bl, .bin64 .add] ++
  (if al = retl ∧ bl = retl then
    [.set64 (.tmp 0), .get64 (.tmp 0), getR al, .rel64 .ltU, .extendS, .get64 (.tmp 0), setR retl]
  else
    [setR retl, getR retl, if al = retl then getR bl else getR al, .rel64 .ltU, .extendS]) ++
  [.bin64 .add, setR reth]

/-- `tcg_wasm_out_sub2`. Nothing widens the result of the comparison. -/
def tcgWasmOutSub2 (retl reth al ah bl bh : Reg) : List (WInstr φ) :=
  [getR ah, getR bh, .bin64 .sub, getR al, getR bl, .bin64 .sub] ++
  (if al = retl then
    [.set64 (.tmp 0), .get64 (.tmp 0), getR al, .rel64 .gtU, .get64 (.tmp 0), setR retl]
  else
    [setR retl, getR retl, getR al, .rel64 .gtU]) ++
  [.bin64 .sub, setR reth]

def tcgWasmOutMulu2I32 (retl reth arg1 arg2 : Reg) : List (WInstr φ) :=
  [getR arg1, getR arg2, .bin64 .mul] ++ setRAsI64 retl reth

def tcgWasmOutMuls2I32 (retl reth arg1 arg2 : Reg) : List (WInstr φ) :=
  [getR arg1, getR arg2, .bin64 .mul] ++ setRAsI64 retl reth

def wasmDoubleWord : DoubleWordOp → List (WInstr φ)
  | .add2 retl reth al ah bl bh => tcgWasmOutAdd2 retl reth al ah bl bh
  | .sub2 retl reth al ah bl bh => tcgWasmOutSub2 retl reth al ah bl bh
  | .mulu2 retl reth arg1 arg2 => tcgWasmOutMulu2I32 retl reth arg1 arg2
  | .muls2 retl reth arg1 arg2 => tcgWasmOutMuls2I32 retl reth arg1 arg2

/-- The two result registers end with the words the interpreter computes. -/
def DoubleWordAgrees (host : Host φ) (rd : Reading) (op : DoubleWordOp) (st : WState φ) : Prop :=
  ∃ st', (Code.ofList (wasmDoubleWord op)).exec host rd [] st = some (.next [] st') ∧
    lo (regsOf st' op.retl) = lo (tciDoubleWord op (regsOf st) op.retl) ∧
    lo (regsOf st' op.reth) = lo (tciDoubleWord op (regsOf st) op.reth)

/-- When the 64-bit computation gives the 32-bit words. -/
def DoubleWordFits (regs : RegFile) : DoubleWordOp → Prop
  | .add2 _ _ al _ bl _ =>
    2 ^ 64 ≤ (regs al).toNat + (regs bl).toNat ↔
      2 ^ 32 ≤ (lo (regs al)).toNat + (lo (regs bl)).toNat
  | .sub2 _ _ al _ bl _ => regs al < regs bl ↔ lo (regs al) < lo (regs bl)
  | .mulu2 _ _ a b =>
    hi (regs a) * lo (regs b) + lo (regs a) * hi (regs b) = 0
  | .muls2 _ _ a b =>
    (hi (regs a) + (ofBool (lo (regs a)).msb)) * lo (regs b) +
      lo (regs a) * (hi (regs b) + (ofBool (lo (regs b)).msb)) = 0

/-! ### What the generated code leaves -/

def pairWritten (regs : RegFile) (retl reth : Reg) (low high : BitVec 64) : RegFile :=
  Function.update (Function.update regs retl low) reth high

def Leaves (host : Host φ) (rd : Reading) (code : List (WInstr φ)) (st : WState φ)
    (regs : RegFile) : Prop :=
  ∃ st', (Code.ofList code).exec host rd [] st = some (.next [] st') ∧ regsOf st' = regs

/-- Which summand the sum is compared with does not matter. -/
theorem ltU_add_left (a b : BitVec 64) : RelOp.ltU.eval (a + b) b = RelOp.ltU.eval (a + b) a := by
  have := a.isLt
  have := b.isLt
  simp only [RelOp.eval, BitVec.lt_def, BitVec.toNat_add, decide_eq_decide]
  omega

/-- The borrow the generated code reads off the difference is the borrow. -/
theorem gtU_sub (a b : BitVec 64) : RelOp.gtU.eval (a - b) a = decide (a < b) := by
  have := a.isLt
  have := b.isLt
  simp only [RelOp.eval, BitVec.lt_def, BitVec.toNat_sub, decide_eq_decide]
  omega

section Leaves

variable (host : Host φ) (rd : Reading) (retl reth al ah bl bh : Reg) (st : WState φ)

theorem add2_leaves : Leaves host rd (tcgWasmOutAdd2 retl reth al ah bl bh) st
    (pairWritten (regsOf st) retl reth (regsOf st al + regsOf st bl) (regsOf st ah + regsOf st bh +
      (ofBool (RelOp.ltU.eval (regsOf st al + regsOf st bl) (regsOf st al))).signExtend 64)) := by
  by_cases hal : al = retl <;> by_cases hbl : bl = retl <;>
    refine ⟨_, by simp [tcgWasmOutAdd2, hal, hbl, Code.ofList, Code.exec, Instr.exec, getR, setR,
      Value.as64, Value.as32]; rfl, ?_⟩ <;>
    simp [pairWritten, BinOp.eval, hal, hbl, ltU_add_left]

theorem sub2_leaves : Leaves host .numeric (tcgWasmOutSub2 retl reth al ah bl bh) st
    (pairWritten (regsOf st) retl reth (regsOf st al - regsOf st bl) (regsOf st ah - regsOf st bh -
      (ofBool (RelOp.gtU.eval (regsOf st al - regsOf st bl) (regsOf st al))).setWidth 64)) := by
  by_cases hal : al = retl <;>
    refine ⟨_, by simp [tcgWasmOutSub2, hal, Code.ofList, Code.exec, Instr.exec, getR, setR,
      Value.as64]; rfl, ?_⟩ <;>
    simp [pairWritten, BinOp.eval, hal]

/-- A validator finds a 32-bit operand at the last subtraction. -/
theorem sub2_strict :
    (Code.ofList (tcgWasmOutSub2 retl reth al ah bl bh)).exec host .strict [] st = none := by
  by_cases hal : al = retl <;>
    simp [tcgWasmOutSub2, hal, Code.ofList, Code.exec, Instr.exec, getR, setR, Value.as64]

theorem mul_leaves (arg1 arg2 : Reg) :
    Leaves host rd ([getR arg1, getR arg2, .bin64 .mul] ++ setRAsI64 retl reth) st
      (pairWritten (regsOf st) retl reth ((regsOf st arg1 * regsOf st arg2) &&& 0xffffffff#64)
        ((regsOf st arg1 * regsOf st arg2) >>> 32 &&& 0xffffffff#64)) := by
  refine ⟨_, by simp [setRAsI64, Code.ofList, Code.exec, Instr.exec, getR, setR, Value.as64]; rfl,
    ?_⟩
  simp [pairWritten, BinOp.eval]

end Leaves

/-! ### Comparing the words -/

theorem tciWriteReg64_eq (regs : RegFile) (retl reth : Reg) (v : BitVec 64) :
    tciWriteReg64 regs reth retl v =
      pairWritten regs retl reth ((lo v).setWidth 64) (v >>> 32) := rfl

theorem pairWritten_agree_iff {regs : RegFile} {retl reth : Reg} {l l' h h' : BitVec 64}
    (hl : lo l = lo l') :
    (lo (pairWritten regs retl reth l h retl) = lo (pairWritten regs retl reth l' h' retl) ∧
      lo (pairWritten regs retl reth l h reth) = lo (pairWritten regs retl reth l' h' reth)) ↔
      lo h = lo h' := by
  by_cases hr : retl = reth
  · subst hr
    simp [pairWritten]
  · simp [pairWritten, hr, hl]

theorem agrees_iff_of_leaves {host : Host φ} {rd : Reading} {op : DoubleWordOp} {st : WState φ}
    {l h : BitVec 64}
    (hleaves : Leaves host rd (wasmDoubleWord op) st
      (pairWritten (regsOf st) op.retl op.reth l h))
    (hl : lo l = lo (tciDoubleWordValue (regsOf st) op)) :
    DoubleWordAgrees host rd op st ↔ lo h = hi (tciDoubleWordValue (regsOf st) op) := by
  obtain ⟨st', hexec, hregs⟩ := hleaves
  unfold DoubleWordAgrees
  constructor
  · rintro ⟨st'', hexec', hlow, hhigh⟩
    rw [hexec] at hexec'
    cases hexec'
    rw [hregs, tciDoubleWord, tciWriteReg64_eq] at hlow hhigh
    exact (pairWritten_agree_iff (by rw [lo_setWidth, hl])).mp ⟨hlow, hhigh⟩
  · intro hh
    refine ⟨st', hexec, ?_⟩
    rw [hregs, tciDoubleWord, tciWriteReg64_eq]
    exact (pairWritten_agree_iff (by rw [lo_setWidth, hl])).mpr hh

/-! ### The arithmetic of the words -/

theorem toNat_tciUint64 (h l : BitVec 32) :
    (tciUint64 h l).toNat = h.toNat * 2 ^ 32 + l.toNat := by
  have := h.isLt
  have := l.isLt
  simp only [tciUint64, BitVec.toNat_add, BitVec.toNat_shiftLeft, BitVec.toNat_setWidth,
    Nat.shiftLeft_eq]
  omega

theorem signExtend_ofBool (b : Bool) : (ofBool b).signExtend 64 = (ofBool b).setWidth 64 := by
  cases b <;> decide

theorem toNat_setWidth_ofBool (b : Bool) : ((ofBool b).setWidth 64).toNat = b.toNat := by
  cases b <;> decide

theorem add2_high_iff (al ah bl bh : BitVec 64) :
    lo (ah + bh + (ofBool (RelOp.ltU.eval (al + bl) al)).signExtend 64) =
        hi (tciUint64 (lo ah) (lo al) + tciUint64 (lo bh) (lo bl)) ↔
      (2 ^ 64 ≤ al.toNat + bl.toNat ↔ 2 ^ 32 ≤ (lo al).toNat + (lo bl).toNat) := by
  have := al.isLt
  have := bl.isLt
  have hcarry : RelOp.ltU.eval (al + bl) al = decide (2 ^ 64 ≤ al.toNat + bl.toNat) := by
    simp only [RelOp.eval, BitVec.lt_def, BitVec.toNat_add, decide_eq_decide]
    omega
  rw [← BitVec.toNat_inj, hcarry]
  simp only [toNat_lo, toNat_hi, BitVec.toNat_add, signExtend_ofBool, toNat_setWidth_ofBool,
    toNat_tciUint64]
  rcases Decidable.em (2 ^ 64 ≤ al.toNat + bl.toNat) with hc | hc <;>
    simp only [hc, decide_true, decide_false, Bool.toNat_true, Bool.toNat_false, true_iff,
      false_iff] <;>
    omega

theorem sub2_high_iff (al ah bl bh : BitVec 64) :
    lo (ah - bh - (ofBool (RelOp.gtU.eval (al - bl) al)).setWidth 64) =
        hi (tciUint64 (lo ah) (lo al) - tciUint64 (lo bh) (lo bl)) ↔
      (al < bl ↔ lo al < lo bl) := by
  have := al.isLt
  have := bl.isLt
  rw [← BitVec.toNat_inj, gtU_sub]
  simp only [toNat_lo, toNat_hi, BitVec.toNat_sub, toNat_setWidth_ofBool, toNat_tciUint64,
    BitVec.lt_def]
  rcases Decidable.em (al.toNat < bl.toNat) with hc | hc <;>
    simp only [hc, decide_true, decide_false, Bool.toNat_true, Bool.toNat_false, true_iff,
      false_iff] <;>
    omega

theorem hi_mul (a b : BitVec 64) :
    hi (a * b) = hi ((lo a).setWidth 64 * (lo b).setWidth 64) +
      (hi a * lo b + lo a * hi b) := by
  have hya := Nat.mod_lt a.toNat (show 0 < 2 ^ 32 by decide)
  have hyb := Nat.mod_lt b.toNat (show 0 < 2 ^ 32 by decide)
  have hprod : a.toNat * b.toNat =
      a.toNat / 2 ^ 32 * (b.toNat / 2 ^ 32) * 2 ^ 64 +
        (a.toNat / 2 ^ 32 * (b.toNat % 2 ^ 32) + a.toNat % 2 ^ 32 * (b.toNat / 2 ^ 32)) * 2 ^ 32 +
        a.toNat % 2 ^ 32 * (b.toNat % 2 ^ 32) := by
    conv_lhs => rw [← Nat.div_add_mod a.toNat (2 ^ 32), ← Nat.div_add_mod b.toNat (2 ^ 32)]
    ring
  have hlow : a.toNat % 2 ^ 32 * (b.toNat % 2 ^ 32) < 2 ^ 64 := by
    calc a.toNat % 2 ^ 32 * (b.toNat % 2 ^ 32) < 2 ^ 32 * 2 ^ 32 := Nat.mul_lt_mul'' hya hyb
      _ = 2 ^ 64 := by norm_num
  have hmod (x : ℕ) : x % 2 ^ 32 % 2 ^ 64 = x % 2 ^ 32 := by omega
  rw [← BitVec.toNat_inj]
  simp only [toNat_hi, toNat_lo, BitVec.toNat_add, BitVec.toNat_mul, BitVec.toNat_setWidth, hmod,
    hprod]
  generalize a.toNat / 2 ^ 32 * (b.toNat / 2 ^ 32) = p
  generalize a.toNat / 2 ^ 32 * (b.toNat % 2 ^ 32) = q
  generalize a.toNat % 2 ^ 32 * (b.toNat / 2 ^ 32) = r
  generalize a.toNat % 2 ^ 32 * (b.toNat % 2 ^ 32) = t at hlow
  omega

theorem lo_mul (a b : BitVec 64) : lo (a * b) = lo a * lo b := by
  rw [← BitVec.toNat_inj]
  simp only [toNat_lo, BitVec.toNat_mul]
  rw [Nat.mod_mod_of_dvd _ (by norm_num), Nat.mul_mod]

theorem hi_signExtend (x : BitVec 32) : hi (x.signExtend 64) = -ofBool x.msb := by
  have := x.isLt
  rw [← BitVec.toNat_inj, toNat_hi, BitVec.toNat_signExtend, BitVec.toNat_setWidth]
  cases x.msb
  · simp only [Bool.false_eq_true, if_false, ofBool, Bool.toNat_false]
    rw [show (-BitVec.ofNat 32 0).toNat = 0 by decide]
    omega
  · simp only [if_true, ofBool, Bool.toNat_true]
    rw [show (-BitVec.ofNat 32 1).toNat = 2 ^ 32 - 1 by decide]
    omega

theorem lo_and_mask (x : BitVec 64) : lo (x &&& 0xffffffff#64) = lo x := by
  have hmask : (0xffffffff#64).setWidth 32 = BitVec.allOnes 32 := by decide
  rw [lo, BitVec.setWidth_and, hmask, BitVec.and_allOnes, lo]

theorem mulu2_high_iff (a b : BitVec 64) :
    lo ((a * b) >>> 32 &&& 0xffffffff#64) = hi ((lo a).setWidth 64 * (lo b).setWidth 64) ↔
      hi a * lo b + lo a * hi b = 0 := by
  rw [lo_and_mask, show lo ((a * b) >>> 32) = hi (a * b) from rfl, hi_mul]
  exact add_eq_left

theorem muls2_high_iff (a b : BitVec 64) :
    lo ((a * b) >>> 32 &&& 0xffffffff#64) = hi ((lo a).signExtend 64 * (lo b).signExtend 64) ↔
      (hi a + ofBool (lo a).msb) * lo b + lo a * (hi b + ofBool (lo b).msb) = 0 := by
  rw [lo_and_mask, show lo ((a * b) >>> 32) = hi (a * b) from rfl, hi_mul,
    hi_mul ((lo a).signExtend 64), lo_signExtend, lo_signExtend, hi_signExtend, hi_signExtend,
    BitVec.add_right_inj]
  constructor
  · intro h
    linear_combination h
  · intro h
    linear_combination h

/-! ### Agreement -/

section Agreement

variable (host : Host φ) (rd : Reading) (retl reth al ah bl bh a b : Reg) (st : WState φ)

theorem add2_agrees_iff : DoubleWordAgrees host rd (.add2 retl reth al ah bl bh) st ↔
    DoubleWordFits (regsOf st) (.add2 retl reth al ah bl bh) := by
  refine (agrees_iff_of_leaves (add2_leaves ..) ?_).trans (add2_high_iff ..)
  rw [← BitVec.toNat_inj]
  simp only [tciDoubleWordValue, toNat_lo, BitVec.toNat_add, toNat_tciUint64]
  omega

theorem sub2_agrees_iff : DoubleWordAgrees host .numeric (.sub2 retl reth al ah bl bh) st ↔
    DoubleWordFits (regsOf st) (.sub2 retl reth al ah bl bh) := by
  refine (agrees_iff_of_leaves (sub2_leaves ..) ?_).trans (sub2_high_iff ..)
  have := (regsOf st al).isLt
  have := (regsOf st bl).isLt
  rw [← BitVec.toNat_inj]
  simp only [tciDoubleWordValue, toNat_lo, BitVec.toNat_sub, toNat_tciUint64]
  omega

theorem mulu2_agrees_iff : DoubleWordAgrees host rd (.mulu2 retl reth a b) st ↔
    DoubleWordFits (regsOf st) (.mulu2 retl reth a b) := by
  refine (agrees_iff_of_leaves (mul_leaves ..) ?_).trans (mulu2_high_iff ..)
  rw [lo_and_mask, tciDoubleWordValue, lo_mul, lo_mul, lo_setWidth, lo_setWidth]

theorem muls2_agrees_iff : DoubleWordAgrees host rd (.muls2 retl reth a b) st ↔
    DoubleWordFits (regsOf st) (.muls2 retl reth a b) := by
  refine (agrees_iff_of_leaves (mul_leaves ..) ?_).trans (muls2_high_iff ..)
  rw [lo_and_mask, tciDoubleWordValue, lo_mul, lo_mul, lo_signExtend, lo_signExtend]

end Agreement

/-- The generated code leaves the interpreter's words exactly when the 64-bit
carries, borrows and products are those of the low words. A validator refuses the
emitted subtraction, whose comparison is never widened. -/
theorem doubleWord_agrees_iff (host : Host φ) (op : DoubleWordOp) (st : WState φ) :
    (DoubleWordAgrees host .numeric op st ↔ DoubleWordFits (regsOf st) op) ∧
      (DoubleWordAgrees host .strict op st ↔
        DoubleWordFits (regsOf st) op ∧
          ∀ retl reth al ah bl bh, op ≠ .sub2 retl reth al ah bl bh) := by
  cases op with
  | add2 retl reth al ah bl bh =>
    exact ⟨add2_agrees_iff .., (add2_agrees_iff ..).trans (by simp)⟩
  | sub2 retl reth al ah bl bh =>
    refine ⟨sub2_agrees_iff .., ?_⟩
    constructor
    · rintro ⟨st', hexec, -⟩
      rw [wasmDoubleWord, sub2_strict] at hexec
      cases hexec
    · rintro ⟨-, hno⟩
      exact absurd rfl (hno retl reth al ah bl bh)
  | mulu2 retl reth a b =>
    exact ⟨mulu2_agrees_iff .., (mulu2_agrees_iff ..).trans (by simp)⟩
  | muls2 retl reth a b =>
    exact ⟨muls2_agrees_iff .., (muls2_agrees_iff ..).trans (by simp)⟩

def noImports : Host Empty where
  arity := nofun
  run := fun _ f => nomatch f

/-- Registers `r2 = 0xffffffff`, `r4 = 1`, all others zero. -/
def carryState : WState Empty where
  v64 x := if x = .reg 2 then 0xffffffff#64 else if x = .reg 4 then 1#64 else 0#64
  v32 _ := 0#32
  mem _ := 0
  size := 0
  calls := []

/-- `add2_i32 r0, r1, r2, r3, r4, r5` loses the carry of `0xffffffff + 1`. -/
theorem add2_loses_carry :
    ¬DoubleWordAgrees noImports .strict (.add2 0 1 2 3 4 5) carryState ∧
      ¬DoubleWordAgrees noImports .numeric (.add2 0 1 2 3 4 5) carryState := by
  rw [add2_agrees_iff, add2_agrees_iff]
  simp only [DoubleWordFits]
  decide

end Bootbox.Tcg
