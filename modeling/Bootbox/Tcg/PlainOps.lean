import Bootbox.Lib.Words
import Bootbox.Tcg.DoubleWord
import Bootbox.Tcg.TciFormat

/-!
The ops without control flow: what the interpreter does for each of them, and the wasm
code `tcg_out_op` emits for it.

The registers are 64 bits wide for the 32-bit ops too, and nothing is said about the upper
half of a register that holds a 32-bit value. The interpreter works on the low word where it
matters; the emitted code does so in most places.
-/

namespace Bootbox.Tcg

open Lib Wasm ByteMemory Words
open Tci (Fits)

@[reducible] def IntType.bits : IntType → ℕ
  | .i32 => 32
  | .i64 => 64

/-- A bit field the front end may pass: the full width is a move there. -/
structure Field (w : ℕ) where
  pos : ℕ
  len : ℕ
  pos_len : pos + len ≤ w
  len_pos : 0 < len
  len_lt : len < w

/-- The conditions an op can have; `TCG_COND_NEVER` and `TCG_COND_ALWAYS` are folded before. -/
inductive CmpCond
  | eq | ne | lt | ge | le | gt | ltu | geu | leu | gtu
  deriving DecidableEq

inductive BinOpcode
  | add | sub | mul | and | or | xor
  | andc | orc | eqv | nand | nor
  | shl | shr | sar | rotl | rotr
  | div | divu | rem | remu
  | clz | ctz

inductive UnOpcode
  | neg | not | ctpop | ext8s | ext8u | ext16s | ext16u

inductive ConvOpcode
  | ext32s | ext32u | extI32I64 | extuI32I64 | extrlI64I32

inductive LdOpcode
  | ld8u (type : IntType)
  | ld8s (type : IntType)
  | ld16u (type : IntType)
  | ld16s (type : IntType)
  | ld32u
  | ld32s
  | ld (type : IntType)

inductive StOpcode
  | st8 (type : IntType)
  | st16 (type : IntType)
  | st32
  | st (type : IntType)

/-- The registers of an access: `TCG_REG_TMP` is reserved, and holds a long offset. -/
abbrev OpReg := { r : Reg // r ≠ regTmp }

inductive PlainOp
  | mov (type : IntType) (ret arg : Reg)
  | movi (type : IntType) (ret : Reg) (arg : BitVec 64)
  | bin (op : BinOpcode) (type : IntType) (ret arg1 arg2 : Reg)
  | un (op : UnOpcode) (type : IntType) (ret arg : Reg)
  | conv (op : ConvOpcode) (ret arg : Reg)
  | bswap16 (type : IntType) (os : Bool) (dest src : Reg)
  | bswap32 (type : IntType) (os : Bool) (dest src : Reg)
  | bswap64 (dest src : Reg)
  | setcond (type : IntType) (cond : CmpCond) (ret arg1 arg2 : Reg)
  | movcond (type : IntType) (cond : CmpCond) (ret c1 c2 v1 v2 : Reg)
  | deposit (type : IntType) (f : Field type.bits) (dest arg1 arg2 : Reg)
  | extract (type : IntType) (f : Field type.bits) (dest arg1 : Reg)
  | sextract (type : IntType) (f : Field type.bits) (dest arg1 : Reg)
  | add2 (type : IntType) (retl reth al ah bl bh : Reg)
  | sub2 (type : IntType) (retl reth al ah bl bh : Reg)
  | mulu2I32 (retl reth arg1 arg2 : Reg)
  | muls2I32 (retl reth arg1 arg2 : Reg)
  | ld (op : LdOpcode) (val base : OpReg) (offset : BitVec 32)
  | st (op : StOpcode) (val base : OpReg) (offset : BitVec 32)

def PlainOp.dests : PlainOp → List Reg
  | .mov _ ret _ | .movi _ ret _ | .bin _ _ ret .. | .un _ _ ret _ | .conv _ ret _ => [ret]
  | .bswap16 _ _ dest _ | .bswap32 _ _ dest _ | .bswap64 dest _ => [dest]
  | .setcond _ _ ret .. | .movcond _ _ ret .. => [ret]
  | .deposit _ _ dest .. | .extract _ _ dest _ | .sextract _ _ dest _ => [dest]
  | .add2 _ retl reth .. | .sub2 _ retl reth .. => [retl, reth]
  | .mulu2I32 retl reth .. | .muls2I32 retl reth .. => [retl, reth]
  | .ld _ val .. => [val]
  | .st .. => []

/-! ### The interpreter -/

section Interpreter

/-- `tci_compare32` and `tci_compare64`. -/
def tciCompare {w : ℕ} (u0 u1 : BitVec w) : CmpCond → Bool
  | .eq => u0 = u1
  | .ne => u0 ≠ u1
  | .lt => u0.toInt < u1.toInt
  | .ge => u1.toInt ≤ u0.toInt
  | .le => u0.toInt ≤ u1.toInt
  | .gt => u1.toInt < u0.toInt
  | .ltu => u0.toNat < u1.toNat
  | .geu => u1.toNat ≤ u0.toNat
  | .leu => u0.toNat ≤ u1.toNat
  | .gtu => u1.toNat < u0.toNat

def tciCompareAt (type : IntType) (a b : BitVec 64) (cond : CmpCond) : Bool :=
  match type with
  | .i32 => tciCompare (lo a) (lo b) cond
  | .i64 => tciCompare a b cond

def tciBin (a b : BitVec 64) : BinOpcode → IntType → Option (BitVec 64)
  | .add, _ => some (a + b)
  | .sub, _ => some (a - b)
  | .mul, _ => some (a * b)
  | .and, _ => some (a &&& b)
  | .or, _ => some (a ||| b)
  | .xor, _ => some (a ^^^ b)
  | .andc, _ => some (a &&& ~~~b)
  | .orc, _ => some (a ||| ~~~b)
  | .eqv, _ => some (~~~(a ^^^ b))
  | .nand, _ => some (~~~(a &&& b))
  | .nor, _ => some (~~~(a ||| b))
  | .shl, .i32 => some ((lo a <<< (b &&& 31#64).toNat).setWidth 64)
  | .shl, .i64 => some (a <<< (b &&& 63#64).toNat)
  | .shr, .i32 => some ((lo a >>> (b &&& 31#64).toNat).setWidth 64)
  | .shr, .i64 => some (a >>> (b &&& 63#64).toNat)
  | .sar, .i32 => some (((lo a).sshiftRight (b &&& 31#64).toNat).signExtend 64)
  | .sar, .i64 => some (a.sshiftRight (b &&& 63#64).toNat)
  | .rotl, .i32 => some ((rol (lo a) (b &&& 31#64).toNat).setWidth 64)
  | .rotl, .i64 => some (rol a (b &&& 63#64).toNat)
  | .rotr, .i32 => some ((ror (lo a) (b &&& 31#64).toNat).setWidth 64)
  | .rotr, .i64 => some (ror a (b &&& 63#64).toNat)
  | .div, .i32 => (cDivision BitVec.sdiv (lo a) (lo b)).map (BitVec.signExtend 64)
  | .div, .i64 => cDivision BitVec.sdiv a b
  | .divu, .i32 => (cDivisionU (· / ·) (lo a) (lo b)).map (BitVec.setWidth 64)
  | .divu, .i64 => cDivisionU (· / ·) a b
  | .rem, .i32 => (cDivision BitVec.srem (lo a) (lo b)).map (BitVec.signExtend 64)
  | .rem, .i64 => cDivision BitVec.srem a b
  | .remu, .i32 => (cDivisionU (· % ·) (lo a) (lo b)).map (BitVec.setWidth 64)
  | .remu, .i64 => cDivisionU (· % ·) a b
  | .clz, .i32 => some (if lo a ≠ 0 then (lo a).clz.setWidth 64 else b)
  | .clz, .i64 => some (if a ≠ 0 then a.clz else b)
  | .ctz, .i32 => some (if lo a ≠ 0 then (lo a).ctz.setWidth 64 else b)
  | .ctz, .i64 => some (if a ≠ 0 then a.ctz else b)

def tciUn (a : BitVec 64) : UnOpcode → IntType → BitVec 64
  | .neg, _ => -a
  | .not, _ => ~~~a
  | .ctpop, .i32 => (lo a).cpop.setWidth 64
  | .ctpop, .i64 => a.cpop
  | .ext8s, _ => (a.setWidth 8).signExtend 64
  | .ext8u, _ => (a.setWidth 8).setWidth 64
  | .ext16s, _ => (a.setWidth 16).signExtend 64
  | .ext16u, _ => (a.setWidth 16).setWidth 64

/-- The ops between the widths. `extrl_i64_i32` is a move. -/
def tciConv (a : BitVec 64) : ConvOpcode → BitVec 64
  | .ext32s | .extI32I64 => (lo a).signExtend 64
  | .ext32u | .extuI32I64 => (lo a).setWidth 64
  | .extrlI64I32 => a

/-- `bswap16` and, for a signed result, the `ext16s` emitted behind it. -/
def tciBswap16 (a : BitVec 64) (os : Bool) : BitVec 64 :=
  let v := (Words.bswap16 (a.setWidth 16)).setWidth 64
  if os then tciUn v .ext16s .i64 else v

/-- `bswap32` and, for a signed 64-bit result, the `ext32s` emitted behind it. -/
def tciBswap32 (type : IntType) (a : BitVec 64) (os : Bool) : BitVec 64 :=
  let v := (Words.bswap32 (lo a)).setWidth 64
  match type with
  | .i32 => v
  | .i64 => if os then tciConv v .ext32s else v

/-- `deposit32` and `deposit64`. -/
def tciDeposit (a b : BitVec 64) : (type : IntType) → Field type.bits → BitVec 64
  | .i32, f => (BitField.deposit (lo a) f.pos f.len (lo b)).setWidth 64
  | .i64, f => BitField.deposit a f.pos f.len b

/-- `extract32` and `extract64`. -/
def tciExtract (a : BitVec 64) : (type : IntType) → Field type.bits → BitVec 64
  | .i32, f => (BitField.extract (lo a) f.pos f.len).setWidth 64
  | .i64, f => BitField.extract a f.pos f.len

/-- `sextract32` and `sextract64`. -/
def tciSextract (a : BitVec 64) : (type : IntType) → Field type.bits → BitVec 64
  | .i32, f => (BitField.sextract (lo a) f.pos f.len).signExtend 64
  | .i64, f => BitField.sextract a f.pos f.len

/-- The bytes of a load, and whether its value is signed. -/
def LdOpcode.tci : LdOpcode → ℕ × Bool
  | .ld8u _ => (1, false)
  | .ld8s _ => (1, true)
  | .ld16u _ => (2, false)
  | .ld16s _ => (2, true)
  | .ld32u | .ld .i32 => (4, false)
  | .ld32s => (4, true)
  | .ld .i64 => (8, false)

def StOpcode.bytes : StOpcode → ℕ
  | .st8 _ => 1
  | .st16 _ => 2
  | .st32 | .st .i32 => 4
  | .st .i64 => 8

/-- The registers and the memory of the interpreter. -/
structure TciState where
  regs : RegFile
  mem : Bytes
  size : ℕ

/-- The registers before an access: a long offset is added up in `TCG_REG_TMP` first. -/
def TciState.ldstRegs (s : TciState) (base : Reg) (offset : BitVec 32) : RegFile :=
  if Fits 16 offset then s.regs
  else Function.update s.regs regTmp (offset.signExtend 64 + s.regs base)

/-- The address of an access: a pointer has 32 bits. One that does not lie in memory is no
address. -/
def TciState.address (s : TciState) (base : Reg) (offset : BitVec 32) (n : ℕ) : Option ℕ :=
  let a := (lo (s.regs base + offset.signExtend 64)).toNat
  if a + n ≤ s.size then some a else none

def TciState.set (s : TciState) (r : Reg) (v : BitVec 64) : TciState :=
  { s with regs := Function.update s.regs r v }

def PlainOp.tci (s : TciState) : PlainOp → Option TciState
  | .mov _ ret arg => some (s.set ret (s.regs arg))
  | .movi type ret arg =>
    some (s.set ret (match type with
      | .i32 => (lo arg).signExtend 64
      | .i64 => arg))
  | .bin op type ret arg1 arg2 =>
    (tciBin (s.regs arg1) (s.regs arg2) op type).map (s.set ret)
  | .un op type ret arg => some (s.set ret (tciUn (s.regs arg) op type))
  | .conv op ret arg => some (s.set ret (tciConv (s.regs arg) op))
  | .bswap16 _ os dest src => some (s.set dest (tciBswap16 (s.regs src) os))
  | .bswap32 type os dest src => some (s.set dest (tciBswap32 type (s.regs src) os))
  | .bswap64 dest src => some (s.set dest (Words.bswap64 (s.regs src)))
  | .setcond type cond ret arg1 arg2 =>
    some (s.set ret ((ofBool (tciCompareAt type (s.regs arg1) (s.regs arg2) cond)).setWidth 64))
  | .movcond type cond ret c1 c2 v1 v2 =>
    some (s.set ret
      (s.regs (if tciCompareAt type (s.regs c1) (s.regs c2) cond then v1 else v2)))
  | .deposit type f dest arg1 arg2 =>
    some (s.set dest (tciDeposit (s.regs arg1) (s.regs arg2) type f))
  | .extract type f dest arg1 => some (s.set dest (tciExtract (s.regs arg1) type f))
  | .sextract type f dest arg1 => some (s.set dest (tciSextract (s.regs arg1) type f))
  | .add2 .i32 retl reth al ah bl bh =>
    some { s with regs := tciDoubleWord (.add2 retl reth al ah bl bh) s.regs }
  | .add2 .i64 retl reth al ah bl bh =>
    let t1 := s.regs al + s.regs bl
    let t2 := s.regs ah + s.regs bh + (ofBool (t1 < s.regs al)).setWidth 64
    some ((s.set retl t1).set reth t2)
  | .sub2 .i32 retl reth al ah bl bh =>
    some { s with regs := tciDoubleWord (.sub2 retl reth al ah bl bh) s.regs }
  | .sub2 .i64 retl reth al ah bl bh =>
    let t1 := s.regs al - s.regs bl
    let t2 := s.regs ah - s.regs bh - (ofBool (s.regs al < s.regs bl)).setWidth 64
    some ((s.set retl t1).set reth t2)
  | .mulu2I32 retl reth arg1 arg2 =>
    some { s with regs := tciDoubleWord (.mulu2 retl reth arg1 arg2) s.regs }
  | .muls2I32 retl reth arg1 arg2 =>
    some { s with regs := tciDoubleWord (.muls2 retl reth arg1 arg2) s.regs }
  | .ld op val base offset => do
      let a ← s.address base offset op.tci.1
      let v := extendLoaded op.tci.1 op.tci.2 (leNat (load s.mem a op.tci.1))
      some { s with regs := Function.update (s.ldstRegs base offset) val v }
  | .st op val base offset => do
      let a ← s.address base offset op.bytes
      let regs := s.ldstRegs base offset
      some { s with regs := regs, mem := store s.mem a (leBytes op.bytes (regs val).toNat) }

end Interpreter

/-! ### The generated code -/

section Emission

variable {φ : Type}

def getLowU (r : Reg) : List (WInstr φ) := [getR r, .const64 0xffffffff#64, .bin64 .and]

def getLowS (r : Reg) : List (WInstr φ) := [getR r, .wrap, .extendS]

def tcgWasmOutOpNot : List (WInstr φ) := [.const64 (BitVec.allOnes 64), .bin64 .xor]

/-- `tcg_cond_to_inst`. -/
def CmpCond.inst : CmpCond → RelOp
  | .eq => .eq
  | .ne => .ne
  | .lt => .ltS
  | .ge => .geS
  | .le => .leS
  | .gt => .gtS
  | .ltu => .ltU
  | .geu => .geU
  | .leu => .leU
  | .gtu => .gtU

/-- `tcg_wasm_out_op_cond_i32` and `tcg_wasm_out_op_cond_i64`. -/
def tcgWasmOutOpCond (type : IntType) (cond : CmpCond) (arg1 arg2 : Reg) : List (WInstr φ) :=
  match type with
  | .i32 => [getR arg1, .wrap, getR arg2, .wrap, .rel32 cond.inst]
  | .i64 => [getR arg1, getR arg2, .rel64 cond.inst]

def tcgWasmOutI64Calc (op : BinOp) (ret arg1 arg2 : Reg) : List (WInstr φ) :=
  [getR arg1, getR arg2, .bin64 op, setR ret]

/-- The four divisions: on the low words, extended by `get`, or on whole registers. -/
def divisionCode (get : Reg → List (WInstr φ)) (op : DivOp) (type : IntType)
    (ret arg1 arg2 : Reg) : List (WInstr φ) :=
  match type with
  | .i32 => get arg1 ++ get arg2 ++ [.div64 op, setR ret]
  | .i64 => [getR arg1, getR arg2, .div64 op, setR ret]

def tcgWasmOutRemS : IntType → Reg → Reg → Reg → List (WInstr φ) := divisionCode getLowS .remS

def tcgWasmOutRemU : IntType → Reg → Reg → Reg → List (WInstr φ) := divisionCode getLowU .remU

def tcgWasmOutDivS : IntType → Reg → Reg → Reg → List (WInstr φ) := divisionCode getLowS .divS

def tcgWasmOutDivU : IntType → Reg → Reg → Reg → List (WInstr φ) := divisionCode getLowU .divU

/-- The three shifts: of the low word, extended by `get`, or of the whole register. -/
def shiftCode (get : Reg → List (WInstr φ)) (op : BinOp) (type : IntType)
    (ret arg1 arg2 : Reg) : List (WInstr φ) :=
  match type with
  | .i32 => get arg1 ++ [getR arg2, .const64 31#64, .bin64 .and, .bin64 op, setR ret]
  | .i64 => [getR arg1, getR arg2, .bin64 op, setR ret]

def tcgWasmOutShl : IntType → Reg → Reg → Reg → List (WInstr φ) := shiftCode getLowU .shl

def tcgWasmOutShrU : IntType → Reg → Reg → Reg → List (WInstr φ) := shiftCode getLowU .shrU

def tcgWasmOutShrS : IntType → Reg → Reg → Reg → List (WInstr φ) := shiftCode getLowS .shrS

/-- `tcg_wasm_out_i32_rotl` and `tcg_wasm_out_i32_rotr`. -/
def tcgWasmOutI32Rot (op : BinOp) (ret arg1 arg2 : Reg) : List (WInstr φ) :=
  [getR arg1, .wrap, getR arg2, .wrap, .bin32 op, .extendS, setR ret]

/-- `tcg_wasm_out_clz64` and `tcg_wasm_out_ctz64`. -/
def tcgWasmOutCount64 (op : UnOp) (ret arg1 arg2 : Reg) : WCode φ :=
  .cons (getR arg1) (.cons .eqz64
    (.iteRet .i64 (.ofList [getR arg2]) (.ofList [getR arg1, .un64 op])
      (.ofList [setR ret])))

/-- `tcg_wasm_out_clz32` and `tcg_wasm_out_ctz32`. The test is on the whole register. -/
def tcgWasmOutCount32 (op : UnOp) (ret arg1 arg2 : Reg) : WCode φ :=
  .cons (getR arg1) (.cons .eqz64
    (.iteRet .i32 (.ofList [getR arg2, .wrap]) (.ofList [getR arg1, .wrap, .un32 op])
      (.ofList [.extendS, setR ret])))

def tcgWasmOutAndc (ret arg1 arg2 : Reg) : List (WInstr φ) :=
  [getR arg1, getR arg2] ++ tcgWasmOutOpNot ++ [.bin64 .and, setR ret]

def tcgWasmOutOrc (ret arg1 arg2 : Reg) : List (WInstr φ) :=
  [getR arg1, getR arg2] ++ tcgWasmOutOpNot ++ [.bin64 .or, setR ret]

/-- `tcg_wasm_out_eqv`, `tcg_wasm_out_nand` and `tcg_wasm_out_nor`. -/
def tcgWasmOutNegated (op : BinOp) (ret arg1 arg2 : Reg) : List (WInstr φ) :=
  [getR arg1, getR arg2, .bin64 op] ++ tcgWasmOutOpNot ++ [setR ret]

def tcgWasmOutNot (ret arg : Reg) : List (WInstr φ) := getR arg :: (tcgWasmOutOpNot ++ [setR ret])

def tcgWasmOutNeg (ret arg : Reg) : List (WInstr φ) :=
  getR arg :: (tcgWasmOutOpNot ++ [.const64 1#64, .bin64 .add, setR ret])

def tcgWasmOutMov (type : IntType) (ret arg : Reg) : List (WInstr φ) :=
  match type with
  | .i32 => [getR arg, .wrap, .extendU, setR ret]
  | .i64 => [getR arg, setR ret]

def tcgWasmOutMovi (type : IntType) (ret : Reg) (arg : BitVec 64) : List (WInstr φ) :=
  match type with
  | .i32 => [.const64 ((lo arg).signExtend 64), setR ret]
  | .i64 => [.const64 arg, setR ret]

/-- `tcg_wasm_out_ext8s` and `tcg_wasm_out_ext16s`. -/
def tcgWasmOutExtS (op : UnOp) (rd rs : Reg) : List (WInstr φ) := [getR rs, .un64 op, setR rd]

/-- `tcg_wasm_out_ext8u`, `tcg_wasm_out_ext16u`, `tcg_wasm_out_ext32u` and
`tcg_wasm_out_extrl_i64_i32`. -/
def tcgWasmOutExtU (mask : BitVec 64) (rd rs : Reg) : List (WInstr φ) :=
  [getR rs, .const64 mask, .bin64 .and, setR rd]

def tcgWasmOutExt32s (rd rs : Reg) : List (WInstr φ) := [getR rs, .wrap, .extendS, setR rd]

/-- `tcg_wasm_out_setcond_i32` and `tcg_wasm_out_setcond_i64`. -/
def tcgWasmOutSetcond (type : IntType) (cond : CmpCond) (ret arg1 arg2 : Reg) :
    List (WInstr φ) :=
  tcgWasmOutOpCond type cond arg1 arg2 ++ [.extendU, setR ret]

/-- `tcg_wasm_out_movcond_i32` and `tcg_wasm_out_movcond_i64`. -/
def tcgWasmOutMovcond (type : IntType) (cond : CmpCond) (ret c1 c2 v1 v2 : Reg) : WCode φ :=
  Code.append (.ofList (tcgWasmOutOpCond type cond c1 c2))
    (.iteRet .i64 (.ofList [getR v1]) (.ofList [getR v2]) (.ofList [setR ret]))

/-- `tcg_wasm_out_ctpop_i32` and `tcg_wasm_out_ctpop_i64`. Nothing widens the 32-bit count. -/
def tcgWasmOutCtpop (type : IntType) (dest src : Reg) : List (WInstr φ) :=
  match type with
  | .i32 => [getR src, .wrap, .un32 .popcnt, setR dest]
  | .i64 => [getR src, .un64 .popcnt, setR dest]

/-- The mask of a field as `tcg_wasm_out_deposit_i32` and `_i64` compute it. -/
def depositMask {w : ℕ} (f : Field w) : BitVec w := (1#w <<< f.len - 1#w) <<< f.pos

/-- `tcg_wasm_out_deposit_i32` and `tcg_wasm_out_deposit_i64`. -/
def tcgWasmOutDeposit : (type : IntType) → Field type.bits → Reg → Reg → Reg → List (WInstr φ)
  | .i32, f, dest, arg1, arg2 =>
    [getR arg1, .wrap, .const32 (~~~depositMask f), .bin32 .and,
     getR arg2, .wrap, .const32 (BitVec.ofNat 32 f.pos), .bin32 .shl,
     .const32 (depositMask f), .bin32 .and, .bin32 .or, .extendU, setR dest]
  | .i64, f, dest, arg1, arg2 =>
    [getR arg1, .const64 (~~~depositMask f), .bin64 .and,
     getR arg2, .const64 (BitVec.ofNat 64 f.pos), .bin64 .shl,
     .const64 (depositMask f), .bin64 .and, .bin64 .or, setR dest]

/-- `tcg_wasm_out_extract`: two shifts of the whole register, of either type. -/
def tcgWasmOutExtract (type : IntType) (f : Field type.bits) (sign : Bool) (dest arg1 : Reg) :
    List (WInstr φ) :=
  let rs := type.bits - f.len
  let sl := rs - f.pos
  getR arg1 ::
    ((if 0 < sl then [.const64 (BitVec.ofNat 64 sl), .bin64 .shl] else []) ++
    [.const64 (BitVec.ofNat 64 rs), .bin64 (if sign then .shrS else .shrU), setR dest])

def tcgWasmOutBswap64 (dest src : Reg) : List (WInstr φ) :=
  [getR src, .const64 32#64, .bin64 .rotr, .set64 (.tmp 0),
   .get64 (.tmp 0), .const64 0xff000000ff000000#64, .bin64 .and, .const64 24#64, .bin64 .shrU,
   .get64 (.tmp 0), .const64 0x00ff000000ff0000#64, .bin64 .and, .const64 8#64, .bin64 .shrU,
   .bin64 .or,
   .get64 (.tmp 0), .const64 0x0000ff000000ff00#64, .bin64 .and, .const64 8#64, .bin64 .shl,
   .get64 (.tmp 0), .const64 0x000000ff000000ff#64, .bin64 .and, .const64 24#64, .bin64 .shl,
   .bin64 .or, .bin64 .or, setR dest]

def tcgWasmOutBswap32 (dest src : Reg) : List (WInstr φ) :=
  [getR src, .wrap, .set32 .tmp0,
   .get32 .tmp0, .const32 16#32, .bin32 .rotr, .set32 .tmp0,
   .get32 .tmp0, .const32 0xff00ff00#32, .bin32 .and, .const32 8#32, .bin32 .shrU,
   .get32 .tmp0, .const32 0x00ff00ff#32, .bin32 .and, .const32 8#32, .bin32 .shl,
   .bin32 .or, .extendU, setR dest]

def tcgWasmOutBswap16 (os : Bool) (dest src : Reg) : List (WInstr φ) :=
  [getR src, .wrap, .set32 .tmp0,
   .get32 .tmp0, .const32 8#32, .bin32 .rotr, .set32 .tmp0,
   .get32 .tmp0, .const32 0x000000ff#32, .bin32 .and,
   .get32 .tmp0, .const32 0xff000000#32, .bin32 .and, .const32 16#32,
   .bin32 (if os then .shrS else .shrU),
   .bin32 .or, .extendU, setR dest]

/-- `tcg_out_bswap16_i32` and `tcg_out_bswap16_i64`. -/
def tcgOutBswap16 (os : Bool) (dest src : Reg) : List (WInstr φ) :=
  tcgWasmOutBswap16 os dest src ++ if os then tcgWasmOutExtS .extend16S dest dest else []

/-- `tcg_out_bswap32_i32` and `tcg_out_bswap32_i64`. -/
def tcgOutBswap32 (type : IntType) (os : Bool) (dest src : Reg) : List (WInstr φ) :=
  match type with
  | .i32 => tcgWasmOutBswap32 dest src
  | .i64 => tcgWasmOutBswap32 dest src ++ if os then tcgWasmOutExt32s dest dest else []

/-- `tcg_wasm_out_op_global_get_r_i32`. -/
def getRI32 (envCached : Bool) (r : Reg) : List (WInstr φ) :=
  if r = areg0 then getEnv envCached else [getR r, .wrap]

/-- The base of an access, with a negative offset added to it. -/
def baseCode (envCached : Bool) (base : Reg) (offset : BitVec 32) : List (WInstr φ) :=
  getRI32 envCached base ++ if offset.toInt < 0 then [.const32 offset, .bin32 .add] else []

def memOffset (offset : BitVec 32) : ℕ := if offset.toInt < 0 then 0 else offset.toNat

/-- The bytes of a load in the generated code, and whether its value is signed:
`ld_i32` is emitted as `ld32s_i64`. -/
def LdOpcode.wasm : LdOpcode → ℕ × Bool
  | .ld .i32 => (4, true)
  | op => op.tci

/-- `tcg_wasm_out_ld` and its siblings. -/
def tcgWasmOutLd (envCached : Bool) (op : LdOpcode) (val base : Reg) (offset : BitVec 32) :
    List (WInstr φ) :=
  baseCode envCached base offset ++ [.load64 op.wasm.1 op.wasm.2 (memOffset offset), setR val]

/-- `tcg_wasm_out_st` and its siblings. -/
def tcgWasmOutSt (envCached : Bool) (op : StOpcode) (val base : Reg) (offset : BitVec 32) :
    List (WInstr φ) :=
  baseCode envCached base offset ++ [getR val, .store64 op.bytes (memOffset offset)]

/-- `tcg_out_op` for the ops of two operands. -/
def tcgOutBin (ret arg1 arg2 : Reg) : BinOpcode → IntType → WCode φ
  | .add, _ => .ofList (tcgWasmOutI64Calc .add ret arg1 arg2)
  | .sub, _ => .ofList (tcgWasmOutI64Calc .sub ret arg1 arg2)
  | .mul, _ => .ofList (tcgWasmOutI64Calc .mul ret arg1 arg2)
  | .and, _ => .ofList (tcgWasmOutI64Calc .and ret arg1 arg2)
  | .or, _ => .ofList (tcgWasmOutI64Calc .or ret arg1 arg2)
  | .xor, _ => .ofList (tcgWasmOutI64Calc .xor ret arg1 arg2)
  | .andc, _ => .ofList (tcgWasmOutAndc ret arg1 arg2)
  | .orc, _ => .ofList (tcgWasmOutOrc ret arg1 arg2)
  | .eqv, _ => .ofList (tcgWasmOutNegated .xor ret arg1 arg2)
  | .nand, _ => .ofList (tcgWasmOutNegated .and ret arg1 arg2)
  | .nor, _ => .ofList (tcgWasmOutNegated .or ret arg1 arg2)
  | .shl, type => .ofList (tcgWasmOutShl type ret arg1 arg2)
  | .shr, type => .ofList (tcgWasmOutShrU type ret arg1 arg2)
  | .sar, type => .ofList (tcgWasmOutShrS type ret arg1 arg2)
  | .rotl, .i32 => .ofList (tcgWasmOutI32Rot .rotl ret arg1 arg2)
  | .rotl, .i64 => .ofList (tcgWasmOutI64Calc .rotl ret arg1 arg2)
  | .rotr, .i32 => .ofList (tcgWasmOutI32Rot .rotr ret arg1 arg2)
  | .rotr, .i64 => .ofList (tcgWasmOutI64Calc .rotr ret arg1 arg2)
  | .div, type => .ofList (tcgWasmOutDivS type ret arg1 arg2)
  | .divu, type => .ofList (tcgWasmOutDivU type ret arg1 arg2)
  | .rem, type => .ofList (tcgWasmOutRemS type ret arg1 arg2)
  | .remu, type => .ofList (tcgWasmOutRemU type ret arg1 arg2)
  | .clz, .i32 => tcgWasmOutCount32 .clz ret arg1 arg2
  | .clz, .i64 => tcgWasmOutCount64 .clz ret arg1 arg2
  | .ctz, .i32 => tcgWasmOutCount32 .ctz ret arg1 arg2
  | .ctz, .i64 => tcgWasmOutCount64 .ctz ret arg1 arg2

/-- `tcg_out_op` for the ops of one operand. -/
def tcgOutUn (ret arg : Reg) : UnOpcode → IntType → List (WInstr φ)
  | .neg, _ => tcgWasmOutNeg ret arg
  | .not, _ => tcgWasmOutNot ret arg
  | .ctpop, type => tcgWasmOutCtpop type ret arg
  | .ext8s, _ => tcgWasmOutExtS .extend8S ret arg
  | .ext8u, _ => tcgWasmOutExtU 0xff#64 ret arg
  | .ext16s, _ => tcgWasmOutExtS .extend16S ret arg
  | .ext16u, _ => tcgWasmOutExtU 0xffff#64 ret arg

def tcgOutConv (ret arg : Reg) : ConvOpcode → List (WInstr φ)
  | .ext32s | .extI32I64 => tcgWasmOutExt32s ret arg
  | .ext32u | .extuI32I64 | .extrlI64I32 => tcgWasmOutExtU 0xffffffff#64 ret arg

/-- `tcg_out_op`, `tcg_out_mov` and `tcg_out_movi`: the wasm code of an op. -/
def PlainOp.code (envCached : Bool) : PlainOp → WCode φ
  | .mov type ret arg => .ofList (tcgWasmOutMov type ret arg)
  | .movi type ret arg => .ofList (tcgWasmOutMovi type ret arg)
  | .bin op type ret arg1 arg2 => tcgOutBin ret arg1 arg2 op type
  | .un op type ret arg => .ofList (tcgOutUn ret arg op type)
  | .conv op ret arg => .ofList (tcgOutConv ret arg op)
  | .bswap16 _ os dest src => .ofList (tcgOutBswap16 os dest src)
  | .bswap32 type os dest src => .ofList (tcgOutBswap32 type os dest src)
  | .bswap64 dest src => .ofList (tcgWasmOutBswap64 dest src)
  | .setcond type cond ret arg1 arg2 => .ofList (tcgWasmOutSetcond type cond ret arg1 arg2)
  | .movcond type cond ret c1 c2 v1 v2 => tcgWasmOutMovcond type cond ret c1 c2 v1 v2
  | .deposit type f dest arg1 arg2 => .ofList (tcgWasmOutDeposit type f dest arg1 arg2)
  | .extract type f dest arg1 => .ofList (tcgWasmOutExtract type f false dest arg1)
  | .sextract type f dest arg1 => .ofList (tcgWasmOutExtract type f true dest arg1)
  | .add2 _ retl reth al ah bl bh => .ofList (tcgWasmOutAdd2 retl reth al ah bl bh)
  | .sub2 _ retl reth al ah bl bh => .ofList (tcgWasmOutSub2 retl reth al ah bl bh)
  | .mulu2I32 retl reth arg1 arg2 => .ofList (tcgWasmOutMulu2I32 retl reth arg1 arg2)
  | .muls2I32 retl reth arg1 arg2 => .ofList (tcgWasmOutMuls2I32 retl reth arg1 arg2)
  | .ld op val base offset => .ofList (tcgWasmOutLd envCached op val base offset)
  | .st op val base offset => .ofList (tcgWasmOutSt envCached op val base offset)

end Emission

end Bootbox.Tcg
