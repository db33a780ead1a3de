import Bootbox.Dex.Parse
import Mathlib.Algebra.Group.Int.Defs

/-!
One instruction of the DEX interpreter (the `switch` of `exec` in `runtime/dex.js`).

Registers hold JavaScript values. An object has an identity, the step at which it was made, which
is all that `===` compares. Reading a register that the frame does not have gives `undefined`.
-/

namespace Bootbox.Dex

inductive Value
  | int (n : BitVec 32)
  /-- `{ __str: ... }`; the text is `undefined` when there is no such string. -/
  | str (id : ℕ) (text : Option String)
  /-- `{ __stream: true }` -/
  | stream (id : ℕ)
  | null
  | undefined
deriving DecidableEq

namespace Value

/-- The number that an operand counts as, unless that is `NaN` or the operand makes `+` join
texts, which never gives the text of a number. -/
def number : Value → Option ℤ
  | int n => some n.toInt
  | null => some 0
  | str _ _ | stream _ | undefined => none

/-- `x === y` -/
def strictEq : Value → Value → Bool
  | int m, int n => m = n
  | str i _, str j _ => i = j
  | stream i, stream j => i = j
  | null, null => true
  | undefined, undefined => true
  | _, _ => false

def isObject : Value → Bool
  | str _ _ | stream _ => true
  | _ => false

/-- How `<` and its siblings order two values. Two objects are compared as the text
`[object Object]`. -/
def order (x y : Value) : Option Ordering :=
  if x.isObject ∧ y.isObject then some .eq
  else do
    let m ← x.number
    let n ← y.number
    some (if m < n then .lt else if n < m then .gt else .eq)

/-- `String(a)` -/
def toText : Value → String
  | int n => toString n.toInt
  | str _ _ | stream _ => "[object Object]"
  | null => "null"
  | undefined => "undefined"

/-- `a && a.__str != null ? a.__str : String(a)` -/
def printed : Value → String
  | str _ (some text) => text
  | a => a.toText

end Value

open Value

inductive BinOp
  | add | sub | mul | div | rem
deriving DecidableEq

/-- The result of an operation on two numbers, before `| 0`. A quotient or remainder by 0 is not
finite and becomes 0. -/
def BinOp.onNumbers : BinOp → ℤ → ℤ → ℤ
  | add, m, n => m + n
  | sub, m, n => m - n
  | mul, m, n => m * n
  | div, m, n => if n = 0 then 0 else m.tdiv n
  | rem, m, n => if n = 0 then 0 else m.tmod n

def BinOp.apply (op : BinOp) (x y : Value) : Value :=
  match x.number, y.number with
  | some m, some n => int (BitVec.ofInt 32 (op.onNumbers m n))
  | _, _ => int 0

inductive Test
  | eq | ne | lt | ge | gt | le
deriving DecidableEq

/-- The comparison `t` of an `if`. -/
def Test.holds (t : Test) (x y : Value) : Bool :=
  match t with
  | eq => strictEq x y
  | ne => !strictEq x y
  | lt => order x y = some .lt
  | ge => order x y = some .gt ∨ order x y = some .eq
  | gt => order x y = some .gt
  | le => order x y = some .lt ∨ order x y = some .eq

/-- The cases of the `switch`. -/
inductive Opcode
  | nop | move | moveResult | returnVoid | ret | const4 | const16 | const | constString
  | sgetObject | invokeVirtual | invokeVirtualRange | invokeStatic
  | binOp (op : BinOp)
  | binOp2addr (op : BinOp)
  | addIntLit8 | goto
  | ifTest (t : Test)
  | ifTestz (t : Test)
deriving DecidableEq

def opcode (op : ℕ) : Option Opcode :=
  match op with
  | 0x00 => some .nop
  | 0x01 => some .move
  | 0x0a => some .moveResult
  | 0x0e => some .returnVoid
  | 0x0f => some .ret
  | 0x12 => some .const4
  | 0x13 => some .const16
  | 0x14 => some .const
  | 0x1a => some .constString
  | 0x62 => some .sgetObject
  | 0x6e => some .invokeVirtual
  | 0x74 => some .invokeVirtualRange
  | 0x71 => some .invokeStatic
  | 0x90 => some (.binOp .add)
  | 0x91 => some (.binOp .sub)
  | 0x92 => some (.binOp .mul)
  | 0x93 => some (.binOp .div)
  | 0x94 => some (.binOp .rem)
  | 0xb0 => some (.binOp2addr .add)
  | 0xb1 => some (.binOp2addr .sub)
  | 0xb2 => some (.binOp2addr .mul)
  | 0xd8 => some .addIntLit8
  | 0x28 => some .goto
  | 0x32 => some (.ifTest .eq)
  | 0x33 => some (.ifTest .ne)
  | 0x34 => some (.ifTest .lt)
  | 0x35 => some (.ifTest .ge)
  | 0x36 => some (.ifTest .gt)
  | 0x37 => some (.ifTest .le)
  | 0x38 => some (.ifTestz .eq)
  | 0x39 => some (.ifTestz .ne)
  | 0x3a => some (.ifTestz .lt)
  | 0x3b => some (.ifTestz .ge)
  | 0x3c => some (.ifTestz .gt)
  | 0x3d => some (.ifTestz .le)
  | _ => none

inductive Effect
  /-- Go on at `pc`, after a call of `onOut` if something is printed. -/
  | next (reg : ℕ → Value) (pc : ℤ) (out : Option String)
  /-- Call a method that has code, and go on at `pc` after it. -/
  | call (code : Code) (args : List Value) (pc : ℤ)
  /-- Leave the frame; `return` sets `retval`. -/
  | leave (retval : Option Value)
  | unsupported
  | throws

/-- `bytes[o]` with any number as the index. -/
def byteAtInt (bytes : List UInt8) (o : ℤ) : Option ℕ :=
  if 0 ≤ o then bytes[o.toNat]?.map UInt8.toNat else none

/-- `op16(off)` -/
def op16 (bytes : List UInt8) (off : ℤ) : ℕ :=
  (byteAtInt bytes off).getD 0 + 2 ^ 8 * (byteAtInt bytes (off + 1)).getD 0

/-- A number of `w` bits, the highest of which is its sign. -/
def signed (w n : ℕ) : ℤ := if n / 2 ^ (w - 1) % 2 = 1 then n - 2 ^ w else n

/-- `s16(off)` -/
def s16 (bytes : List UInt8) (off : ℤ) : ℤ := signed 16 (op16 bytes off)

/-- `reg[dex.bytes[o]]` -/
def regOfByte (bytes : List UInt8) (reg : ℕ → Value) (o : ℤ) : Value :=
  match byteAtInt bytes o with
  | some r => reg r
  | none => undefined

/-- `rlist`, the registers of an `invoke`. -/
def rlist (w regsWord : ℕ) : List ℕ :=
  [regsWord % 2 ^ 4, regsWord / 2 ^ 4 % 2 ^ 4, regsWord / 2 ^ 8 % 2 ^ 4, regsWord / 2 ^ 12 % 2 ^ 4,
    w % 2 ^ 4]

section Exec

variable (dex : DexFile)

def codeOf (mi : ℕ) : Option Code := dex.codeByMethod.lookup mi

/-- `sget-object`: the only static field that is known is `out`. -/
def staticField (id index : ℕ) : Value :=
  match dex.fields[index]? with
  | some f => if f.name = some "out" then stream id else int 0
  | none => int 0

/-- What `print` or `println` prints, if the method is one of them. -/
def printText (name : Option String) (a : Value) : Option String :=
  if name = some "println" then some (a.printed ++ "\n")
  else if name = some "print" then some a.printed
  else none

/-- The case of `invoke-virtual`. -/
def invokeVirtual (reg : ℕ → Value) (pc : ℤ) : Effect :=
  let regsWord := op16 dex.bytes (pc + 4)
  let recv := reg (regsWord % 2 ^ 4)
  match recv with
  | stream _ =>
    match dex.methods[op16 dex.bytes (pc + 2)]? with
    | none => .throws
    | some meth =>
      let a := reg (regsWord / 2 ^ 4 % 2 ^ 4)
      .next reg (pc + 6) (printText meth.name a)
  | _ => .next reg (pc + 6) none

/-- The case of `invoke-static`. -/
def invokeStatic (w : ℕ) (reg : ℕ → Value) (pc : ℤ) : Effect :=
  let cnt := w / 2 ^ 12 % 2 ^ 4
  let callArgs := ((rlist w (op16 dex.bytes (pc + 4))).take cnt).map reg
  match codeOf dex (op16 dex.bytes (pc + 2)) with
  | some code => .call code callArgs (pc + 6)
  | none => .next reg (pc + 6) none

/-- One round of the `switch`, at step number `id`. -/
def insn (id : ℕ) (retval : Value) (reg : ℕ → Value) (pc : ℤ) : Effect :=
  let bytes := dex.bytes
  let w := op16 bytes pc
  let AA := w / 2 ^ 8 % 2 ^ 8
  let A := w / 2 ^ 8 % 2 ^ 4
  let B := w / 2 ^ 12 % 2 ^ 4
  let put (r : ℕ) (v : Value) (width : ℤ) : Effect :=
    .next (Function.update reg r v) (pc + width) none
  match opcode (w % 2 ^ 8) with
  | none => .unsupported
  | some .nop => .next reg (pc + 2) none
  | some .move => put A (reg B) 2
  | some .moveResult => put AA retval 2
  | some .returnVoid => .leave none
  | some .ret => .leave (some (reg AA))
  | some .const4 => put A (int (BitVec.ofInt 32 (signed 4 B))) 2
  | some .const16 => put AA (int (BitVec.ofInt 32 (s16 bytes (pc + 2)))) 4
  | some .const =>
    put AA (int (BitVec.ofNat 32 (op16 bytes (pc + 2) + 2 ^ 16 * op16 bytes (pc + 4)))) 6
  | some .constString => put AA (str id dex.strings[op16 bytes (pc + 2)]?) 4
  | some .sgetObject => put AA (staticField dex id (op16 bytes (pc + 2))) 4
  | some .invokeVirtual | some .invokeVirtualRange => invokeVirtual dex reg pc
  | some .invokeStatic => invokeStatic dex w reg pc
  | some (.binOp op) =>
    put AA (op.apply (regOfByte bytes reg (pc + 2)) (regOfByte bytes reg (pc + 3))) 4
  | some (.binOp2addr op) => put A (op.apply (reg A) (reg B)) 2
  | some .addIntLit8 =>
    let lit := signed 8 ((byteAtInt bytes (pc + 3)).getD 0)
    put (AA % 2 ^ 4) (BinOp.add.apply (reg (AA / 2 ^ 4 % 2 ^ 4)) (int (BitVec.ofInt 32 lit))) 4
  | some .goto =>
    let off := signed 8 AA
    .next reg (pc + if off = 0 then 2 else off * 2) none
  | some (.ifTest t) =>
    let off := s16 bytes (pc + 2)
    .next reg (pc + if t.holds (reg A) (reg B) then off * 2 else 4) none
  | some (.ifTestz t) =>
    let off := s16 bytes (pc + 2)
    .next reg (pc + if t.holds (reg AA) (int 0) then off * 2 else 4) none

end Exec

end Bootbox.Dex
