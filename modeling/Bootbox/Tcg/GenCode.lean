import Bootbox.Lib.Escape
import Bootbox.Tcg.TciFormat
import Bootbox.Tcg.WasmModule

/-!
`tcg_gen_code`: the interpreter's code of a block, its constant pool and its module are
written one after the other into the code buffer. The generation can be left from many
places, by `siglongjmp` or with a negative result; the state stays as it is then.

What an emitter writes is a list of words, each complete or with a displacement to come:
`emit_eq` reduces the emitters to that.
-/

namespace Bootbox.Tcg.GenCode

open Lib ByteMemory BitField Tci List BitVec Function
open WasmModule (Tables HelperKind Out Mode)

abbrev Label := ℕ

/-- The results -1 to -4 of `setjmp_gen_code`. -/
inductive Exit
  | bufferOverflow
  | tbOverflow
  | pageLock
  | twoPages
  deriving DecidableEq

/-- `TCGLabelPoolData`: the data, and the instruction that refers to it. -/
structure PoolData where
  label : ℕ
  data : List (BitVec 64)

/-- The fields of `TranslationBlock` that a translation reads or writes. -/
structure Tb where
  pc : BitVec 64
  csBase : BitVec 64
  flags : BitVec 32
  cflags : BitVec 32
  size : ℕ
  icount : ℕ
  tcPtr : ℕ
  pageAddr0 : Option ℕ
  pageAddr1 : Option ℕ
  jmpResetOffset : Fin 2 → ℕ
  jmpInsnOffset : Fin 2 → ℕ

/-- The memory, the blocks in it by address, and the TCG context. -/
structure State where
  mem : Bytes
  tbs : ℕ → Tb
  codeBuf : ℕ
  codePtr : ℕ
  codeGenPtr : ℕ
  codeGenHighwater : ℕ
  dataGenPtr : Option ℕ
  genTb : Option ℕ
  poolLabels : List PoolData
  relocs : List (ℕ × Label)
  labelValue : Label → ℕ
  tables : Tables
  regenBuf : Option ℕ
  codeBias : BitVec 32

abbrev Gen := EStateM Exit State

structure Target where
  cores : ℕ
  kinds : ℕ → HelperKind
  lazyWasm : Bool
  regLocals : Bool
  tailChain : Bool
  chainNested : Bool
  tbSize : ℕ
  /-- The offset of `jmp_target_addr[n]` in a block. -/
  jmpTargetAddr : Fin 2 → ℕ
  exit_lt : 4 ≤ tbSize
  jmpTargetAddr_lt : ∀ i, jmpTargetAddr i < tbSize
  /-- The vectors per core stay far below the smallest buffer. -/
  cores_le : cores ≤ 1024

/-! ### Output -/

def wordBytes (v : ℕ) : List UInt8 := leBytes 4 v

def storeAt (a : ℕ) (bs : List UInt8) : Gen Unit :=
  modify fun s => { s with mem := store s.mem a bs }

def setCodePtr (a : ℕ) : Gen Unit := modify fun s => { s with codePtr := a }

def tcgOut32 (v : Word) : Gen Unit :=
  modify fun s =>
    { s with mem := store s.mem s.codePtr (wordBytes v.toNat), codePtr := s.codePtr + 4 }

/-- `tcg_out_reloc` at the current instruction. -/
def tcgOutReloc (l : Label) : Gen Unit :=
  modify fun s => { s with relocs := s.relocs ++ [(s.codePtr, l)] }

def poolBytes (data : List (BitVec 64)) : List UInt8 := data.flatMap fun d => leBytes 8 d.toNat

/-- `new_pool_insert`: longer data first, and data of one length by `memcmp`. -/
def newPoolInsert (n : PoolData) : List PoolData → List PoolData
  | [] => [n]
  | i :: is =>
    if i.data.length < n.data.length then n :: i :: is
    else if n.data.length < i.data.length then i :: newPoolInsert n is
    else if poolBytes n.data < poolBytes i.data then i :: newPoolInsert n is
    else n :: i :: is

/-- `new_pool_label`, `new_pool_l2` and `new_pool_l8` at the current instruction. -/
def newPool (data : List (BitVec 64)) : Gen Unit :=
  modify fun s => { s with poolLabels := newPoolInsert ⟨s.codePtr, data⟩ s.poolLabels }

/-- `patch_reloc` with a 20-bit relocation: the displacement goes into the upper bits. -/
def patchReloc (a value : ℕ) : Gen Bool := do
  let s ← get
  let diff := BitVec.ofNat 32 value - BitVec.ofNat 32 (a + 4)
  if Fits 20 diff then
    storeAt a (wordBytes (deposit (word32 s.mem a) 12 20 diff).toNat)
    pure true
  else
    pure false

/-! ### The emitters -/

/-- `tcg_tci_out_op_l` and `tcg_tci_out_op_rl`, with the word they write. -/
def outLabelled (w : Word) (l : Label) : Gen Unit := do
  tcgOutReloc l
  tcgOut32 w

def outDisplaced (w diff : Word) : Gen Unit :=
  if Fits 20 diff then tcgOut32 (deposit w 12 20 diff) else throw .tbOverflow

/-- The displacement of a pointer from the live position behind the current instruction. -/
def State.displacement (s : State) (p : ℕ) : Word :=
  BitVec.ofNat 32 p - (BitVec.ofNat 32 (s.codePtr + 4) + s.codeBias)

/-- `tcg_tci_out_op_p`: the block is outside of the code, so the displacement is taken from
the position of the live code. -/
def tcgTciOutOpP (op : Opcode) (p0 : Option ℕ) : Gen Unit := do
  match p0 with
  | none => tcgOut32 (outOpP op 0#32)
  | some p =>
    let s ← get
    outDisplaced (opWord op) (s.displacement p)

def outPooled (w : Word) (data : List (BitVec 64)) : Gen Unit := do
  newPool data
  tcgOut32 w

/-- The value `tcg_tci_out_movi` loads. -/
def moviArg : IntType → BitVec 64 → BitVec 64
  | .i32, arg => (arg.setWidth 32).signExtend 64
  | .i64, arg => arg

def MoviFits (arg : BitVec 64) : Prop :=
  arg = (sextract (arg.setWidth 32) 0 20).signExtend 64

instance (arg : BitVec 64) : Decidable (MoviFits arg) := inferInstanceAs (Decidable (_ = _))

def tcgTciOutMovi (type : IntType) (ret : Reg) (arg : BitVec 64) : Gen Unit :=
  let arg := moviArg type arg
  if MoviFits arg then tcgOut32 (outOpRi opTciMovi ret (arg.setWidth 32))
  else outPooled (outOpR opTciMovl ret) [arg]

/-- `tcg_tci_out_ldst`; `TCG_TYPE_PTR` is 32 bits wide. -/
def tcgTciOutLdst (op : Opcode) (val base : Reg) (offset : Word) : Gen Unit := do
  if Fits 16 offset then tcgOut32 (outOpRrs op val base offset)
  else
    tcgTciOutMovi .i32 regTmp (offset.signExtend 64)
    tcgOut32 (outOpRrr opAddI64 regTmp regTmp base)
    tcgOut32 (outOpRrs op val regTmp 0#32)

def retLength : Option TypeCode → Fin 16
  | none => 0
  | some .i32 | some .s32 | some .ptr => 1
  | some .i64 | some .s64 => 2
  | some .i128 => 3

def tcgTciOutCall (func cif : Word) (ret : Option TypeCode) : Gen Unit :=
  outPooled (outOpN opCall (retLength ret)) [func.setWidth 64, cif.setWidth 64]

/-- The operands of a guest access and what the fast path needs of the context. -/
structure LdstArgs where
  r0 : Reg
  r1 : Reg
  oi : BitVec 32
  aMask : BitVec 32
  maskOfs : BitVec 32
  pageBits : BitVec 8
  pageMask : BitVec 32
  tableOfs : BitVec 32

def LdstArgs.data (a : LdstArgs) : List (BitVec 64) :=
  [(ofReg a.r0).setWidth 64, (ofReg a.r1).setWidth 64, a.oi.setWidth 64, a.aMask.signExtend 64,
    a.maskOfs.signExtend 64, a.pageBits.setWidth 64, a.pageMask.signExtend 64,
    a.tableOfs.signExtend 64]

def tcgTciOutQemuLdst (op : Opcode) (a : LdstArgs) : Gen Unit := outPooled (opWord op) a.data

def setJmpResetOffset (tb : ℕ) (which : Fin 2) : Gen Unit :=
  modify fun s =>
    if s.regenBuf.isSome then s
    else
      let offset := (s.codePtr - s.codeBuf) % 2 ^ 16
      { s with
        tbs := update s.tbs tb
          { s.tbs tb with
            jmpResetOffset := update (s.tbs tb).jmpResetOffset which offset } }

def tcgOutLabel (l : Label) : Gen Unit :=
  modify fun s => { s with labelValue := update s.labelValue l s.codePtr }

/-- The calls that write interpreter code, by format. -/
inductive Call
  | opL (op : Opcode) (l0 : Label)
  | exitTb (arg : Option (Fin 4))
  | gotoTb (which : Fin 2)
  | opV (op : Opcode)
  | opR (op : Opcode) (r0 : Reg)
  | opRl (op : Opcode) (r0 : Reg) (l1 : Label)
  | opRr (op : Opcode) (r0 r1 : Reg)
  | opRrr (op : Opcode) (r0 r1 r2 : Reg)
  | opRrbb (op : Opcode) (r0 r1 : Reg) (b2 b3 : Fin 64)
  | opRrrc (op : Opcode) (r0 r1 r2 : Reg) (c3 : Cond)
  | opRrrbb (op : Opcode) (r0 r1 r2 : Reg) (b3 b4 : Fin 64)
  | opRrrr (op : Opcode) (r0 r1 r2 r3 : Reg)
  | opRrrrr (op : Opcode) (r0 r1 r2 r3 r4 : Reg)
  | opRrrrrc (op : Opcode) (r0 r1 r2 r3 r4 : Reg) (c5 : Cond)
  | opRrrrrr (op : Opcode) (r0 r1 r2 r3 r4 r5 : Reg)
  | movi (type : IntType) (ret : Reg) (arg : BitVec 64)
  | ldst (op : Opcode) (val base : Reg) (offset : Word)
  | call (func cif : Word) (ret : Option TypeCode)
  | qemuLdst (op : Opcode) (args : LdstArgs)
  | label (l : Label)

/-- What a call does; `tb` is the block being generated. -/
def emit (T : Target) (tb : ℕ) : Call → Gen Unit
  | .opL op l0 => outLabelled (outOpL op) l0
  | .exitTb arg => tcgTciOutOpP opExitTb (arg.map fun i => tb + i)
  | .gotoTb which => do
      tcgTciOutOpP opGotoTb (some (tb + T.jmpTargetAddr which))
      setJmpResetOffset tb which
  | .opV op => tcgOut32 (outOpV op)
  | .opR op r0 => tcgOut32 (outOpR op r0)
  | .opRl op r0 l1 => outLabelled (outOpRl op r0) l1
  | .opRr op r0 r1 => tcgOut32 (outOpRr op r0 r1)
  | .opRrr op r0 r1 r2 => tcgOut32 (outOpRrr op r0 r1 r2)
  | .opRrbb op r0 r1 b2 b3 => tcgOut32 (outOpRrbb op r0 r1 b2 b3)
  | .opRrrc op r0 r1 r2 c3 => tcgOut32 (outOpRrrc op r0 r1 r2 c3)
  | .opRrrbb op r0 r1 r2 b3 b4 => tcgOut32 (outOpRrrbb op r0 r1 r2 b3 b4)
  | .opRrrr op r0 r1 r2 r3 => tcgOut32 (outOpRrrr op r0 r1 r2 r3)
  | .opRrrrr op r0 r1 r2 r3 r4 => tcgOut32 (outOpRrrrr op r0 r1 r2 r3 r4)
  | .opRrrrrc op r0 r1 r2 r3 r4 c5 => tcgOut32 (outOpRrrrrc op r0 r1 r2 r3 r4 c5)
  | .opRrrrrr op r0 r1 r2 r3 r4 r5 => tcgOut32 (outOpRrrrrr op r0 r1 r2 r3 r4 r5)
  | .movi type ret arg => tcgTciOutMovi type ret arg
  | .ldst op val base offset => tcgTciOutLdst op val base offset
  | .call func cif ret => tcgTciOutCall func cif ret
  | .qemuLdst op args => tcgTciOutQemuLdst op args
  | .label l => tcgOutLabel l

/-! ### What the emitters write -/

inductive Goal
  | none
  | label (l : Label)
  | pool (data : List (BitVec 64))
  | pointer (p : ℕ)

/-- A word as it is written, with the displacement it gets. -/
structure Item where
  word : Word
  goal : Goal

def moviItems (type : IntType) (ret : Reg) (arg : BitVec 64) : List Item :=
  let arg := moviArg type arg
  if MoviFits arg then [⟨outOpRi opTciMovi ret (arg.setWidth 32), .none⟩]
  else [⟨outOpR opTciMovl ret, .pool [arg]⟩]

def Call.items (T : Target) (tb : ℕ) : Call → List Item
  | .opL op l0 => [⟨outOpL op, .label l0⟩]
  | .exitTb none => [⟨outOpP opExitTb 0#32, .none⟩]
  | .exitTb (some i) => [⟨opWord opExitTb, .pointer (tb + i)⟩]
  | .gotoTb which => [⟨opWord opGotoTb, .pointer (tb + T.jmpTargetAddr which)⟩]
  | .opV op => [⟨outOpV op, .none⟩]
  | .opR op r0 => [⟨outOpR op r0, .none⟩]
  | .opRl op r0 l1 => [⟨outOpRl op r0, .label l1⟩]
  | .opRr op r0 r1 => [⟨outOpRr op r0 r1, .none⟩]
  | .opRrr op r0 r1 r2 => [⟨outOpRrr op r0 r1 r2, .none⟩]
  | .opRrbb op r0 r1 b2 b3 => [⟨outOpRrbb op r0 r1 b2 b3, .none⟩]
  | .opRrrc op r0 r1 r2 c3 => [⟨outOpRrrc op r0 r1 r2 c3, .none⟩]
  | .opRrrbb op r0 r1 r2 b3 b4 => [⟨outOpRrrbb op r0 r1 r2 b3 b4, .none⟩]
  | .opRrrr op r0 r1 r2 r3 => [⟨outOpRrrr op r0 r1 r2 r3, .none⟩]
  | .opRrrrr op r0 r1 r2 r3 r4 => [⟨outOpRrrrr op r0 r1 r2 r3 r4, .none⟩]
  | .opRrrrrc op r0 r1 r2 r3 r4 c5 => [⟨outOpRrrrrc op r0 r1 r2 r3 r4 c5, .none⟩]
  | .opRrrrrr op r0 r1 r2 r3 r4 r5 => [⟨outOpRrrrrr op r0 r1 r2 r3 r4 r5, .none⟩]
  | .movi type ret arg => moviItems type ret arg
  | .ldst op val base offset =>
    if Fits 16 offset then [⟨outOpRrs op val base offset, .none⟩]
    else moviItems .i32 regTmp (offset.signExtend 64) ++
      [⟨outOpRrr opAddI64 regTmp regTmp base, .none⟩, ⟨outOpRrs op val regTmp 0#32, .none⟩]
  | .call func cif ret =>
    [⟨outOpN opCall (retLength ret), .pool [func.setWidth 64, cif.setWidth 64]⟩]
  | .qemuLdst op args => [⟨opWord op, .pool args.data⟩]
  | .label _ => []

def put (i : Item) : Gen Unit :=
  match i.goal with
  | .none => tcgOut32 i.word
  | .label l => outLabelled i.word l
  | .pool data => outPooled i.word data
  | .pointer p => do
      let s ← get
      outDisplaced i.word (s.displacement p)

def Call.after (tb : ℕ) : Call → Gen Unit
  | .gotoTb which => setJmpResetOffset tb which
  | .label l => tcgOutLabel l
  | _ => pure ()

theorem movi_eq (type : IntType) (ret : Reg) (arg : BitVec 64) :
    tcgTciOutMovi type ret arg = (moviItems type ret arg).forM put := by
  unfold tcgTciOutMovi moviItems
  dsimp only
  split
  · rfl
  · rfl

theorem forM_append_put (xs ys : List Item) :
    (xs ++ ys).forM put = (do xs.forM put; ys.forM put) :=
  forM_append

theorem forM_put_one (i : Item) : [i].forM put = put i :=
  bind_pure_unit

theorem outOpP_eq (op : Opcode) (p : ℕ) :
    tcgTciOutOpP op (some p) = put ⟨opWord op, .pointer p⟩ := rfl

/-- An emitter writes its words and then does what else it does. -/
theorem emit_eq (T : Target) (tb : ℕ) (c : Call) :
    emit T tb c = (do (c.items T tb).forM put; c.after tb) := by
  cases c with
  | exitTb arg =>
    cases arg with
    | none =>
      simp only [emit, Call.items, Call.after, forM_put_one, bind_pure_unit]
      rfl
    | some i =>
      simp only [emit, Call.items, Call.after, forM_put_one, bind_pure_unit, ← outOpP_eq]
      rfl
  | gotoTb which => simp only [emit, Call.items, Call.after, forM_put_one, ← outOpP_eq]
  | movi type ret arg => simp only [emit, Call.items, Call.after, bind_pure_unit, movi_eq]
  | ldst op val base offset =>
    simp only [emit, Call.items, Call.after, bind_pure_unit, tcgTciOutLdst]
    split
    · rw [forM_put_one]
      rfl
    · rw [forM_append_put, ← movi_eq]
      rfl
  | label l => rfl
  | _ =>
    simp only [emit, Call.items, Call.after, forM_put_one, bind_pure_unit]
    rfl

/-! ### A block -/

/-- One emitter's output: the calls for the interpreter, then wasm code, in which the
position reached stands as a constant. Without wasm code a table was full, or the frame. -/
structure Piece where
  calls : List Call
  wasm : Word → Option (List Out)

/-- The words an op starting below the high-water mark may write. -/
def opMaxWords : ℕ := 256

/-- Calls that do not go on with the next instruction: a jump, an exit, or a helper that
does not return. -/
def Call.Leaves : Call → Prop
  | .opL .. | .exitTb _ | .opR .. | .call .. => True
  | _ => False

def Call.labels : Call → List Label
  | .opL _ l | .opRl _ _ l | .label l => [l]
  | _ => []

/-- What the translator, the optimizer and the register allocator make of a block: the
pieces of every op. -/
structure Ops where
  ops : List (List Piece)
  nbLabels : ℕ
  fpLocals : Bool
  /-- All labels are created with `gen_new_label`. -/
  labels_lt : ∀ op ∈ ops, ∀ p ∈ op, ∀ c ∈ p.calls, ∀ l ∈ c.labels, l < nbLabels
  /-- No op is longer than the space behind the high-water mark. -/
  short : ∀ (T : Target) (tb : ℕ), ∀ op ∈ ops,
    ((op.flatMap Piece.calls).flatMap (Call.items T tb)).length ≤ opMaxWords
  /-- The block does not run on into the pool. -/
  leaves : ∀ c, (ops.flatten.flatMap Piece.calls).getLast? = some c → c.Leaves

def Ops.calls (b : Ops) : List Call := b.ops.flatten.flatMap Piece.calls

def setTables : Option Tables → Gen Unit
  | none => throw .tbOverflow
  | some t => modify fun s => { s with tables := t }

def checkHighwater (a : ℕ) : Gen Unit := do
  let s ← get
  if s.codeGenHighwater < a then throw .bufferOverflow else pure ()

/-- The offsets kept for a block have sixteen bits. -/
def checkSize : Gen Unit := do
  let s ← get
  if 2 ^ 16 - 1 < s.codePtr - s.codeBuf then throw .tbOverflow else pure ()

def outPiece (T : Target) (tb : ℕ) (p : Piece) : Gen Unit := do
  p.calls.forM (emit T tb)
  let s ← get
  setTables ((p.wasm (BitVec.ofNat 32 s.codePtr + s.codeBias)).bind
    fun outs => WasmModule.emitAll T.kinds outs s.tables)

def genOp (T : Target) (tb : ℕ) (op : List Piece) : Gen Unit := do
  op.forM (outPiece T tb)
  let s ← get
  checkHighwater s.codePtr
  checkSize

/-- The bytes before the code: offset, export vector, counter vector and code size. -/
def Target.headerSize (T : Target) : ℕ := 16 + 8 * T.cores

/-- The reset of the jump offsets; `TB_JMP_OFFSET_INVALID` is `0xffff`. -/
def initJmpOffsets (tb : ℕ) : Gen Unit :=
  modify fun s =>
    if s.regenBuf.isSome then s
    else
      { s with
        tbs := update s.tbs tb
          { s.tbs tb with
            jmpResetOffset := fun _ => 2 ^ 16 - 1
            jmpInsnOffset := fun _ => 2 ^ 16 - 1 } }

def resetBuffers (tb : ℕ) : Gen Unit :=
  modify fun s =>
    let buf := s.regenBuf.getD (s.tbs tb).tcPtr
    { s with codeBuf := buf, codePtr := buf, tables := .init, poolLabels := [] }

def writeHeader (T : Target) : Gen Unit := do
  let s ← get
  let size := T.cores * 4
  storeAt (s.codeBuf + 8) (replicate size 0)
  storeAt (s.codeBuf + 4) (wordBytes size)
  storeAt (s.codeBuf + 12 + size) (replicate size 0)
  storeAt (s.codeBuf + 8 + size) (wordBytes size)
  storeAt s.codeBuf (wordBytes T.headerSize)
  setCodePtr (s.codeBuf + T.headerSize)

def startCode (T : Target) (tb : ℕ) : Gen Unit := do
  initJmpOffsets tb
  resetBuffers tb
  writeHeader T

def roundUp (n d : ℕ) : ℕ := (n + d - 1) / d * d

/-- `tcg_out_nop_fill`: an instruction unit is one byte, and four are cleared for each. -/
def tcgOutNopFill (p count : ℕ) : Gen Unit := storeAt p (replicate (4 * count) 0)

def patchOrRaise (a value : ℕ) : Gen Unit := do
  if ← patchReloc a value then pure () else throw .tbOverflow

/-- Put pool data, unless it is what was put last; the position behind it. -/
def poolPut (data : List (BitVec 64)) (l : Option (List (BitVec 64))) (a : ℕ) : Gen ℕ :=
  if l = some data then pure a
  else do
    checkHighwater a
    storeAt a (poolBytes data)
    pure (a + 8 * data.length)

/-- The loop of `tcg_out_pool_finalize`. -/
def poolLoop : List PoolData → Option (List (BitVec 64)) → ℕ → Gen ℕ
  | [], _, a => pure a
  | p :: ps, l, a => do
      let a ← poolPut p.data l a
      patchOrRaise p.label (a - 8 * p.data.length)
      poolLoop ps (some p.data) a

def tcgOutPoolFinalize : Gen Unit := do
  let s ← get
  match s.poolLabels with
  | [] => pure ()
  | p :: ps =>
    let a := roundUp s.codePtr (8 * p.data.length)
    tcgOutNopFill s.codePtr (a - s.codePtr)
    modify fun s => { s with dataGenPtr := some a }
    let a ← poolLoop (p :: ps) none a
    setCodePtr a

/-- The relocations in the order of `tcg_resolve_relocs`: label by label. -/
def relocOrder (nbLabels : ℕ) (relocs : List (ℕ × Label)) : List (ℕ × Label) :=
  (range nbLabels).flatMap fun l => relocs.filter fun r => r.2 = l

def tcgResolveRelocs (nbLabels : ℕ) : Gen Unit := do
  let s ← get
  (relocOrder nbLabels s.relocs).forM fun r => patchOrRaise r.1 (s.labelValue r.2)

def finishCode (T : Target) : Gen Unit := do
  let s ← get
  setTables (WasmModule.subOut WasmModule.funcEnd s.tables)
  let codeBegin := s.codeBuf + T.headerSize - 4
  storeAt codeBegin (wordBytes (s.codePtr - codeBegin - 4))

def rawBytes (bs : List WasmBinary.Byte) : List UInt8 := bs.map UInt8.ofBitVec

/-- Write a part of the module at the position, unless it passes the high-water mark. -/
def putChecked (a : ℕ) (bs : List WasmBinary.Byte) : Gen ℕ := do
  checkHighwater (a + bs.length)
  storeAt a (rawBytes bs)
  pure (a + bs.length)

def Target.mode (T : Target) (fpLocals : Bool) : Mode :=
  ⟨T.regLocals, fpLocals, T.tailChain, T.chainNested⟩

open WasmModule in
/-- The module, and the list of the helpers it imports. The imports are not checked
against the high-water mark. -/
def writeModule (T : Target) (fpLocals : Bool) : Gen Unit := do
  let s ← get
  let t := s.tables
  let n := t.helperFuncs.length
  let blob := s.codePtr
  let thisTb := BitVec.ofNat 32 s.codeBuf + s.codeBias
  let a ← putChecked (blob + 4)
    (writeWasmTypeSectionSize modHeaderA t.helperTypes.length n ++ t.helperTypes)
  let a ← putChecked a (writeWasmImportSectionSize modHeaderB (helperImports n).length n)
  storeAt a (rawBytes (helperImports n))
  let a ← putChecked (a + (helperImports n).length) (writeWasmExportSectionSize modHeaderC n)
  let a ← putChecked a
    (writeWasmCodeSize (wasmWriteHeaderD (T.mode fpLocals) thisTb) t.subBuf.length 1)
  setCodePtr a
  let a ← putChecked a t.subBuf
  setCodePtr a
  storeAt blob (wordBytes (a - blob - 4))
  checkHighwater (a + 4 + n * 4)
  storeAt (a + 4) (t.helperFuncs.flatMap wordBytes)
  setCodePtr (a + 4 + n * 4)
  storeAt a (wordBytes (n * 4))
  checkHighwater (a + 4 + n * 4)

def writeEmptyModule : Gen Unit := do
  let s ← get
  checkHighwater (s.codePtr + 8)
  storeAt s.codePtr (wordBytes 0)
  storeAt (s.codePtr + 4) (wordBytes 0)
  setCodePtr (s.codePtr + 8)

/-- A block is generated without its module, which a re-translation makes up for. -/
def writeModules (T : Target) (fpLocals : Bool) : Gen Unit := do
  let s ← get
  if T.lazyWasm = true ∧ s.regenBuf = none then writeEmptyModule else writeModule T fpLocals

def State.funcStart (s : State) : State := { s with relocs := [], labelValue := fun _ => 0 }

def tcgFuncStart : Gen Unit := modify State.funcStart

/-- The interpreter's code of a block: ops, pool and relocations. -/
def genCode (T : Target) (tb : ℕ) (b : Ops) : Gen Unit := do
  b.ops.forM (genOp T tb)
  tcgOutPoolFinalize
  tcgResolveRelocs b.nbLabels

/-- `tcg_gen_code`: the size of what was written. -/
def tcgGenCode (T : Target) (tb : ℕ) (b : Ops) : Gen ℕ := do
  startCode T tb
  genCode T tb b
  finishCode T
  writeModules T b.fpLocals
  let s ← get
  pure (s.codePtr - s.codeBuf)

def smallTarget : Target where
  cores := 1
  kinds _ := .qemuLd
  lazyWasm := true
  regLocals := true
  tailChain := false
  chainNested := false
  tbSize := 64
  jmpTargetAddr _ := 32
  exit_lt := by decide
  jmpTargetAddr_lt := by decide
  cores_le := by decide

end Bootbox.Tcg.GenCode
