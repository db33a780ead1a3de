import Bootbox.Lib.FlatControl
import Bootbox.Lib.Patch
import Bootbox.Lib.WasmBinary
import Bootbox.Tcg.Emit

/-!
The code generator of a translation block, as far as its control flow goes:
`tcg_gen_code` walks the op list once and emits both the TCI bytecode and the wasm
function, with branches patched when all labels are known.

In the bytecode a branch holds the distance to its label, 20 bits of the word. The
wasm function is a loop around a chain of guarded blocks,

    loop
      if (bp == 0) { .. } if (bp <= 1) { .. } if (bp <= 2) { .. } ..
    end

and a branch sets the block pointer and leaves the current block, for the head of
the loop if its label has been emitted already. A label opens a block, and so does
a call that may unwind and the slow path of a guest access: the block that calls
is where a resumed run comes back in.

What an op computes is left open here; an op carries the registers it reads and
writes. A helper call that inline code replaces (`tcg_wasm_out_fp_inline`,
`tcg_wasm_out_simd_inline`) is a plain op. Code that another block is entered with
(`tcg_wasm_out_chain`) is not part of this block's control flow. The words' addresses
and the constant pool are in `GenCode`, the module around the function in `WasmModule`.
-/

namespace Bootbox.Tcg.Blocks

open Lib FlatControl Patch

/-- The registers an op reads and writes. `R14` and `R15` are reserved: the
register allocator never gives them out. -/
structure Operands where
  ins : List Reg
  outs : List (Fin 14)
  deriving DecidableEq, Repr

/-- An op of a block after register allocation, its kind `α` left open. A plain op
takes `parts` words of bytecode before its last one. -/
inductive Op (α : Type)
  | plain (a : α) (o : Operands) (parts : ℕ)
  | setLabel (l : ℕ)
  | br (l : ℕ)
  | brcond (a : α) (ins : List Reg) (l : ℕ)
  | call (a : α) (o : Operands) (noSideEffects : Bool)
  | qemuLdst (a : α) (o : Operands)
  | exitTb (arg : BitVec 32)
  | gotoTb (which : Fin 2)
  | gotoPtr (r : Reg)
  deriving DecidableEq, Repr

variable {α : Type}

/-! The bytecode. -/

/-- A word of bytecode. `part` is a word of a longer op before its last one. -/
inductive TciWord (α : Type)
  | part
  | plain (a : α) (o : Operands)
  | setcond (a : α) (ins : List Reg)
  | brcond (disp : BitVec 20)
  | br (disp : BitVec 20)
  | call (a : α) (o : Operands)
  | qemuLdst (a : α) (o : Operands)
  | exitTb (arg : BitVec 32)
  | gotoTb (which : Fin 2)
  | gotoPtr (r : Reg)
  deriving DecidableEq, Repr

/-- The words of an op. `disp i l` is the distance field of the `i`-th of them, a
branch to `l`. -/
def tciOut (disp : ℕ → ℕ → BitVec 20) : Op α → List (TciWord α)
  | .plain a o parts => List.replicate parts .part ++ [.plain a o]
  | .setLabel _ => []
  | .br l => [.br (disp 0 l)]
  | .brcond a ins l => [.setcond a ins, .brcond (disp 1 l)]
  | .call a o _ => [.call a o]
  | .qemuLdst a o => [.qemuLdst a o]
  | .exitTb arg => [.exitTb arg]
  | .gotoTb which => [.gotoTb which]
  | .gotoPtr r => [.gotoPtr r]

/-- `tcg_out_reloc`: the words of an op whose distance is patched in later. -/
def tciRelocs : Op α → List (ℕ × ℕ)
  | .br l => [(0, l)]
  | .brcond _ _ l => [(1, l)]
  | _ => []

/-- The distance in bytes from behind the word at `pos` to the word at `value`. -/
def relocDiff (value pos : ℕ) : ℤ := 4 * value - 4 * (pos + 1)

/-- `patch_reloc`, the deposit into the word. -/
def patchReloc (value : ℕ → ℕ) (pos l : ℕ) : TciWord α → TciWord α
  | .br _ => .br (BitVec.ofInt 20 (relocDiff (value l) pos))
  | .brcond _ => .brcond (BitVec.ofInt 20 (relocDiff (value l) pos))
  | w => w

/-- `patch_reloc`, the test that the distance fits. -/
def relocFits (value : ℕ → ℕ) (p : ℕ × ℕ) : Bool :=
  decide ((BitVec.ofInt 20 (relocDiff (value p.2) p.1)).toInt = relocDiff (value p.2) p.1)

/-! The wasm function. -/

/-- The plain instruction sequences of the function, each named for what it does. -/
inductive WAct (α : Type)
  /-- The op itself. -/
  | plain (a : α) (o : Operands)
  /-- Evaluate a condition; the `if` that follows takes it. -/
  | cond (a : α) (ins : List Reg)
  /-- `gen_func_wrapper_code`. -/
  | callHelper (a : α) (o : Operands)
  /-- `tcg_wasm_out_tlb_load`, then `done_flag = 0` on a miss and the direct access
  otherwise. -/
  | probe (a : α) (o : Operands)
  /-- Push the arguments, call the slow-path helper, set the data register. -/
  | callSlow (a : α) (o : Operands)
  /-- `i64.const`, by its bytes, and `tcg_wasm_out_bp_set`. -/
  | bpConst (bytes : List (BitVec 8))
  /-- `global.set BLOCK_PTR_IDX` before a block that may unwind. -/
  | setResume (block : ℕ)
  | clearUnwinding
  /-- `tcg_wasm_out_spill_regs`. -/
  | spill (rs : List (Fin 14))
  | loadJmpTarget (which : Fin 2)
  | storeTbPtr
  | storeTbPtrReg (r : Reg)
  | clearTbPtr
  | setDoInit
  deriving DecidableEq, Repr

/-- The conditions of the function's `if`s. -/
inductive WTest
  | top
  | bpEqz
  | bpLe (block : ℕ)
  | baseEqz
  | unwound
  | notDone
  | targetNeZero
  | targetIsTb
  | ptrIsTb (r : Reg)
  deriving DecidableEq, Repr

abbrev WTok (α : Type) := Tok (WAct α) WTest (BitVec 32)

/-- What the generator remembers from op to op: `wasm_block_idx`, `current_label`
and `regs_written`. -/
structure GenCtx where
  blockIdx : ℕ
  currentLabel : List ℕ
  regsWritten : List (Fin 14)

/-- `tcg_out_init`. -/
def GenCtx.init : GenCtx := ⟨0, [], []⟩

/-- `tcg_wasm_out_op_global_set_r` has been emitted for these registers. -/
def GenCtx.wrote (g : GenCtx) (outs : List (Fin 14)) : GenCtx :=
  { g with regsWritten := g.regsWritten ++ outs }

def openBlock (block : ℕ) : List (WTok α) := [.fin, .ifT (.bpLe block)]

/-- `tcg_wasm_out_spill_regs`: every register written so far, in register order. -/
def spillRegs (regLocals : Bool) (g : GenCtx) : List (Fin 14) :=
  if regLocals then (List.finRange 14).filter (· ∈ g.regsWritten) else []

/-- `tcg_wasm_out_op_br_to_label`. `ph` gives the bytes of the block number. -/
def tcgWasmOutOpBrToLabel (ph : ℕ → List (BitVec 8)) (g : GenCtx) (l : ℕ) (brIf : Bool) :
    List (WTok α) :=
  let toploopDepth := if brIf then 2 else 1
  let jump : List (WTok α) :=
    [.act (.bpConst (ph l)),
      .br (if l ∈ g.currentLabel then toploopDepth else toploopDepth - 1)]
  if brIf then .ifT .top :: (jump ++ [.fin]) else jump

def callBlock (regLocals : Bool) (g : GenCtx) (a : α) (o : Operands) : List (WTok α) :=
  [.act .clearUnwinding, .act (.spill (spillRegs regLocals g)), .act (.callHelper a o),
    .ifT .unwound, .ret 0#32, .fin]

def tcgWasmOutCall (regLocals : Bool) (g : GenCtx) (a : α) (o : Operands) (noSideEffects : Bool) :
    List (WTok α) :=
  if regLocals && noSideEffects then [.act (.callHelper a o)]
  else
    .act (.setResume (g.blockIdx + 1)) ::
      (openBlock (g.blockIdx + 1) ++ callBlock regLocals g a o)

/-- The block of a guest access's slow path. The direct access has been emitted, so
its data register counts as written. -/
def slowBlock (regLocals : Bool) (g : GenCtx) (a : α) (o : Operands) : List (WTok α) :=
  [.ifT .baseEqz, .act (.spill (spillRegs regLocals (g.wrote o.outs))), .act (.callSlow a o),
    .ifT .notDone, .ret 0#32, .fin, .fin]

/-- `tcg_wasm_out_qemu_ld` and `tcg_wasm_out_qemu_st`. -/
def tcgWasmOutQemuLdst (regLocals : Bool) (g : GenCtx) (a : α) (o : Operands) : List (WTok α) :=
  .act (.probe a o) :: .act (.setResume (g.blockIdx + 1)) ::
    (openBlock (g.blockIdx + 1) ++ slowBlock regLocals g a o)

/-- `i64.const 0` -/
def zeroBytes : List (BitVec 8) := [0x00#8]

def tcgWasmOutExitTb (arg : BitVec 32) : List (WTok α) := [.act .clearTbPtr, .ret arg]

def tcgWasmOutGotoPtr (r : Reg) : List (WTok α) :=
  [.ifT (.ptrIsTb r), .act (.bpConst zeroBytes), .br 2, .fin,
    .act (.storeTbPtrReg r), .act .setDoInit, .ret 0#32]

def tcgWasmOutGotoTb (which : Fin 2) : List (WTok α) :=
  [.act (.loadJmpTarget which), .ifT .targetNeZero,
    .ifT .targetIsTb, .act (.bpConst zeroBytes), .br 3, .fin,
    .act .storeTbPtr, .act .setDoInit, .ret 0#32, .fin]

def wasmOut (regLocals : Bool) (ph : ℕ → List (BitVec 8)) (g : GenCtx) : Op α → List (WTok α)
  | .plain a o _ => [.act (.plain a o)]
  | .setLabel _ => openBlock (g.blockIdx + 1)
  | .br l => tcgWasmOutOpBrToLabel ph g l false
  | .brcond a ins l => .act (.cond a ins) :: tcgWasmOutOpBrToLabel ph g l true
  | .call a o noSideEffects => tcgWasmOutCall regLocals g a o noSideEffects
  | .qemuLdst a o => tcgWasmOutQemuLdst regLocals g a o
  | .exitTb arg => tcgWasmOutExitTb arg
  | .gotoTb which => tcgWasmOutGotoTb which
  | .gotoPtr r => tcgWasmOutGotoPtr r

/-- `wasm_add_label_block_ptr_placeholder`: where in the op's code a block number is
to be filled in, with the index `l->id + 1` of its label. -/
def wasmPlaceholders : Op α → List (ℕ × ℕ)
  | .br l => [(0, l + 1)]
  | .brcond _ _ l => [(2, l + 1)]
  | _ => []

def Op.opensBlock (regLocals : Bool) : Op α → Bool
  | .setLabel _ => true
  | .call _ _ noSideEffects => !(regLocals && noSideEffects)
  | .qemuLdst _ _ => true
  | _ => false

def Op.outs : Op α → List (Fin 14)
  | .plain _ o _ => o.outs
  | .call _ o _ => o.outs
  | .qemuLdst _ o => o.outs
  | _ => []

def Op.labels : Op α → List ℕ
  | .setLabel l => [l]
  | _ => []

def GenCtx.after (regLocals : Bool) (g : GenCtx) (op : Op α) : GenCtx where
  blockIdx := g.blockIdx + (op.opensBlock regLocals).toNat
  currentLabel := g.currentLabel ++ op.labels
  regsWritten := g.regsWritten ++ op.outs

/-! The generator. -/

/-- What has been emitted so far: both codes, where each is to be patched, and the
labels' addresses (`l->u.value`) and blocks (`label_to_block`). -/
structure Out (α : Type) where
  words : List (TciWord α)
  relocs : List (ℕ × ℕ)
  value : ℕ → Option ℕ
  code : List (WTok α)
  placeholders : List (ℕ × ℕ)
  labelToBlock : ℕ → Option ℕ
  ctx : GenCtx

def Out.init : Out α := ⟨[], [], fun _ => none, [], [], fun _ => none, .init⟩

def labelMax : ℕ := 200

/-- The size of `current_label`. -/
def currentLabelMax : ℕ := 100

/-- The number of bytes `gen_insn_end_off` can express. -/
def uint16Max : ℕ := 65535

/-- A block number to be filled in: `80 80 80 80 00`. -/
def placeholder : List (BitVec 8) := Leb128.blank 4

/-- `tcg_raise_tb_overflow` in the tables of labels and placeholders. -/
def tableOverflow (out : Out α) : Op α → Bool
  | .setLabel l => decide (currentLabelMax ≤ out.ctx.currentLabel.length ∨ labelMax ≤ l + 1)
  | .br l => decide (labelMax ≤ out.placeholders.length ∨ labelMax ≤ l + 1)
  | .brcond _ _ l => decide (labelMax ≤ out.placeholders.length ∨ labelMax ≤ l + 1)
  | _ => false

def Out.emit (regLocals : Bool) (out : Out α) (op : Op α) : Out α where
  words := out.words ++ tciOut (fun _ _ => 0#20) op
  relocs := out.relocs ++ shift out.words.length (tciRelocs op)
  value := fun l => if l ∈ op.labels then some out.words.length else out.value l
  code := out.code ++ wasmOut regLocals (fun _ => placeholder) out.ctx op
  placeholders := out.placeholders ++ shift out.code.length (wasmPlaceholders op)
  labelToBlock := fun i =>
    if i ∈ op.labels.map (· + 1) then some (out.ctx.blockIdx + 1) else out.labelToBlock i
  ctx := out.ctx.after regLocals op

/-- One turn of the loop of `tcg_gen_code`. -/
def genOp (regLocals : Bool) (out : Out α) (op : Op α) : Option (Out α) :=
  if tableOverflow out op then none
  else if uint16Max < 4 * (out.emit regLocals op).words.length then none
  else some (out.emit regLocals op)

/-- The bytes of a placeholder once its block is known: the first is written again,
then `fill_uint32_leb128` ors the number in. -/
def fillPlaceholder (labelToBlock : ℕ → Option ℕ) (i : ℕ) : WTok α → WTok α
  | .act (.bpConst (_ :: bytes)) =>
    .act (.bpConst (Leb128.fill (0x80#8 :: bytes) ((labelToBlock i).getD 0)))
  | t => t

/-- What closes the function: `end if`, `end loop`, `unreachable`, `end func`. -/
def funcTail : List (WTok α) := [.fin, .fin, .unreachable, .fin]

structure TbCode (α : Type) where
  words : List (TciWord α)
  body : List (WTok α)

/-- `tcg_gen_code`. The function's header ends with the loop and the guard of the
first block. -/
def tcgGenCode (regLocals : Bool) (ops : List (Op α)) : Option (TbCode α) := do
  let out ← ops.foldlM (genOp regLocals) .init
  let value := fun l => (out.value l).getD 0
  if out.relocs.all (relocFits value) then
    some {
      words := patchAll (patchReloc value) out.relocs out.words
      body := .loop :: .ifT .bpEqz ::
        (patchAll (fun _ => fillPlaceholder out.labelToBlock) out.placeholders out.code
          ++ funcTail) }
  else none

end Bootbox.Tcg.Blocks
