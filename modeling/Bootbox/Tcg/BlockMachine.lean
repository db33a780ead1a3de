import Bootbox.Tcg.Blocks

/-!
Three machines that run a translation block: the op list itself, which says what a
block means, the TCI interpreter on its bytecode, and the wasm function, re-entered
for as long as a call in it unwinds.

What the ops compute, the helpers do and memory is, is a parameter. Each machine
keeps a log of the ops it has executed, with the values they were given.
-/

namespace Bootbox.Tcg.Blocks

open Lib FlatControl

/-- What a helper does. It returns, or it unwinds the stack, with junk for a result,
and goes on from where it was when its caller calls it again. -/
inductive Outcome (M : Type)
  | done (results : List (BitVec 64)) (m : M)
  | unwind (junk : List (BitVec 64)) (m : M) (resume : M → Outcome M)

def Outcome.isDone {M : Type} : Outcome M → Bool
  | .done _ _ => true
  | .unwind _ _ _ => false

/-- The result of a helper that is resumed until it returns. -/
def Outcome.finish {M : Type} : Outcome M → List (BitVec 64) × M
  | .done results m => (results, m)
  | .unwind _ m resume => (resume m).finish

/-- What the ops of a block do, given the values of the registers they read. -/
structure OpSem (α M : Type) where
  plain : α → List (BitVec 64) → M → List (BitVec 64) × M
  cond : α → List (BitVec 64) → Bool
  helper : α → List (BitVec 64) → M → Outcome M
  /-- The access on a TLB hit. -/
  direct : α → List (BitVec 64) → M → Option (List (BitVec 64) × M)
  slow : α → List (BitVec 64) → M → Outcome M
  /-- The slot a `goto_tb` jumps through. -/
  jmpTarget : Fin 2 → M → BitVec 32

structure Event (α : Type) where
  op : α
  args : List (BitVec 64)
  deriving DecidableEq

def readAll (ins : List Reg) (regs : RegFile) : List (BitVec 64) := ins.map regs

def outReg (r : Fin 14) : Reg := r.castLE (by decide)

def writeAll : List (Fin 14) → List (BitVec 64) → RegFile → RegFile
  | [], _, regs => regs
  | r :: rs, vs, regs => writeAll rs vs.tail (Function.update regs (outReg r) (vs.headD 0))

variable {α M : Type}

structure Data (α M : Type) where
  regs : RegFile
  mem : M
  log : List (Event α)

/-- The state after an op that has written its results. -/
def Data.put (d : Data α M) (a : α) (o : Operands) (res : List (BitVec 64) × M) : Data α M where
  regs := writeAll o.outs res.1 d.regs
  mem := res.2
  log := d.log ++ [⟨a, readAll o.ins d.regs⟩]

/-- How a block is left: what `ctx.tb_ptr` then holds, zero to leave the
dispatcher, and the value returned. -/
structure Exit where
  tbPtr : BitVec 32
  ret : BitVec 32
  deriving DecidableEq

structure Final (α M : Type) where
  exit : Exit
  mem : M
  log : List (Event α)

/-! The op list. -/

def labelAt (ops : List (Op α)) (l : ℕ) : Option ℕ :=
  ops.findIdx? fun op => decide (l ∈ op.labels)

structure OpCfg (α M : Type) where
  pc : ℕ
  data : Data α M

def jumpTo (ops : List (Op α)) (l : ℕ) (d : Data α M) :
    OpCfg α M ⊕ Option (Final α M) :=
  match labelAt ops l with
  | some p => .inl ⟨p + 1, d⟩
  | none => .inr none

def handOver (this target : BitVec 32) (d : Data α M) : OpCfg α M ⊕ Option (Final α M) :=
  if target = this then .inl ⟨0, d⟩ else .inr (some ⟨⟨target, 0#32⟩, d.mem, d.log⟩)

/-- One op. A call counts as one op, however often it unwinds. -/
def opStep (S : OpSem α M) (this : BitVec 32) (ops : List (Op α)) (c : OpCfg α M) :
    OpCfg α M ⊕ Option (Final α M) :=
  let d := c.data
  match ops[c.pc]? with
  | none => .inr none
  | some (.plain a o _) => .inl ⟨c.pc + 1, d.put a o (S.plain a (readAll o.ins d.regs) d.mem)⟩
  | some (.setLabel _) => .inl ⟨c.pc + 1, d⟩
  | some (.br l) => jumpTo ops l d
  | some (.brcond a ins l) =>
    let d' := { d with log := d.log ++ [⟨a, readAll ins d.regs⟩] }
    if S.cond a (readAll ins d.regs) then jumpTo ops l d' else .inl ⟨c.pc + 1, d'⟩
  | some (.call a o _) =>
    .inl ⟨c.pc + 1, d.put a o (S.helper a (readAll o.ins d.regs) d.mem).finish⟩
  | some (.qemuLdst a o) =>
    let args := readAll o.ins d.regs
    .inl ⟨c.pc + 1, d.put a o ((S.direct a args d.mem).getD (S.slow a args d.mem).finish)⟩
  | some (.exitTb arg) => .inr (some ⟨⟨0#32, arg⟩, d.mem, d.log⟩)
  | some (.gotoTb which) =>
    let target := S.jmpTarget which d.mem
    if target = 0#32 then .inl ⟨c.pc + 1, d⟩ else handOver this target d
  | some (.gotoPtr r) => handOver this (lo (d.regs r)) d

/-! The interpreter. -/

/-- The word to be executed next, whether `TCG_REG_TMP` is not zero, and the state. -/
structure TciCfg (α M : Type) where
  pc : ℕ
  tmp : Bool
  data : Data α M

/-- The word at a distance from behind the one at `pc`. -/
def tciTarget (pc : ℕ) (disp : BitVec 20) : ℕ := ((4 * (pc + 1) + disp.toInt) / 4).toNat

/-- Leave for another block. `tb_ptr` is set first; that the interpreter goes on in
the block's own bytecode, or has the dispatcher enter it, is the same to a block
that starts over. -/
def tciHandOver (this target : BitVec 32) (c : TciCfg α M) : TciCfg α M ⊕ Option (Final α M) :=
  if target = this then .inl ⟨0, c.tmp, c.data⟩
  else .inr (some ⟨⟨target, 0#32⟩, c.data.mem, c.data.log⟩)

def tciStep (S : OpSem α M) (this : BitVec 32) (words : List (TciWord α)) (c : TciCfg α M) :
    TciCfg α M ⊕ Option (Final α M) :=
  let d := c.data
  match words[c.pc]? with
  | none => .inr none
  | some .part => .inl ⟨c.pc + 1, c.tmp, d⟩
  | some (.plain a o) =>
    .inl ⟨c.pc + 1, c.tmp, d.put a o (S.plain a (readAll o.ins d.regs) d.mem)⟩
  | some (.setcond a ins) =>
    .inl ⟨c.pc + 1, S.cond a (readAll ins d.regs),
      { d with log := d.log ++ [⟨a, readAll ins d.regs⟩] }⟩
  | some (.brcond disp) =>
    .inl ⟨if c.tmp then tciTarget c.pc disp else c.pc + 1, c.tmp, d⟩
  | some (.br disp) => .inl ⟨tciTarget c.pc disp, c.tmp, d⟩
  | some (.call a o) =>
    .inl ⟨c.pc + 1, c.tmp, d.put a o (S.helper a (readAll o.ins d.regs) d.mem).finish⟩
  | some (.qemuLdst a o) =>
    let args := readAll o.ins d.regs
    .inl ⟨c.pc + 1, c.tmp,
      d.put a o ((S.direct a args d.mem).getD (S.slow a args d.mem).finish)⟩
  | some (.exitTb arg) => .inr (some ⟨⟨0#32, arg⟩, d.mem, d.log⟩)
  | some (.gotoTb which) =>
    let target := S.jmpTarget which d.mem
    if target = 0#32 then .inl ⟨c.pc + 1, c.tmp, d⟩ else tciHandOver this target c
  | some (.gotoPtr r) =>
    if lo (d.regs r) = 0#32 then .inr (some ⟨⟨0#32, 0#32⟩, d.mem, d.log⟩)
    else tciHandOver this (lo (d.regs r)) c

/-! The wasm function. -/

/-- The variables of a function: the registers and the block pointer as locals and
as the module's globals, whether the local that holds the host address of a guest
access is zero, the operand of a conditional branch's `if`, `TMP32_LOCAL_0_IDX`; the
context; memory; and the helper that has unwound, if one has. -/
structure WSt (α M : Type) where
  locals : RegFile
  globals : RegFile
  bpLocal : ℕ
  bpGlobal : ℕ
  baseZero : Bool
  top : Bool
  tmp0 : BitVec 32
  tbPtr : BitVec 32
  doInit : Bool
  doneFlag : Bool
  unwinding : Bool
  mem : M
  log : List (Event α)
  pending : Option (M → Outcome M)

/-- What stays the same through a run: the mode, the block's own address, and the
context's `env` and `stack`. -/
structure WEnv where
  regLocals : Bool
  this : BitVec 32
  this_ne_zero : this ≠ 0#32
  env : BitVec 64
  stack : BitVec 64

namespace WSt

def regs (regLocals : Bool) (st : WSt α M) : RegFile :=
  if regLocals then st.locals else st.globals

def setRegs (regLocals : Bool) (st : WSt α M) (regs : RegFile) : WSt α M :=
  if regLocals then { st with locals := regs } else { st with globals := regs }

/-- The state after an op that has written its results. -/
def put (regLocals : Bool) (st : WSt α M) (o : Operands) (res : List (BitVec 64) × M)
    (log : List (Event α)) : WSt α M :=
  { st.setRegs regLocals (writeAll o.outs res.1 (st.regs regLocals)) with
    mem := res.2, log := log }

/-- `tcg_wasm_out_bp_get` -/
def bp (regLocals : Bool) (st : WSt α M) : ℕ :=
  if regLocals then st.bpLocal else st.bpGlobal

/-- `tcg_wasm_out_bp_set` -/
def setBp (regLocals : Bool) (st : WSt α M) (block : ℕ) : WSt α M :=
  if regLocals then { st with bpLocal := block } else { st with bpGlobal := block }

end WSt

/-- A call of a helper, or its continuation if one has unwound: what it does, and
the log with the call that was begun. -/
def attempt (st : WSt α M) (a : α) (args : List (BitVec 64)) (begin : M → Outcome M) :
    Outcome M × List (Event α) :=
  match st.pending with
  | none => (begin st.mem, st.log ++ [⟨a, args⟩])
  | some resume => (resume st.mem, st.log)

/-- What a call leaves: the result registers are written in either case, and a
helper that unwinds sets the unwinding flag. -/
def settle (regLocals : Bool) (st : WSt α M) (o : Operands) :
    Outcome M × List (Event α) → WSt α M
  | (.done results m, log) => { st.put regLocals o (results, m) log with pending := none }
  | (.unwind junk m resume, log) =>
    { st.put regLocals o (junk, m) log with pending := some resume, unwinding := true }

def spill (rs : List (Fin 14)) (st : WSt α M) : WSt α M :=
  { st with globals := fun r => if ∃ s ∈ rs, outReg s = r then st.locals r else st.globals r }

/-- The number that the bytes of a constant are. -/
def blockOf (bytes : List (BitVec 8)) : ℕ :=
  (((WasmBinary.signed 64).run bytes).elim 0 (·.1) % 2 ^ 64).toNat

def wasmAct (S : OpSem α M) (regLocals : Bool) (act : WAct α) (st : WSt α M) : WSt α M :=
  let regs := st.regs regLocals
  match act with
  | .plain a o =>
    let args := readAll o.ins regs
    st.put regLocals o (S.plain a args st.mem) (st.log ++ [⟨a, args⟩])
  | .cond a ins =>
    let args := readAll ins regs
    { st with top := S.cond a args, log := st.log ++ [⟨a, args⟩] }
  | .callHelper a o =>
    let args := readAll o.ins regs
    settle regLocals st o (attempt st a args (S.helper a args))
  | .probe a o =>
    let args := readAll o.ins regs
    match S.direct a args st.mem with
    | some res => { st.put regLocals o res (st.log ++ [⟨a, args⟩]) with baseZero := false }
    | none => { st with baseZero := true, doneFlag := false }
  | .callSlow a o =>
    let args := readAll o.ins regs
    let res := attempt st a args (S.slow a args)
    -- `set_done_flag` is the last thing the helper does
    { settle regLocals st o res with doneFlag := st.doneFlag || res.1.isDone }
  | .bpConst bytes => st.setBp regLocals (blockOf bytes)
  | .setResume block => { st with bpGlobal := block }
  | .clearUnwinding => { st with unwinding := false }
  | .spill rs => spill rs st
  | .loadJmpTarget which => { st with tmp0 := S.jmpTarget which st.mem }
  | .storeTbPtr => { st with tbPtr := st.tmp0 }
  | .storeTbPtrReg r => { st with tbPtr := lo (regs r) }
  | .clearTbPtr => { st with tbPtr := 0#32 }
  | .setDoInit => { st with doInit := true }

def wasmTest (regLocals : Bool) (t : WTest) (st : WSt α M) : Bool :=
  match t with
  | .top => st.top
  | .bpEqz => decide (st.bp regLocals = 0)
  | .bpLe block => decide (st.bp regLocals ≤ block)
  | .baseEqz => st.baseZero
  | .unwound => st.unwinding
  | .notDone => !st.doneFlag
  | .targetNeZero => decide (st.tmp0 ≠ 0#32)
  | .targetIsTb => decide (st.tmp0 = st.tbPtr)
  | .ptrIsTb r => decide (lo (st.regs regLocals r) = st.tbPtr)

def wasmSem (S : OpSem α M) (regLocals : Bool) : Sem (WAct α) WTest (WSt α M) where
  act := wasmAct S regLocals
  test := wasmTest regLocals

/-- The registers of a function that is entered: locals start out as zero, but for
`R14` and `R15`. -/
def freshLocals (E : WEnv) : RegFile := fun r =>
  if r = 14 then E.env else if r = 15 then E.stack else 0#64

/-- The function's header up to the loop. With register locals `R0` to `R13` and the
block pointer come back from the globals unless `do_init` is set; in the all-globals
code (`mod_header_d`) they are where they were. The hand-off to another block of a
chain that has unwound (`mod_header_d_loc_chain`) is left out. -/
def enter (E : WEnv) (st : WSt α M) : WSt α M :=
  let st := { st with baseZero := true, top := false, tmp0 := 0#32 }
  if E.regLocals then
    if st.doInit then { st with locals := freshLocals E, bpLocal := 0, doInit := false }
    else
      { st with
        locals := fun r => if r.val < 14 then st.globals r else freshLocals E r
        bpLocal := st.bpGlobal }
  else if st.doInit then
    let globals := if st.globals 14 = 0#64 then
      Function.update (Function.update st.globals 14 E.env) 15 E.stack else st.globals
    { st with globals := globals, bpGlobal := 0, doInit := false }
  else st

abbrev WCfg (α M : Type) := Cfg (WAct α) WTest (BitVec 32) (WSt α M)

/-- One instruction of the function. A return with a helper pending unwinds the
whole stack; rewinding calls the function again. -/
def wasmStep (S : OpSem α M) (E : WEnv) (body : List (WTok α)) (c : WCfg α M) :
    WCfg α M ⊕ Option (Final α M) :=
  match step (wasmSem S E.regLocals) c with
  | .inl c' => .inl c'
  | .inr none => .inr none
  | .inr (some (ret, st)) =>
    if st.pending.isSome then .inl ⟨body, [], enter E st⟩
    else .inr (some ⟨⟨st.tbPtr, ret⟩, st.mem, st.log⟩)

end Bootbox.Tcg.Blocks
