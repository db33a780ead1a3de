import Bootbox.Tcg.GuestAccess

/-!
Guest loads and stores in the generated code, compared with the interpreter. The
lookup is the same, with the addend zero-extended instead of sign-extended, which
cannot be told apart on a valid table. But the generated code takes the whole
address register where the guest's addresses have 32 bits.
-/

namespace Bootbox.Tcg

open Lib Wasm ByteMemory PageMask List BitVec Option

variable {φ : Type}

variable {x : BitVec 64}

/-- What the code generator has done so far in the translation block. -/
structure EmitCtx where
  wasmRegLocals : Bool
  regsWritten : List Reg
  envCached : Bool
  blockIdx : ℕ
  blockIdx_lt : blockIdx + 1 < 2 ^ 32

/-- A 64-bit load at an offset: a negative one is added to the address first. -/
def loadOfs (ofs : BitVec 32) : List (WInstr φ) :=
  if ofs.toInt < 0 then [.const32 ofs, .bin32 .add, .load64 8 false 0]
  else [.load64 8 false ofs.toNat]

/-- `tcg_wasm_out_spill_regs`. -/
def spillRegs (c : EmitCtx) : List (WInstr φ) :=
  if c.wasmRegLocals then
    (c.regsWritten.filter fun r => r ≠ 14 ∧ r ≠ 15).flatMap fun r => [getR r, .set64 (.saved r)]
  else []

/-- The global `BLOCK_PTR_IDX`: the block pointer itself, unless that is a local. -/
def blockPtrGlobal (c : EmitCtx) : Var64 := if c.wasmRegLocals then .resume else .bp

def doneFlagOff : ℕ := 20

variable (t : Target) (op : GuestOp) (c : EmitCtx)

/-- The start of `tcg_wasm_out_tlb_load`: the pointer to the selected entry. -/
def tlbEntryCode : List (WInstr φ) :=
  getR op.addrReg :: .const64 (BitVec.ofNat 64 (t.pageBits - cpuTlbEntryBits)) :: .bin64 .shrU ::
  (getEnv c.envCached ++ (loadOfs (maskOfs t op) ++
  (.set64 (.tmp 2) :: .get64 (.tmp 2) :: .bin64 .and ::
  (getEnv true ++ (loadOfs (tableOfs t op) ++
  [.bin64 .add, .wrap, .tee32 .tmp0])))))

/-- The constant added where the access is larger than its alignment. -/
def tlbCrossCode : List (WInstr φ) :=
  let aMask := 2 ^ op.a - 1
  let sMask := 2 ^ op.s - 1
  if aMask < sMask then [.const64 (BitVec.ofNat 64 (sMask - aMask)), .bin64 .add] else []

def tlbCompareCode : List (WInstr φ) :=
  .load64 8 false (compareOff op) :: getR op.addrReg ::
  (tlbCrossCode op ++
  [.const64 (pageMask 64 t.pageBits ||| BitVec.ofNat 64 (2 ^ op.a - 1)), .bin64 .and, .rel64 .eq,
   .const64 0#64, .set64 (.tmp 0)])

def tlbHitCode : List (WInstr φ) :=
  [.get32 .tmp0, .load32 addendOff, .extendU, getR op.addrReg, .bin64 .add, .set64 (.tmp 0)]

/-- `tcg_wasm_out_tlb_load`: the host address, or zero, in the first temporary. -/
def tcgWasmOutTlbLoad : WCode φ :=
  Code.append (Code.ofList (tlbEntryCode t op c ++ tlbCompareCode t op))
    (Code.ite (Code.ofList (tlbHitCode op)) .nil .nil)

/-- `tcg_wasm_out_qemu_ld_direct` and `tcg_wasm_out_qemu_st_direct`. -/
def directCode : List (WInstr φ) :=
  if op.isLd then
    [.get64 (.tmp 0), .wrap, .load64 op.oi.mop.size.bytes op.oi.mop.sign 0, setR op.dataReg]
  else
    [.get64 (.tmp 0), .wrap, getR op.dataReg, .store64 op.oi.mop.size.bytes 0]

def helperArgsCode (ra : BitVec 32) : List (WInstr φ) :=
  getR areg0 :: .wrap :: getR op.addrReg ::
  ((if op.isLd then [] else
    if op.oi.mop.size = .mo64 then [getR op.dataReg] else [getR op.dataReg, .wrap]) ++
  [.const32 op.oi.code, .const32 ra])

def helperCode (ra : BitVec 32) : List (WInstr MmuHelper) :=
  spillRegs c ++ (helperArgsCode op ra ++ (.call (mmuHelper op) ::
  ((if op.isLd then [setR op.dataReg] else []) ++ [.get32 .ctx, .load32 doneFlagOff, .eqz32])))

/-- The block that calls the helper if the lookup found nothing, and leaves the
function if the helper is not done. -/
def slowCode (ra : BitVec 32) : WCode MmuHelper :=
  Code.append (Code.ofList [.get64 (.tmp 0), .eqz64])
    (Code.ite
      (Code.append (Code.ofList (helperCode op c ra))
        (Code.ite (Code.cons (.const32 0#32) .ret) .nil .nil))
      .nil .nil)

def nextBlockCode : List (WInstr φ) :=
  [.const64 (BitVec.ofNat 64 (c.blockIdx + 1)), .set64 (blockPtrGlobal c),
   .get64 .bp, .const64 (BitVec.ofNat 64 (c.blockIdx + 1)), .rel64 .leU]

def accessCode : WCode φ :=
  Code.append (Code.ofList [.get64 (.tmp 0), .eqz64])
    (Code.ite (Code.ofList [.get32 .ctx, .const32 0#32, .store32 doneFlagOff])
      (Code.ofList (directCode op)) .nil)

/-- `tcg_wasm_out_qemu_ld` and `tcg_wasm_out_qemu_st`: the lookup and the direct
access end a block; a resumed call enters the block after it. -/
def tcgWasmOutQemuLdst (ra : BitVec 32) : WCode MmuHelper :=
  Code.append (tcgWasmOutTlbLoad t op c)
    (Code.append (accessCode op)
      (Code.append (Code.ofList (nextBlockCode c)) (Code.ite (slowCode op c ra) .nil .nil)))

/-! ### The state at an access -/

/-- A helper that ran to its end: a load helper returns a 64-bit value, and the
flag that it is done is set. -/
def HelperReturned (ctx : BitVec 32) (r : Option Value × Bytes) : Prop :=
  (if op.isLd then ∃ v, r.1 = some (.i64 v) else r.1 = none) ∧
    word32 r.2 (ctx.toNat + doneFlagOff) ≠ 0#32

/-- A state in which the generated code for an access may run. -/
structure AccessSetup where
  c : EmitCtx
  ra : BitVec 32
  rd : Reading
  host : Host MmuHelper
  st : WState MmuHelper
  tlb : Tlb t op st.mem st.size (lo (regsOf st areg0))
  ctx_le : (st.v32 .ctx).toNat + doneFlagOff + 4 ≤ st.size
  env_cached : c.envCached = true → st.v32 .env = lo (regsOf st areg0)
  bp_le : (st.v64 .bp).toNat ≤ c.blockIdx
  arity_eq : host.arity (mmuHelper op) = if op.isLd then 4 else 5
  returned : ∀ calls args m,
    HelperReturned op (st.v32 .ctx) (host.run calls (mmuHelper op) args m)

def directRegs (regs : RegFile) (m : Bytes) (host : BitVec 32) : RegFile :=
  if op.isLd then
    Function.update regs op.dataReg
      (extendLoaded op.oi.mop.size.bytes op.oi.mop.sign
        (leNat (load m host.toNat op.oi.mop.size.bytes)))
  else regs

def directMem (regs : RegFile) (m : Bytes) (host : BitVec 32) : Bytes :=
  if op.isLd then m
  else store m host.toNat (leBytes op.oi.mop.size.bytes (regs op.dataReg).toNat)

def slowRegs (regs : RegFile) : Option Value → RegFile
  | some (.i64 v) => Function.update regs op.dataReg v
  | _ => regs

variable {t op}

/-- The generated code does what the interpreter does: the same direct access,
which the table allows, or one call of the same helper with the same operands. -/
def AccessSetup.Agrees (a : AccessSetup t op) : Prop :=
  ∃ st', (tcgWasmOutQemuLdst t op a.c a.ra).exec a.host a.rd [] a.st = some (.next [] st') ∧
    match tciAccess t op (regsOf a.st) a.st.mem with
    | .direct host =>
      a.tlb.Allows (guestAddr op (regsOf a.st)) ∧ st'.calls = a.st.calls ∧
        regsOf st' = directRegs op (regsOf a.st) a.st.mem host ∧
        st'.mem = directMem op (regsOf a.st) a.st.mem host
    | .slow f args => ∃ ra m,
        st'.calls = a.st.calls ++ [(f, args ++ [ra])] ∧
          st'.mem = (a.host.run a.st.calls f (args ++ [ra]) m).2 ∧
          regsOf st' = slowRegs op (regsOf a.st) (a.host.run a.st.calls f (args ++ [ra]) m).1

/-! ### Running the generated code -/

structure SameState (st st' : WState φ) : Prop where
  regs : regsOf st' = regsOf st
  mem : st'.mem = st.mem
  size : st'.size = st.size
  calls : st'.calls = st.calls
  ctx : st'.v32 .ctx = st.v32 .ctx
  bp : st'.v64 .bp = st.v64 .bp

variable {st : WState φ}

theorem exec_loadOfs (host : Host φ) (rd : Reading) {env ofs : BitVec 32} {a : ℕ}
    (h : (env.toNat : ℤ) + ofs.toInt = a) (hle : a + 8 ≤ st.size) (hlt : a < 2 ^ 32)
    (stack : List Value) (rest : List (WInstr φ)) :
    (Code.ofList (loadOfs ofs ++ rest)).exec host rd (.i32 env :: stack) st =
      (Code.ofList rest).exec host rd (.i64 (word64 st.mem a) :: stack) st := by
  by_cases hneg : ofs.toInt < 0
  · have haddr := toNat_add_ofs hlt h
    have hfit : (env + ofs).toNat + 0 + 8 ≤ st.size := by omega
    rw [loadOfs, if_pos hneg]
    simp only [List.cons_append, List.nil_append, Code.ofList, Code.exec, Instr.exec, Value.as32,
      Option.bind_eq_bind, Option.bind_some, BinOp.eval, State.loadNat_of_le hfit]
    rw [haddr]
    rfl
  · have hofs : ofs.toInt = ofs.toNat := by
      rw [BitVec.toInt_eq_toNat_cond] at hneg ⊢
      have := ofs.isLt
      split at hneg <;> simp_all
    have haddr : env.toNat + ofs.toNat = a := by omega
    have hfit : env.toNat + ofs.toNat + 8 ≤ st.size := by omega
    rw [loadOfs, if_neg hneg]
    simp only [List.cons_append, List.nil_append, Code.ofList, Code.exec, Instr.exec, Value.as32,
      Option.bind_eq_bind, Option.bind_some, State.loadNat_of_le hfit]
    rw [haddr]
    rfl

theorem exec_getEnv (host : Host φ) (rd : Reading) {cached : Bool}
    (h : cached = true → st.v32 .env = lo (regsOf st areg0)) (stack : List Value)
    (rest : List (WInstr φ)) :
    ∃ st', (Code.ofList (getEnv cached ++ rest)).exec host rd stack st =
        (Code.ofList rest).exec host rd (.i32 (lo (regsOf st areg0)) :: stack) st' ∧
      SameState st st' ∧ st'.v32 .env = lo (regsOf st areg0) := by
  cases cached with
  | true =>
    refine ⟨st, ?_, ⟨rfl, rfl, rfl, rfl, rfl, rfl⟩, h rfl⟩
    rw [getEnv, if_pos rfl, ← h rfl]
    rfl
  | false =>
    refine ⟨st.set32 .env (lo (regsOf st areg0)), rfl, ⟨rfl, rfl, rfl, rfl, ?_, rfl⟩, ?_⟩
    · rw [State.set32_v32, if_neg (by decide)]
    · rw [State.set32_v32, if_pos rfl]

/-- The pointer to the entry that the whole address register selects. -/
theorem AccessSetup.exec_tlbEntryCode (a : AccessSetup t op) (rest : List (WInstr MmuHelper)) :
    ∃ st₁, (Code.ofList (tlbEntryCode t op a.c ++ rest)).exec a.host a.rd [] a.st =
        (Code.ofList rest).exec a.host a.rd
          [.i32 (entryPtr t a.st.mem a.tlb.desc (regsOf a.st op.addrReg))] st₁ ∧
      SameState a.st st₁ ∧
      st₁.v32 .tmp0 = entryPtr t a.st.mem a.tlb.desc (regsOf a.st op.addrReg) := by
  have hdesc := a.tlb.desc_le
  have hsize := a.tlb.size_le
  have hshift : (BitVec.ofNat 64 (t.pageBits - cpuTlbEntryBits)).toNat % 64 =
      t.pageBits - cpuTlbEntryBits := by
    have := t.pageBits_le
    rw [BitVec.toNat_ofNat]
    omega
  let x := regsOf a.st op.addrReg
  let env := lo (regsOf a.st areg0)
  let index := x >>> (t.pageBits - cpuTlbEntryBits)
  let maskWord := word64 a.st.mem a.tlb.desc
  let ptr := entryPtr t a.st.mem a.tlb.desc x
  let code₃ : List (WInstr MmuHelper) := [.bin64 .add, .wrap, .tee32 .tmp0] ++ rest
  let code₂ : List (WInstr MmuHelper) := getEnv true ++ (loadOfs (tableOfs t op) ++ code₃)
  let code₁ : List (WInstr MmuHelper) := .set64 (.tmp 2) :: .get64 (.tmp 2) :: .bin64 .and :: code₂
  obtain ⟨st₁, hexec₁, hsame₁, henv₁⟩ := exec_getEnv a.host a.rd a.env_cached [.i64 index]
    (loadOfs (maskOfs t op) ++ code₁)
  have hmask : (Code.ofList (loadOfs (maskOfs t op) ++ code₁)).exec a.host a.rd
      [.i32 env, .i64 index] st₁ = (Code.ofList code₁).exec a.host a.rd
        [.i64 maskWord, .i64 index] st₁ := by
    rw [exec_loadOfs a.host a.rd a.tlb.mask_at (by rw [hsame₁.size]; omega) (by omega),
      hsame₁.mem]
  let st₂ := st₁.set64 (.tmp 2) maskWord
  have henv₂ : true = true → st₂.v32 .env = lo (regsOf st₂ areg0) := by
    intro _
    show st₁.v32 .env = _
    rw [henv₁, regsOf_set64_tmp, hsame₁.regs]
  obtain ⟨st₃, hexec₃, hsame₃, -⟩ := exec_getEnv a.host a.rd henv₂ [.i64 (index &&& maskWord)]
    (loadOfs (tableOfs t op) ++ code₃)
  have hmem₃ : st₃.mem = a.st.mem := hsame₃.mem.trans hsame₁.mem
  have htable : (Code.ofList (loadOfs (tableOfs t op) ++ code₃)).exec a.host a.rd
      [.i32 env, .i64 (index &&& maskWord)] st₃ = (Code.ofList code₃).exec a.host a.rd
        [.i64 (word64 a.st.mem (a.tlb.desc + 4)), .i64 (index &&& maskWord)] st₃ := by
    have hsize₃ : st₃.size = a.st.size := hsame₃.size.trans hsame₁.size
    rw [exec_loadOfs a.host a.rd a.tlb.table_at (by rw [hsize₃]; omega) (by omega), hmem₃]
  have hregs₃ : regsOf st₂ = regsOf a.st := by rw [regsOf_set64_tmp, hsame₁.regs]
  refine ⟨st₃.set32 .tmp0 ptr, ?_, ⟨?_, hmem₃, hsame₃.size.trans hsame₁.size,
    hsame₃.calls.trans hsame₁.calls, ?_, ?_⟩, ?_⟩
  · calc (Code.ofList (tlbEntryCode t op a.c ++ rest)).exec a.host a.rd [] a.st
        = (Code.ofList (getEnv a.c.envCached ++ (loadOfs (maskOfs t op) ++ code₁))).exec
            a.host a.rd [.i64 index] a.st := by
          simp only [tlbEntryCode, List.cons_append, List.append_assoc, Code.ofList, Code.exec,
            Instr.exec, getR, v64_reg, Value.as64, Option.bind_eq_bind, Option.bind_some,
            BinOp.eval, hshift]
          rfl
      _ = (Code.ofList code₁).exec a.host a.rd [.i64 maskWord, .i64 index] st₁ := by
          rw [hexec₁, ← hmask]
      _ = (Code.ofList code₂).exec a.host a.rd [.i64 (index &&& maskWord)] st₂ := by
          simp only [code₁, Code.ofList, Code.exec, Instr.exec, Value.as64, Option.bind_eq_bind,
            Option.bind_some, BinOp.eval, tmp_set64_tmp, if_true]
          rfl
      _ = (Code.ofList code₃).exec a.host a.rd
            [.i64 (word64 a.st.mem (a.tlb.desc + 4)), .i64 (index &&& maskWord)] st₃ := by
          rw [← htable, hexec₃, hregs₃]
      _ = _ := rfl
  · rw [regsOf_set32, hsame₃.regs, hregs₃]
  · rw [State.set32_v32, if_neg (by decide), hsame₃.ctx]
    exact hsame₁.ctx
  · rw [State.set32_v64, hsame₃.bp, State.set64_v64, if_neg (by decide), hsame₁.bp]
  · rw [State.set32_v32, if_pos rfl]

theorem exec_tlbCrossCode (host : Host φ) (rd : Reading) (st : WState φ) (x : BitVec 64)
    (stack : List Value) (rest : List (WInstr φ)) :
    (Code.ofList (tlbCrossCode op ++ rest)).exec host rd (.i64 x :: stack) st =
      (Code.ofList rest).exec host rd (.i64 (comparedAddr x op.a op.s) :: stack) st := by
  have hpos := Nat.two_pow_pos op.a
  have hiff : 2 ^ op.a - 1 < 2 ^ op.s - 1 ↔ op.a < op.s := by
    rw [← Nat.pow_lt_pow_iff_right (show 1 < 2 by decide) (n := op.a)]
    omega
  rw [tlbCrossCode, comparedAddr]
  by_cases h : op.a < op.s
  · have hdiff : 2 ^ op.s - 1 - (2 ^ op.a - 1) = 2 ^ op.s - 2 ^ op.a := by omega
    simp only [if_pos (hiff.mpr h), if_pos h, hdiff]
    rfl
  · simp only [if_neg (mt hiff.mp h), if_neg h]
    rfl

/-- What the generated lookup leaves in the first temporary. -/
def AccessSetup.base (a : AccessSetup t op) : BitVec 64 :=
  let x := regsOf a.st op.addrReg
  if a.tlb.Hit x then (a.tlb.addend x).setWidth 64 + x else 0#64

theorem AccessSetup.exec_tlbLoad (a : AccessSetup t op) :
    ∃ st₁, (tcgWasmOutTlbLoad t op a.c).exec a.host a.rd [] a.st = some (.next [] st₁) ∧
      SameState a.st st₁ ∧ st₁.v64 (.tmp 0) = a.base := by
  let x := regsOf a.st op.addrReg
  have hptr := a.tlb.toNat_entryPtr x
  have hentry := a.tlb.entry_le x
  obtain ⟨st₁, hexec, hsame, htmp⟩ := a.exec_tlbEntryCode (tlbCompareCode t op)
  let st₂ := st₁.set64 (.tmp 0) 0#64
  have hsame₂ : SameState a.st st₂ := by
    refine { hsame with regs := ?_, bp := ?_ }
    · rw [regsOf_set64_tmp, hsame.regs]
    · rw [State.set64_v64, if_neg (by decide), hsame.bp]
  have hmatch : (Code.ofList (tlbCompareCode t op)).exec a.host a.rd
      [.i32 (entryPtr t a.st.mem a.tlb.desc x)] st₁ =
        some (.next [.i32 (ofBool (decide (a.tlb.Hit x)))] st₂) := by
    have hfit : (entryPtr t a.st.mem a.tlb.desc x).toNat + compareOff op + 8 ≤ st₁.size := by
      rw [hptr, hsame.size, compareOff]
      split <;> omega
    have hcmp : BitVec.ofNat 64 (leNat (load a.st.mem
        ((entryPtr t a.st.mem a.tlb.desc x).toNat + compareOff op) 8)) = a.tlb.cmp x := by
      rw [hptr]
      rfl
    have heq : RelOp.eq.eval (a.tlb.cmp x) (comparedAddr x op.a op.s &&&
        (pageMask 64 t.pageBits ||| alignMask 64 op.a)) = decide (a.tlb.Hit x) := by
      simp only [RelOp.eval, decide_eq_decide]
      exact eq_comm
    rw [tlbCompareCode]
    simp only [Code.ofList, Code.exec, Instr.exec, getR, v64_reg, Value.as32, Option.bind_eq_bind,
      Option.bind_some,
      State.loadNat_of_le hfit, extendLoaded, Bool.false_eq_true, if_false, hsame.mem, hcmp]
    rw [hsame.regs, exec_tlbCrossCode]
    simp only [Code.ofList, Code.exec, Instr.exec, Value.as64, Option.bind_eq_bind,
      Option.bind_some, BinOp.eval]
    rw [← heq]
    rfl
  have hcompare : (Code.ofList (tlbEntryCode t op a.c ++ tlbCompareCode t op)).exec a.host a.rd []
      a.st = some (.next [.i32 (ofBool (decide (a.tlb.Hit x)))] st₂) := hexec.trans hmatch
  rw [tcgWasmOutTlbLoad]
  by_cases hhit : a.tlb.Hit x
  · -- a match: load the addend
    have hfit : (st₂.v32 .tmp0).toNat + addendOff + 4 ≤ st₂.size := by
      show (st₁.v32 .tmp0).toNat + addendOff + 4 ≤ st₁.size
      rw [htmp, hptr, hsame.size, addendOff]
      omega
    have haddend : BitVec.ofNat 32 (leNat (load st₂.mem ((st₂.v32 .tmp0).toNat + addendOff) 4)) =
        a.tlb.addend x := by
      show word32 st₁.mem ((st₁.v32 .tmp0).toNat + addendOff) = _
      rw [htmp, hptr, hsame.mem]
      rfl
    refine ⟨st₂.set64 (.tmp 0) a.base, ?_, { hsame with regs := ?_, bp := ?_ }, by simp⟩
    · have hbase : a.base = (a.tlb.addend x).setWidth 64 + x := if_pos hhit
      refine (Code.exec_seq hcompare _).trans ?_
      rw [Code.exec_ite_nil, if_pos (by simpa using hhit), hbase]
      simp only [tlbHitCode, Code.ofList, Code.exec, Instr.exec, getR, v64_reg, Value.as32,
        Value.as64, Option.bind_eq_bind, Option.bind_some, State.loadNat_of_le hfit, haddend,
        BinOp.eval, hsame₂.regs]
      rfl
    · rw [regsOf_set64_tmp, hsame₂.regs]
    · rw [State.set64_v64, if_neg (by decide), hsame₂.bp]
  · refine ⟨st₂, ?_, hsame₂, ?_⟩
    · refine (Code.exec_seq hcompare _).trans ?_
      rw [Code.exec_ite_nil, if_neg (by simpa using hhit)]
      rfl
    · have hbase : a.base = 0#64 := if_neg hhit
      rw [hbase]
      simp [st₂]

theorem exec_eqz (host : Host φ) (rd : Reading) {b : BitVec 64} (h : st.v64 (.tmp 0) = b) :
    (Code.ofList [.get64 (.tmp 0), .eqz64]).exec host rd [] st =
      some (.next [.i32 (ofBool (decide (b = 0)))] st) := by
  rw [← h]
  rfl

theorem exec_spillRegs (host : Host φ) (rd : Reading) (c : EmitCtx) (st : WState φ)
    (stack : List Value) (rest : List (WInstr φ)) :
    ∃ st', (Code.ofList (spillRegs c ++ rest)).exec host rd stack st =
        (Code.ofList rest).exec host rd stack st' ∧ SameState st st' := by
  rw [spillRegs]
  split
  · generalize (c.regsWritten.filter fun r => r ≠ 14 ∧ r ≠ 15) = rs
    induction rs generalizing st with
    | nil => exact ⟨st, rfl, rfl, rfl, rfl, rfl, rfl, rfl⟩
    | cons r rs ih =>
      obtain ⟨st', hexec, hsame⟩ := ih (st.set64 (.saved r) (regsOf st r))
      refine ⟨st', hexec, { hsame with regs := ?_, bp := ?_ }⟩
      · rw [hsame.regs, regsOf_set64_saved]
      · rw [hsame.bp, State.set64_v64, if_neg (by simp)]
  · exact ⟨st, rfl, rfl, rfl, rfl, rfl, rfl, rfl⟩

theorem exec_nextBlockCode (host : Host φ) (rd : Reading) (c : EmitCtx) (st : WState φ)
    (hbp : (st.v64 .bp).toNat ≤ c.blockIdx) :
    ∃ st', (Code.ofList (nextBlockCode c)).exec host rd [] st =
        some (.next [.i32 (ofBool true)] st') ∧
      regsOf st' = regsOf st ∧ st'.mem = st.mem ∧ st'.size = st.size ∧ st'.calls = st.calls ∧
      st'.v32 .ctx = st.v32 .ctx ∧ st'.v64 (.tmp 0) = st.v64 (.tmp 0) := by
  have hidx : (BitVec.ofNat 64 (c.blockIdx + 1)).toNat = c.blockIdx + 1 := by
    have := c.blockIdx_lt
    rw [BitVec.toNat_ofNat]
    omega
  have hle : RelOp.leU.eval (st.v64 .bp) (BitVec.ofNat 64 (c.blockIdx + 1)) = true := by
    simp only [RelOp.eval, BitVec.le_def, hidx, decide_eq_true_eq]
    omega
  rw [nextBlockCode, blockPtrGlobal]
  cases c.wasmRegLocals with
  | true =>
    refine ⟨st.set64 .resume (BitVec.ofNat 64 (c.blockIdx + 1)), ?_, by simp, rfl, rfl, rfl, rfl,
      by simp [State.set64_v64]⟩
    exact congrArg (fun b => some (Outcome.next [Value.i32 (ofBool b)] _)) hle
  | false =>
    refine ⟨st.set64 .bp (BitVec.ofNat 64 (c.blockIdx + 1)), ?_, by simp, rfl, rfl, rfl, rfl,
      by simp [State.set64_v64]⟩
    have hself : RelOp.leU.eval (BitVec.ofNat 64 (c.blockIdx + 1))
        (BitVec.ofNat 64 (c.blockIdx + 1)) = true := by
      simp [RelOp.eval]
    exact congrArg (fun b => some (Outcome.next [Value.i32 (ofBool b)] _)) hself

theorem exec_directCode (host : Host φ) (rd : Reading) {b : BitVec 64} (hb : st.v64 (.tmp 0) = b)
    (hfit : (lo b).toNat + op.oi.mop.size.bytes ≤ st.size) :
    ∃ st', (Code.ofList (directCode op)).exec host rd [] st = some (.next [] st') ∧
      regsOf st' = directRegs op (regsOf st) st.mem (lo b) ∧
      st'.mem = directMem op (regsOf st) st.mem (lo b) ∧ st'.calls = st.calls ∧
      st'.v64 (.tmp 0) = b ∧ st'.v64 .bp = st.v64 .bp := by
  have hwrap : (st.v64 (.tmp 0)).setWidth 32 = lo b := by rw [hb]; rfl
  have hfit' : (lo b).toNat + 0 + op.oi.mop.size.bytes ≤ st.size := by omega
  rw [directCode, directRegs, directMem]
  split
  · let v := extendLoaded op.oi.mop.size.bytes op.oi.mop.sign
      (leNat (load st.mem (lo b).toNat op.oi.mop.size.bytes))
    refine ⟨st.set64 (.reg op.dataReg) v, ?_, by simp [v], rfl, rfl, by simp [hb],
      by simp [State.set64_v64]⟩
    simp only [Code.ofList, Code.exec, Instr.exec, setR, Value.as64, Value.as32,
      bind_eq_bind, bind_some, hwrap, State.loadNat_of_le hfit']
    rfl
  · let m := store st.mem (lo b).toNat (leBytes op.oi.mop.size.bytes (regsOf st op.dataReg).toNat)
    refine ⟨{ st with mem := m }, ?_, rfl, rfl, rfl, hb, rfl⟩
    simp only [Code.ofList, Code.exec, Instr.exec, getR, v64_reg, Value.as64, Value.as32,
      bind_eq_bind, bind_some, hwrap, State.storeNat_of_le _ hfit']
    rfl

theorem exec_helperArgsCode (op : GuestOp) (host : Host φ) (rd : Reading) (st : WState φ)
    (ra : BitVec 32)
    (rest : List (WInstr φ)) :
    (Code.ofList (helperArgsCode op ra ++ rest)).exec host rd [] st =
      (Code.ofList rest).exec host rd
        (helperArgs op (lo (regsOf st areg0)) (regsOf st op.addrReg) (regsOf st op.dataReg) ++
          [Value.i32 ra]).reverse st := by
  rw [helperArgsCode, helperArgs, storeOperand]
  cases op.isLd with
  | true => rfl
  | false =>
    by_cases hsize : op.oi.mop.size = .mo64 <;> simp only [hsize, if_true, if_false] <;> rfl

theorem length_helperArgs (env ra : BitVec 32) (addr data : BitVec 64) :
    (helperArgs op env addr data ++ [Value.i32 ra]).length = if op.isLd then 4 else 5 := by
  rw [helperArgs]
  cases op.isLd <;> rfl

theorem exec_doneFlag (host : Host φ) (rd : Reading)
    (hfit : (st.v32 .ctx).toNat + doneFlagOff + 4 ≤ st.size)
    (hdone : word32 st.mem ((st.v32 .ctx).toNat + doneFlagOff) ≠ 0#32) :
    (Code.ofList [.get32 .ctx, .load32 doneFlagOff, .eqz32]).exec host rd [] st =
      some (.next [.i32 (ofBool false)] st) := by
  have hflag : decide (word32 st.mem ((st.v32 .ctx).toNat + doneFlagOff) = 0#32) = false := by
    simpa using hdone
  simp only [Code.ofList, Code.exec, Instr.exec, Value.as32, bind_eq_bind, bind_some,
    State.loadNat_of_le hfit]
  exact congrArg (fun b => some (Outcome.next [Value.i32 (ofBool b)] st)) hflag

theorem AccessSetup.exec_helperCode (a : AccessSetup t op) {st : WState MmuHelper}
    (hregs : regsOf st = regsOf a.st) (hsize : st.size = a.st.size)
    (hctx : st.v32 .ctx = a.st.v32 .ctx) :
    let vals := helperArgs op (lo (regsOf a.st areg0)) (regsOf a.st op.addrReg)
      (regsOf a.st op.dataReg) ++ [Value.i32 a.ra]
    let r := a.host.run st.calls (mmuHelper op) vals st.mem
    ∃ st', (Code.ofList (helperCode op a.c a.ra)).exec a.host a.rd [] st =
        some (.next [.i32 (ofBool false)] st') ∧
      st'.calls = st.calls ++ [(mmuHelper op, vals)] ∧ st'.mem = r.2 ∧
      regsOf st' = slowRegs op (regsOf a.st) r.1 := by
  intro vals r
  obtain ⟨hresult, hdone⟩ : HelperReturned op (a.st.v32 .ctx) r := a.returned ..
  let tail : List (WInstr MmuHelper) := [.get32 .ctx, .load32 doneFlagOff, .eqz32]
  let rest : List (WInstr MmuHelper) := (if op.isLd then [setR op.dataReg] else []) ++ tail
  obtain ⟨st₁, hspill, hsame⟩ := exec_spillRegs a.host a.rd a.c st []
    (helperArgsCode op a.ra ++ .call (mmuHelper op) :: rest)
  have hargs := exec_helperArgsCode op a.host a.rd st₁ a.ra (.call (mmuHelper op) :: rest)
  rw [hsame.regs, hregs] at hargs
  let st₂ : WState MmuHelper :=
    { st₁ with mem := r.2, calls := st₁.calls ++ [(mmuHelper op, vals)] }
  have hcall : (Code.ofList (.call (mmuHelper op) :: rest)).exec a.host a.rd vals.reverse st₁ =
      (Code.ofList rest).exec a.host a.rd r.1.toList st₂ := by
    have hlen : vals.reverse.length = a.host.arity (mmuHelper op) := by
      rw [length_reverse, length_helperArgs, a.arity_eq]
    simp only [Code.ofList, Code.exec, Instr.exec]
    rw [if_pos hlen.ge, take_of_length_le hlen.le, drop_eq_nil_of_le hlen.le,
      append_nil, reverse_reverse, hsame.calls, hsame.mem]
    simp only [st₂, r, hsame.calls]
  have hctx₂ : st₂.v32 .ctx = a.st.v32 .ctx := hsame.ctx.trans hctx
  have hsize₂ : st₂.size = a.st.size := hsame.size.trans hsize
  have hregs₂ : regsOf st₂ = regsOf a.st := hsame.regs.trans hregs
  have hstart : (Code.ofList (helperCode op a.c a.ra)).exec a.host a.rd [] st =
      (Code.ofList rest).exec a.host a.rd r.1.toList st₂ := hspill.trans (hargs.trans hcall)
  -- the flag is read after the result is stored, in the memory the helper left
  have hflag (st₃ : WState MmuHelper) (hctx₃ : st₃.v32 .ctx = a.st.v32 .ctx)
      (hsize₃ : st₃.size = a.st.size) (hmem₃ : st₃.mem = r.2) :
      (Code.ofList tail).exec a.host a.rd [] st₃ = some (.next [.i32 (ofBool false)] st₃) := by
    refine exec_doneFlag a.host a.rd ?_ ?_
    · rw [hctx₃, hsize₃]
      exact a.ctx_le
    · rw [hctx₃, hmem₃]
      exact hdone
  cases hld : op.isLd with
  | true =>
    rw [hld] at hresult
    obtain ⟨v, hv⟩ := hresult
    refine ⟨st₂.set64 (.reg op.dataReg) v, ?_, ?_, rfl, ?_⟩
    · rw [hstart, hv, ← hflag (st₂.set64 (.reg op.dataReg) v) hctx₂ hsize₂ rfl]
      simp only [rest, hld, if_true]
      rfl
    · show st₁.calls ++ _ = _
      rw [hsame.calls]
    · rw [regsOf_set64_reg, hregs₂, hv]
      rfl
  | false =>
    rw [hld] at hresult
    have hnone : r.1 = none := hresult
    refine ⟨st₂, ?_, ?_, rfl, ?_⟩
    · rw [hstart, hnone, ← hflag st₂ hctx₂ hsize₂ rfl]
      simp only [rest, hld, Bool.false_eq_true, if_false]
      rfl
    · show st₁.calls ++ _ = _
      rw [hsame.calls]
    · rw [hregs₂, hnone]
      rfl

/-- What the generated code does when its lookup finds a host address. -/
theorem AccessSetup.exec_of_base_ne (a : AccessSetup t op) (hne : a.base ≠ 0)
    (hfit : (lo a.base).toNat + op.oi.mop.size.bytes ≤ a.st.size) :
    ∃ st', (tcgWasmOutQemuLdst t op a.c a.ra).exec a.host a.rd [] a.st = some (.next [] st') ∧
      st'.calls = a.st.calls ∧ regsOf st' = directRegs op (regsOf a.st) a.st.mem (lo a.base) ∧
      st'.mem = directMem op (regsOf a.st) a.st.mem (lo a.base) := by
  obtain ⟨st₁, hexec₁, hsame, hbase⟩ := a.exec_tlbLoad
  obtain ⟨st₂, hexec₂, hregs₂, hmem₂, hcalls₂, hbase₂, hbp₂⟩ :=
    exec_directCode a.host a.rd hbase (by rw [hsame.size]; exact hfit)
  obtain ⟨st₃, hexec₃, hregs₃, hmem₃, -, hcalls₃, -, hbase₃⟩ :=
    exec_nextBlockCode a.host a.rd a.c st₂ (by rw [hbp₂, hsame.bp]; exact a.bp_le)
  have hzero : decide (a.base = 0) = false := by simpa using hne
  refine ⟨st₃, ?_, ?_, ?_, ?_⟩
  · refine (Code.exec_seq hexec₁ _).trans ?_
    have haccess : (accessCode op).exec a.host a.rd [] st₁ = some (.next [] st₂) := by
      refine (Code.exec_seq (exec_eqz a.host a.rd hbase) _).trans ?_
      rw [Code.exec_ite_nil, hzero]
      exact hexec₂
    refine (Code.exec_seq haccess _).trans ((Code.exec_seq hexec₃ _).trans ?_)
    rw [Code.exec_ite_nil]
    refine (Code.exec_seq (exec_eqz a.host a.rd (hbase₃.trans hbase₂)) _).trans ?_
    rw [Code.exec_ite_nil, hzero]
    rfl
  · rw [hcalls₃, hcalls₂, hsame.calls]
  · rw [hregs₃, hregs₂, hsame.regs, hsame.mem]
  · rw [hmem₃, hmem₂, hsame.regs, hsame.mem]

theorem AccessSetup.exec_of_base_eq (a : AccessSetup t op) (hzero : a.base = 0) :
    let vals := helperArgs op (lo (regsOf a.st areg0)) (regsOf a.st op.addrReg)
      (regsOf a.st op.dataReg) ++ [Value.i32 a.ra]
    ∃ st' m, (tcgWasmOutQemuLdst t op a.c a.ra).exec a.host a.rd [] a.st = some (.next [] st') ∧
      st'.calls = a.st.calls ++ [(mmuHelper op, vals)] ∧
      st'.mem = (a.host.run a.st.calls (mmuHelper op) vals m).2 ∧
      regsOf st' = slowRegs op (regsOf a.st) (a.host.run a.st.calls (mmuHelper op) vals m).1 := by
  intro vals
  obtain ⟨st₁, hexec₁, hsame, hbase⟩ := a.exec_tlbLoad
  let m := store a.st.mem ((a.st.v32 .ctx).toNat + doneFlagOff) (leBytes 4 0)
  let st₂ : WState MmuHelper := { st₁ with mem := m }
  obtain ⟨st₃, hexec₃, hregs₃, hmem₃, hsize₃, hcalls₃, hctx₃, hbase₃⟩ :=
    exec_nextBlockCode a.host a.rd a.c st₂ (by
      show (st₁.v64 .bp).toNat ≤ _
      rw [hsame.bp]
      exact a.bp_le)
  obtain ⟨st₄, hexec₄, hcalls₄, hmem₄, hregs₄⟩ := a.exec_helperCode
    (hregs₃.trans hsame.regs) (hsize₃.trans hsame.size) (hctx₃.trans hsame.ctx)
  have hcalls : st₃.calls = a.st.calls := hcalls₃.trans hsame.calls
  rw [hcalls, hmem₃] at hmem₄ hregs₄
  have htrue : decide (a.base = 0) = true := by simpa using hzero
  refine ⟨st₄, m, ?_, by rw [hcalls₄, hcalls], hmem₄, hregs₄⟩
  have haccess : (accessCode op).exec a.host a.rd [] st₁ = some (.next [] st₂) := by
    have hfit : (st₁.v32 .ctx).toNat + doneFlagOff + 4 ≤ st₁.size := by
      rw [hsame.ctx, hsame.size]
      exact a.ctx_le
    refine (Code.exec_seq (exec_eqz a.host a.rd hbase) _).trans ?_
    rw [Code.exec_ite_nil, htrue]
    simp only [if_true, Code.ofList, Code.exec, Instr.exec, Value.as32, Option.bind_eq_bind,
      Option.bind_some, State.storeNat_of_le _ hfit]
    simp only [st₂, m, hsame.ctx, hsame.mem]
    rfl
  refine (Code.exec_seq hexec₁ _).trans ((Code.exec_seq haccess _).trans
    ((Code.exec_seq hexec₃ _).trans ?_))
  rw [Code.exec_ite_nil]
  refine (Code.exec_seq (exec_eqz a.host a.rd (hbase₃.trans hbase)) _).trans ?_
  rw [Code.exec_ite_nil, htrue]
  refine (Code.exec_seq hexec₄ _).trans ?_
  rw [Code.exec_ite_nil]
  rfl

/-! ### Agreement -/

/-- On a match the host address is not zero, however the addend is extended. -/
theorem ne_zero_of_lo (h : 0 < (lo x).toNat) : x ≠ 0#64 := by
  rintro rfl
  exact absurd h (by decide)

theorem lo_add_setWidth (x : BitVec 64) (d : BitVec 32) : lo (d.setWidth 64 + x) = lo x + d := by
  rw [lo_add, lo_setWidth, add_comm]

theorem lo_add_signExtend (x : BitVec 64) (d : BitVec 32) :
    lo (x + d.signExtend 64) = lo x + d := by
  rw [lo_add, lo_signExtend]

theorem AccessSetup.tciAccess_eq (a : AccessSetup t op) :
    tciAccess t op (regsOf a.st) a.st.mem =
      let x := guestAddr op (regsOf a.st)
      if a.tlb.Hit x then .direct (lo x + a.tlb.addend x)
      else .slow (mmuHelper op)
        (helperArgs op (lo (regsOf a.st areg0)) x (regsOf a.st op.dataReg)) := by
  simp only [tciAccess]
  rw [a.tlb.tlbLoad_eq]
  by_cases hhit : a.tlb.Hit (guestAddr op (regsOf a.st))
  · have hpos := (a.tlb.access_of_hit hhit).2.2.1
    rw [if_pos hhit, if_pos hhit, if_pos (ne_zero_of_lo (by rwa [lo_add_signExtend])),
      lo_add_signExtend]
  · rw [if_neg hhit, if_neg hhit, if_neg (by simp)]

theorem AccessSetup.base_ne_iff (a : AccessSetup t op) :
    a.base ≠ 0 ↔ a.tlb.Hit (regsOf a.st op.addrReg) := by
  rw [AccessSetup.base]
  constructor
  · intro hne
    by_contra hmiss
    exact hne (if_neg hmiss)
  · intro hhit
    rw [if_pos hhit]
    refine ne_zero_of_lo ?_
    rw [lo_add_setWidth]
    exact (a.tlb.access_of_hit hhit).2.2.1

theorem setWidth_lo_of_hi (h : hi x = 0#32) : (lo x).setWidth 64 = x := by
  have hx : x.toNat / 2 ^ 32 = 0 := by
    rw [← toNat_hi, h]
    rfl
  rw [← toNat_inj, toNat_setWidth, toNat_lo]
  omega

theorem hi_setWidth_lo (x : BitVec 64) : hi ((lo x).setWidth 64) = 0#32 := by
  rw [← toNat_inj, toNat_hi, toNat_setWidth, toNat_lo]
  show _ = 0
  omega

/-- A lookup with a clean address decides and acts as the interpreter's. -/
theorem AccessSetup.agrees_of_addr (a : AccessSetup t op)
    (haddr : guestAddr op (regsOf a.st) = regsOf a.st op.addrReg) : a.Agrees := by
  rw [AccessSetup.Agrees, a.tciAccess_eq]
  simp only [haddr]
  by_cases hhit : a.tlb.Hit (regsOf a.st op.addrReg)
  · obtain ⟨hallows, -, -, hfit⟩ := a.tlb.access_of_hit hhit
    have hlo : lo a.base = lo (regsOf a.st op.addrReg) + a.tlb.addend (regsOf a.st op.addrReg) := by
      rw [AccessSetup.base, if_pos hhit, lo_add_setWidth]
    obtain ⟨st', hexec, hcalls, hregs, hmem⟩ :=
      a.exec_of_base_ne (a.base_ne_iff.mpr hhit) (by rw [hlo]; exact hfit)
    rw [hlo] at hregs hmem
    rw [if_pos hhit]
    exact ⟨st', hexec, hallows, hcalls, hregs, hmem⟩
  · have hzero : a.base = 0 := by
      by_contra hne
      exact hhit (a.base_ne_iff.mp hne)
    obtain ⟨st', m, hexec, hcalls, hmem, hregs⟩ := a.exec_of_base_eq hzero
    rw [if_neg hhit]
    exact ⟨st', hexec, .i32 a.ra, m, hcalls, hmem, hregs⟩

theorem helperArgs_inj {env : BitVec 32} {y data : BitVec 64} {ra ra' : Value}
    (h : helperArgs op env x data ++ [ra] = helperArgs op env y data ++ [ra']) : x = y := by
  have hsecond := congrArg (fun l => l[1]?) h
  simpa [helperArgs] using hsecond

/-- With a dirty upper half no entry matches, and the helper gets the whole
register. -/
theorem AccessSetup.not_agrees_of_dirty (a : AccessSetup t op) (h32 : op.a32 = true)
    (hdirty : hi (regsOf a.st op.addrReg) ≠ 0#32) : ¬a.Agrees := by
  rintro ⟨st'', hexec', hmatch⟩
  have hmiss : ¬a.tlb.Hit (regsOf a.st op.addrReg) := by
    intro hhit
    have hlt := (a.tlb.access_of_hit hhit).2.1 h32
    apply hdirty
    rw [← toNat_inj, toNat_hi]
    show _ = 0
    omega
  have hzero : a.base = 0 := by
    by_contra hne
    exact hmiss (a.base_ne_iff.mp hne)
  obtain ⟨st', m, hexec, hcalls, -, -⟩ := a.exec_of_base_eq hzero
  rw [hexec] at hexec'
  cases hexec'
  rw [a.tciAccess_eq] at hmatch
  simp only at hmatch
  by_cases hhit : a.tlb.Hit (guestAddr op (regsOf a.st))
  · -- the interpreter makes no call
    rw [if_pos hhit] at hmatch
    have hnone := hmatch.2.1
    rw [hcalls] at hnone
    simp at hnone
  · -- the interpreter passes the low word
    rw [if_neg hhit] at hmatch
    obtain ⟨ra, m', hcalls', -, -⟩ := hmatch
    rw [hcalls, append_cancel_left_eq] at hcalls'
    have hargs := (Prod.mk.inj (cons.inj hcalls').1).2
    have haddr := helperArgs_inj hargs
    rw [guestAddr, if_pos h32] at haddr
    exact hdirty (haddr ▸ hi_setWidth_lo _)

/-- The generated code and the interpreter make the same access exactly if a
32-bit guest's address register has a clear upper half. -/
theorem guestAccess_agrees_iff (a : AccessSetup t op) :
    a.Agrees ↔ (op.a32 = true → hi (regsOf a.st op.addrReg) = 0#32) := by
  constructor
  · intro hagrees h32
    by_contra hdirty
    exact a.not_agrees_of_dirty h32 hdirty hagrees
  · intro hclean
    apply a.agrees_of_addr
    rw [guestAddr]
    split
    case isTrue h32 => exact setWidth_lo_of_hi (hclean h32)
    case isFalse => rfl

/-- Pages of 4096 bytes, the table's descriptor 16 bytes before the CPU state. -/
def loadTarget : Target where
  pageBits := 12
  fastOfs _ := 0xfffffff0#32
  pageBits_ge := by decide
  pageBits_le := by decide

/-- `qemu_ld_a32_i32 r0, r1` of one byte. -/
def loadOp : GuestOp where
  isLd := true
  a32 := true
  dataReg := 0
  addrReg := 1
  oi := ⟨⟨.mo8, false, 0, .ifalign⟩, 0⟩
  sign_ok := nofun

/-- A descriptor at 48 of a table of two entries at 128, the second of which maps the page
`0x1000` to itself. -/
def loadMem : Bytes := fun i =>
  if i = 48 then 32 else if i = 52 then 128 else if i = 161 then 0x10
  else if 128 ≤ i ∧ i < 160 then 0xff else 0

def loadStart (addr : BitVec 64) : WState MmuHelper where
  v64 x := if x = .reg 14 then 64#64 else if x = .reg 1 then addr else 0#64
  v32 _ := 256#32
  mem := loadMem
  size := 8192
  calls := []

/-- Every helper returns zero and says that it is done. -/
def doneHost : Host MmuHelper where
  arity _ := 4
  run _ _ _ m := (some (.i64 0#64), store m 276 [1, 0, 0, 0])

def loadTlb : Tlb loadTarget loadOp loadMem 8192 64#32 where
  desc := 48
  table := 128
  indexBits := 1
  indexBits_pos := by decide
  mask_at := by decide
  table_at := by decide
  desc_le := by decide
  size_le := by decide
  mask_eq := by decide
  table_eq := by decide
  table_le := by decide
  entries := by
    intro i hi
    obtain rfl | rfl : i = 0 ∨ i = 1 := by omega
    · exact .inl (by decide)
    · exact .inr (by decide)

def loadSetup (addr : BitVec 64) : AccessSetup loadTarget loadOp where
  c := ⟨true, [], false, 0, by decide⟩
  ra := 0#32
  rd := .strict
  host := doneHost
  st := loadStart addr
  tlb := loadTlb
  ctx_le := show (256#32).toNat + doneFlagOff + 4 ≤ 8192 by decide
  env_cached := nofun
  bp_le := show (0#64).toNat ≤ 0 by decide
  arity_eq := rfl
  returned := by
    intro calls args m
    refine ⟨⟨0#64, rfl⟩, ?_⟩
    have hload : load (store m 276 [1, 0, 0, 0]) 276 4 = [1, 0, 0, 0] :=
      load_store_self m 276 [1, 0, 0, 0]
    show BitVec.ofNat 32 (leNat (load (store m 276 [1, 0, 0, 0]) 276 4)) ≠ 0#32
    rw [hload]
    decide

/-- A 32-bit guest's load from `0x1000` goes to the page that the table has. -/
theorem load_with_clean_address :
    tciAccess loadTarget loadOp (regsOf (loadStart 0x1000#64)) loadMem = .direct 0x1000#32 ∧
      (loadSetup 0x1000#64).Agrees :=
  ⟨by decide, (guestAccess_agrees_iff (loadSetup 0x1000#64)).mpr fun _ => by decide⟩

/-- The same with a bit set above the address: the interpreter loads from the page, the
generated code looks up `0x100001000` and calls the helper. -/
theorem load_with_dirty_address :
    tciAccess loadTarget loadOp (regsOf (loadStart 0x100001000#64)) loadMem =
        .direct 0x1000#32 ∧ ¬(loadSetup 0x100001000#64).Agrees :=
  ⟨by decide, (loadSetup 0x100001000#64).not_agrees_of_dirty rfl (by decide)⟩

end Bootbox.Tcg
