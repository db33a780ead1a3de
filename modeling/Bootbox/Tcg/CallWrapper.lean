import Bootbox.Tcg.CallLayout

/-!
Helper calls in the generated code. The wrapper walks the argument list word by
word, pushes narrow arguments on the wasm stack, copies each 128-bit argument to
a buffer of its own and passes its address, and moves the result into the result
registers. It finds every argument where the layout put it.
-/

namespace Bootbox.Tcg

open Lib Wasm ByteMemory List BitVec Option Function

variable {φ : Type}

/-- `TCG_REG_CALL_STACK`. -/
def callStack : Reg := 15

def stack128Off : ℕ := 24

/-- `TCG_STATIC_CALL_ARGS_SIZE`. -/
def staticCallArgsSize : ℕ := 128

structure PushState where
  regIdx : ℕ
  stackOffset : ℕ
  stack128Base : ℕ
  cached128base : Bool

/-- The code of `push_arg_i64`. -/
def pushArgI64 (p : PushState) : List (WInstr φ) :=
  if p.regIdx < numOfIargRegs then [getR (Fin.ofNat 16 (regIndexIargBase + p.regIdx))]
  else [getR callStack, .wrap, .load64 8 false p.stackOffset]

/-- The counters after `push_arg_i64`. -/
def PushState.nextWord (p : PushState) : PushState :=
  if p.regIdx < numOfIargRegs then { p with regIdx := p.regIdx + 1 }
  else { p with stackOffset := p.stackOffset + 8 }

/-- Load the address of the 128-bit buffer, once. -/
def cacheBase (p : PushState) : List (WInstr φ) :=
  if p.cached128base then []
  else [.get32 .ctx, .load32 stack128Off, .extendS, .set64 (.tmp 0)]

def copyWord (p : PushState) : List (WInstr φ) :=
  [.get64 (.tmp 0), .wrap] ++ pushArgI64 p ++ [.store64 8 p.stack128Base]

def PushState.copied (p : PushState) : PushState :=
  { p.nextWord with stack128Base := p.stack128Base + 8, cached128base := true }

/-- The code for one argument in the loop of `gen_func_wrapper_code`. -/
def pushArg (p : PushState) : TypeCode → List (WInstr φ)
  | .i32 | .s32 | .ptr => pushArgI64 p ++ [.wrap]
  | .i64 | .s64 => pushArgI64 p
  | .i128 =>
    cacheBase p ++
    [.get64 (.tmp 0), .wrap, .const32 (BitVec.ofNat 32 p.stack128Base), .bin32 .add] ++
    copyWord p ++ copyWord p.copied

def PushState.next (p : PushState) : TypeCode → PushState
  | .i32 | .s32 | .ptr | .i64 | .s64 => p.nextWord
  | .i128 => p.copied.copied

def pushArgs (p : PushState) : List TypeCode → List (WInstr φ)
  | [] => []
  | t :: ts => pushArg p t ++ pushArgs (p.next t) ts

/-- The part of `gen_func_wrapper_code` before the call. -/
def wrapperArgs (h : HelperInfo) : List (WInstr φ) :=
  (if h.ret = some .i128 then [getR callStack, .wrap] else []) ++ pushArgs ⟨0, 0, 0, false⟩ h.args

/-- The part of `gen_func_wrapper_code` after the call. -/
def wrapperResult : Option TypeCode → List (WInstr φ)
  | none => []
  | some .i32 | some .s32 | some .ptr => [.extendS, setR 0]
  | some .i64 | some .s64 => [setR 0]
  | some .i128 =>
    [getR callStack, .wrap, .load64 8 false 0, setR 0,
     getR callStack, .wrap, .load64 8 false 8, setR 1]

def genFuncWrapperCode (h : HelperInfo) (func : φ) : List (WInstr φ) :=
  wrapperArgs h ++ .call func :: wrapperResult h.ret

/-! ### What is on the stacks -/

def stackBase (st : WState φ) : ℕ := (lo (regsOf st callStack)).toNat

def bufferPtr (st : WState φ) : BitVec 32 :=
  BitVec.ofNat 32 (leNat (load st.mem ((st.v32 .ctx).toNat + stack128Off) 4))

def callWords (st : WState φ) : CallWords :=
  ⟨regsOf st, fun j => word64 st.mem (stackBase st + 8 * j)⟩

/-- Both stacks are allocated, apart from each other. -/
structure CallFrame (st : WState φ) : Prop where
  size_le : st.size ≤ 2 ^ 32
  stack_le : stackBase st + staticCallArgsSize ≤ st.size
  ctx_le : (st.v32 .ctx).toNat + stack128Off + 4 ≤ st.size
  buffer_le : (bufferPtr st).toNat + staticCallArgsSize ≤ st.size
  disjoint : stackBase st + staticCallArgsSize ≤ (bufferPtr st).toNat ∨
    (bufferPtr st).toNat + staticCallArgsSize ≤ stackBase st

/-- The argument a helper gets from a wasm operand: a 128-bit one by address. -/
def TypeCode.passed (m : Bytes) : TypeCode → Value → Option ArgVal
  | .i32, .i32 v | .s32, .i32 v | .ptr, .i32 v => some (.w32 v)
  | .i64, .i64 v | .s64, .i64 v => some (.w64 v)
  | .i128, .i32 a => some (.w128 (word64 m a.toNat) (word64 m (a.toNat + 8)))
  | _, _ => none

def passedArgs (m : Bytes) : List TypeCode → List Value → Option (List ArgVal)
  | [], [] => some []
  | t :: ts, v :: vs => do some ((← t.passed m v) :: (← passedArgs m ts vs))
  | _, _ => none

/-- How a helper returns: by value, or, for 128 bits, in memory at the address it
gets before the arguments. -/
def ReturnsValue (ret : Option TypeCode) (v : BitVec 128) (addr : BitVec 32)
    (r : Option Value × Bytes) : Prop :=
  match ret with
  | none => r.1 = none
  | some .i32 | some .s32 | some .ptr => r.1 = some (.i32 (v.setWidth 32))
  | some .i64 | some .s64 => r.1 = some (.i64 (v.setWidth 64))
  | some .i128 => r.1 = none ∧ word64 r.2 addr.toNat = v.setWidth 64 ∧
      word64 r.2 (addr.toNat + 8) = (v >>> 64).setWidth 64

/-- The operand before the arguments: where a 128-bit result goes. -/
def resultAddr (h : HelperInfo) (addr : BitVec 32) : List Value :=
  if h.ret = some .i128 then [.i32 addr] else []

/-- The imported function behaves as a helper that returns `f args`. -/
structure HelperHost (host : Host φ) (func : φ) (h : HelperInfo) (f : List ArgVal → BitVec 128) :
    Prop where
  arity : host.arity func = h.args.length + if h.ret = some .i128 then 1 else 0
  returns : ∀ calls addr vals m args, passedArgs m h.args vals = some args →
    ReturnsValue h.ret (f args) addr (host.run calls func (resultAddr h addr ++ vals) m)

/-- A helper that computes `f` and writes nothing but its result. -/
def pureHelper (h : HelperInfo) (f : List ArgVal → BitVec 128) : Host φ where
  arity _ := h.args.length + if h.ret = some .i128 then 1 else 0
  run _ _ vals m :=
    let v (vals : List Value) : BitVec 128 := ((passedArgs m h.args vals).map f).getD 0#128
    match h.ret, vals with
    | none, _ => (none, m)
    | some .i32, _ | some .s32, _ | some .ptr, _ => (some (.i32 ((v vals).setWidth 32)), m)
    | some .i64, _ | some .s64, _ => (some (.i64 ((v vals).setWidth 64)), m)
    | some .i128, .i32 a :: vals =>
      (none, store (store m a.toNat (leBytes 8 ((v vals).setWidth 64).toNat)) (a.toNat + 8)
        (leBytes 8 (((v vals) >>> 64).setWidth 64).toNat))
    | some .i128, _ => (none, m)

theorem helperHost_pureHelper (func : φ) (h : HelperInfo) (f : List ArgVal → BitVec 128) :
    HelperHost (pureHelper h f) func h f := by
  refine ⟨rfl, fun calls addr vals m args hargs => ?_⟩
  rw [resultAddr, pureHelper]
  match hret : h.ret with
  | none => rfl
  | some .i32 | some .s32 | some .ptr | some .i64 | some .s64 => simp [ReturnsValue, hargs]
  | some .i128 =>
    simp only [if_true, List.cons_append, List.nil_append, hargs, Option.map_some, Option.getD_some]
    refine ⟨rfl, ?_, word64_store ..⟩
    rw [word64_store_of_disjoint _ _ (by omega), word64_store]

/-- The wrapper calls the helper once, with the layout's arguments, and leaves
the result. -/
def WrapperFaithful (h : HelperInfo) : Prop :=
  ∀ (φ : Type) (func : φ) (host : Host φ) (rd : Reading) (f : List ArgVal → BitVec 128)
    (st : WState φ), CallFrame st → HelperHost host func h f →
    ∃ vals st₁ st',
      (Code.ofList (wrapperArgs h)).exec host rd [] st =
        some (.next (resultAddr h (lo (regsOf st callStack)) ++ vals).reverse st₁) ∧
      passedArgs st₁.mem h.args vals = some (layoutArgs (callWords st) h.args) ∧
      (Code.ofList (genFuncWrapperCode h func)).exec host rd [] st = some (.next [] st') ∧
      st'.calls = st.calls ++ [(func, resultAddr h (lo (regsOf st callStack)) ++ vals)] ∧
      Returned h.ret (f (layoutArgs (callWords st) h.args)) (regsOf st) (regsOf st')

/-! ### Pushing the arguments -/

/-- The counters after `k` slots. -/
structure AtSlot (p : PushState) (k : ℕ) : Prop where
  regIdx : p.regIdx = min k numOfIargRegs
  stackOffset : p.stackOffset = 8 * (k - numOfIargRegs)

theorem AtSlot.nextWord {p : PushState} {k : ℕ} (h : AtSlot p k) : AtSlot p.nextWord (k + 1) := by
  obtain ⟨hr, hs⟩ := h
  rw [PushState.nextWord]
  constructor <;> split <;> simp only [numOfIargRegs] at * <;> omega

@[simp] theorem stack128Base_nextWord (p : PushState) :
    p.nextWord.stack128Base = p.stack128Base := by
  rw [PushState.nextWord]
  split <;> rfl

theorem copied_cached (p : PushState) : { p with cached128base := true }.copied = p.copied := by
  simp only [PushState.copied, PushState.nextWord]
  split <;> rfl

theorem AtSlot.copied {p : PushState} {k : ℕ} (h : AtSlot p k) : AtSlot p.copied (k + 1) :=
  ⟨h.nextWord.regIdx, h.nextWord.stackOffset⟩

theorem AtSlot.next {p : PushState} {k : ℕ} (h : AtSlot p k) (t : TypeCode) :
    AtSlot (p.next t) (k + t.slots) := by
  cases t with
  | i128 => exact h.copied.copied
  | _ => exact h.nextWord

/-- Where the walk stands: only the buffer below `stack128Base` and the cached
address differ from the state at the start. -/
structure Pushing (st₀ st : WState φ) (p : PushState) : Prop where
  regs : regsOf st = regsOf st₀
  v32 : st.v32 = st₀.v32
  size : st.size = st₀.size
  calls : st.calls = st₀.calls
  mem : ∀ a, a < (bufferPtr st₀).toNat ∨ (bufferPtr st₀).toNat + p.stack128Base ≤ a →
    st.mem a = st₀.mem a
  cached : p.cached128base = true → st.v64 (.tmp 0) = (bufferPtr st₀).signExtend 64
  fresh : p.cached128base = false → p.stack128Base = 0

variable (host : Host φ) (rd : Reading) {st₀ st : WState φ} {p : PushState} {k : ℕ}

theorem Pushing.nextWord (h : Pushing st₀ st p) : Pushing st₀ st p.nextWord := by
  obtain ⟨h₁, h₂, h₃, h₄, h₅, h₆, h₇⟩ := h
  rw [PushState.nextWord]
  split <;> exact ⟨h₁, h₂, h₃, h₄, h₅, h₆, h₇⟩

/-- The stack words are the ones at the start: the buffer is elsewhere. -/
theorem Pushing.word (hframe : CallFrame st₀) (h : Pushing st₀ st p)
    (hbase : p.stack128Base ≤ staticCallArgsSize) {j : ℕ} (hj : j < staticCallArgsSize / 8) :
    word64 st.mem (stackBase st₀ + 8 * j) = word64 st₀.mem (stackBase st₀ + 8 * j) := by
  have hdisj := hframe.disjoint
  rw [staticCallArgsSize] at *
  rw [word64, word64]
  refine congrArg (fun bs => BitVec.ofNat 64 (leNat bs)) (load_congr fun i hi hi' => h.mem i ?_)
  omega

theorem exec_pushArgI64 (hframe : CallFrame st₀) (h : Pushing st₀ st p) (hk : AtSlot p k)
    (hlt : k < numOfIargRegs + staticCallArgsSize / 8) (hbase : p.stack128Base ≤ staticCallArgsSize)
    (stack : List Value) (rest : List (WInstr φ)) :
    (Code.ofList (pushArgI64 p ++ rest)).exec host rd stack st =
      (Code.ofList rest).exec host rd (.i64 ((callWords st₀).slot k) :: stack) st := by
  have hr := hk.regIdx
  by_cases hreg : k < numOfIargRegs
  · rw [Nat.min_eq_left hreg.le] at hr
    rw [pushArgI64, hr, if_pos hreg]
    simp [getR, h.regs, CallWords.slot, hreg, callWords]
  · rw [Nat.min_eq_right (by omega)] at hr
    have hwrap : (regsOf st callStack).setWidth 32 = lo (regsOf st₀ callStack) := by
      rw [h.regs]
      rfl
    have hfit : (lo (regsOf st₀ callStack)).toNat + 8 * (k - numOfIargRegs) + 8 ≤ st.size := by
      have := hframe.stack_le
      rw [h.size]
      rw [stackBase] at this
      rw [staticCallArgsSize] at *
      omega
    rw [pushArgI64, hr, if_neg (by omega), hk.stackOffset]
    simp only [List.cons_append, List.nil_append, Code.ofList, Code.exec, Instr.exec, getR,
      v64_reg, Value.as64, Value.as32, Option.bind_eq_bind, Option.bind_some, hwrap,
      State.loadNat_of_le hfit, extendLoaded, Bool.false_eq_true, if_false]
    have hword := h.word hframe hbase (j := k - numOfIargRegs) (by omega)
    rw [CallWords.slot, if_neg hreg]
    exact congrArg (fun v => (Code.ofList rest).exec host rd (.i64 v :: stack) st) hword

/-- The address of the buffer is in the temporary from the first 128-bit argument on. -/
theorem exec_cacheBase (hframe : CallFrame st₀) (h : Pushing st₀ st p)
    (stack : List Value) (rest : List (WInstr φ)) :
    ∃ st', (Code.ofList (cacheBase p ++ rest)).exec host rd stack st =
        (Code.ofList rest).exec host rd stack st' ∧ st'.mem = st.mem ∧
      Pushing st₀ st' { p with cached128base := true } := by
  cases hc : p.cached128base with
  | true =>
    refine ⟨st, by rw [cacheBase, hc]; rfl, rfl, { h with cached := ?_, fresh := nofun }⟩
    exact fun _ => h.cached hc
  | false =>
    -- nothing has been copied yet, so the context still holds the address
    have hmem : st.mem = st₀.mem := by
      funext a
      refine h.mem a ?_
      rw [h.fresh hc]
      omega
    have hfit : (st₀.v32 .ctx).toNat + stack128Off + 4 ≤ st.size := by
      rw [h.size]
      exact hframe.ctx_le
    refine ⟨st.set64 (.tmp 0) ((bufferPtr st₀).signExtend 64), ?_, rfl, ?_⟩
    · rw [cacheBase, hc]
      simp only [Bool.false_eq_true, if_false, List.cons_append, List.nil_append, Code.ofList,
        Code.exec, Instr.exec, Value.as32, Value.as64, Option.bind_eq_bind, Option.bind_some,
        h.v32, State.loadNat_of_le hfit, hmem]
      rfl
    · refine { h with regs := ?_, cached := fun _ => by simp, fresh := nofun }
      rw [regsOf_set64_tmp, h.regs]

theorem exec_copyWord (hframe : CallFrame st₀) (h : Pushing st₀ st p) (hk : AtSlot p k)
    (hlt : k < numOfIargRegs + staticCallArgsSize / 8) (hcached : p.cached128base = true)
    (hbase : p.stack128Base + 8 ≤ staticCallArgsSize)
    (stack : List Value) (rest : List (WInstr φ)) :
    ∃ st', (Code.ofList (copyWord p ++ rest)).exec host rd stack st =
        (Code.ofList rest).exec host rd stack st' ∧
      st'.mem = store st.mem ((bufferPtr st₀).toNat + p.stack128Base)
        (leBytes 8 ((callWords st₀).slot k).toNat) ∧
      Pushing st₀ st' p.copied := by
  have hwrap : (st.v64 (.tmp 0)).setWidth 32 = bufferPtr st₀ := by
    rw [h.cached hcached]
    exact lo_signExtend _
  have hfit : (bufferPtr st₀).toNat + p.stack128Base + 8 ≤ st.size := by
    have := hframe.buffer_le
    rw [h.size]
    omega
  let m := store st.mem ((bufferPtr st₀).toNat + p.stack128Base)
    (leBytes 8 ((callWords st₀).slot k).toNat)
  refine ⟨{ st with mem := m }, ?_, rfl, { h with mem := ?_, cached := ?_, fresh := ?_ }⟩
  · rw [copyWord, List.append_assoc, List.append_assoc]
    simp only [List.cons_append, List.nil_append, Code.ofList, Code.exec, Instr.exec, Value.as64,
      Option.bind_eq_bind, Option.bind_some, hwrap]
    rw [exec_pushArgI64 host rd hframe h hk hlt (by omega)]
    simp only [Code.ofList, Code.exec, Instr.exec, Value.as64, Value.as32, Option.bind_eq_bind,
      Option.bind_some, State.storeNat_of_le _ hfit]
    rfl
  · intro a ha
    have ha' : a < (bufferPtr st₀).toNat ∨
        (bufferPtr st₀).toNat + (p.stack128Base + 8) ≤ a := ha
    have hout : m a = st.mem a := store_of_not_mem (by rw [length_leBytes]; omega)
    exact hout.trans (h.mem a (by omega))
  · intro _
    exact h.cached hcached
  · intro hfalse
    cases hfalse

def AgreeBelow (n : ℕ) (m m' : Bytes) : Prop := ∀ a < n, m a = m' a

theorem word64_congr {m m' : Bytes} {n a : ℕ} (h : AgreeBelow n m m') (ha : a + 8 ≤ n) :
    word64 m a = word64 m' a := by
  rw [word64, word64, load_congr fun i _ hi => h i (by omega)]

/-- One argument: the operand pushed stands for the argument in the next slots,
in every memory that agrees on the buffer filled so far. -/
theorem exec_pushArg (hframe : CallFrame st₀) (h : Pushing st₀ st p) (hk : AtSlot p k)
    (t : TypeCode) (hlt : k + t.slots ≤ numOfIargRegs + staticCallArgsSize / 8)
    (hbase : (p.next t).stack128Base ≤ staticCallArgsSize)
    (stack : List Value) (rest : List (WInstr φ)) :
    ∃ v st', (Code.ofList (pushArg p t ++ rest)).exec host rd stack st =
        (Code.ofList rest).exec host rd (v :: stack) st' ∧
      Pushing st₀ st' (p.next t) ∧
      AgreeBelow ((bufferPtr st₀).toNat + p.stack128Base) st'.mem st.mem ∧
      ∀ m, AgreeBelow ((bufferPtr st₀).toNat + (p.next t).stack128Base) m st'.mem →
        t.passed m v = some (t.value fun i => (callWords st₀).slot (k + i)) := by
  -- a narrow argument is one word of the walk
  have hword (hslots : t.slots = 1) (rest : List (WInstr φ)) :
      (Code.ofList (pushArgI64 p ++ rest)).exec host rd stack st =
        (Code.ofList rest).exec host rd (.i64 ((callWords st₀).slot k) :: stack) st :=
    exec_pushArgI64 host rd hframe h hk (by omega)
      (by cases t <;> simp [PushState.next, PushState.copied] at hbase ⊢ <;> omega) stack rest
  cases t with
  | i64 | s64 =>
    exact ⟨_, st, hword rfl rest, h.nextWord, fun _ _ => rfl, fun _ _ => rfl⟩
  | i32 | s32 | ptr =>
    refine ⟨.i32 (lo ((callWords st₀).slot k)), st, ?_, h.nextWord, fun _ _ => rfl,
      fun _ _ => rfl⟩
    rw [pushArg, List.append_assoc, hword rfl]
    rfl
  | i128 =>
    have hnext : p.stack128Base + 8 + 8 ≤ staticCallArgsSize := hbase
    have hslots : k + 2 ≤ numOfIargRegs + staticCallArgsSize / 8 := hlt
    have hptr : (bufferPtr st₀ + BitVec.ofNat 32 p.stack128Base).toNat =
        (bufferPtr st₀).toNat + p.stack128Base := by
      have := hframe.size_le
      have := hframe.buffer_le
      rw [staticCallArgsSize] at *
      rw [BitVec.toNat_add, BitVec.toNat_ofNat]
      omega
    let v : Value := .i32 (bufferPtr st₀ + BitVec.ofNat 32 p.stack128Base)
    obtain ⟨st₁, hexec₁, hmem₁, hpush₁⟩ := exec_cacheBase host rd hframe h stack
      ([.get64 (.tmp 0), .wrap, .const32 (BitVec.ofNat 32 p.stack128Base), .bin32 .add] ++
        (copyWord p ++ (copyWord p.copied ++ rest)))
    obtain ⟨st₂, hexec₂, hmem₂, hpush₂⟩ := exec_copyWord host rd hframe hpush₁
      ⟨hk.regIdx, hk.stackOffset⟩ (by omega) rfl (by simp only; omega) (v :: stack)
      (copyWord p.copied ++ rest)
    rw [copied_cached] at hpush₂
    obtain ⟨st₃, hexec₃, hmem₃, hpush₃⟩ := exec_copyWord host rd hframe hpush₂ hk.copied
      (by omega) rfl hnext (v :: stack) rest
    refine ⟨v, st₃, ?_, hpush₃, ?_, ?_⟩
    · have hwrap : (st₁.v64 (.tmp 0)).setWidth 32 = bufferPtr st₀ := by
        rw [hpush₁.cached rfl]
        exact lo_signExtend _
      rw [← hexec₃, ← hexec₂, pushArg]
      simp only [List.append_assoc]
      rw [hexec₁]
      simp only [List.cons_append, List.nil_append, Code.ofList, Code.exec, Instr.exec,
        Value.as64, Value.as32, Option.bind_eq_bind, Option.bind_some, hwrap]
      rfl
    · intro a ha
      rw [hmem₃, store_of_not_mem (by rw [length_leBytes]; simp only [PushState.copied]; omega),
        hmem₂, store_of_not_mem (by rw [length_leBytes]; simp only; omega), hmem₁]
    · intro m hm
      have hlow : word64 m ((bufferPtr st₀).toNat + p.stack128Base) = (callWords st₀).slot k := by
        rw [word64_congr hm (by simp only [PushState.next, PushState.copied]; omega), hmem₃,
          word64_store_of_disjoint _ _ (by simp only [PushState.copied]; omega), hmem₂,
          word64_store]
      have hhigh : word64 m ((bufferPtr st₀).toNat + p.stack128Base + 8) =
          (callWords st₀).slot (k + 1) := by
        rw [word64_congr hm (by simp only [PushState.next, PushState.copied]; omega), hmem₃]
        exact word64_store ..
      simp only [v, TypeCode.passed, TypeCode.value, hptr, hlow, hhigh, Nat.add_zero]

/-- All arguments: the operands stand for the arguments from slot `k` on. -/
theorem exec_pushArgs (hframe : CallFrame st₀) (h : Pushing st₀ st p) (hk : AtSlot p k)
    (ts : List TypeCode)
    (hlt : k + (ts.map TypeCode.slots).sum ≤ numOfIargRegs + staticCallArgsSize / 8)
    (hbase : p.stack128Base + 16 * ts.length ≤ staticCallArgsSize)
    (stack : List Value) (rest : List (WInstr φ)) :
    ∃ vals st', (Code.ofList (pushArgs p ts ++ rest)).exec host rd stack st =
        (Code.ofList rest).exec host rd (vals.reverse ++ stack) st' ∧
      vals.length = ts.length ∧
      regsOf st' = regsOf st₀ ∧ st'.size = st₀.size ∧ st'.calls = st₀.calls ∧
      AgreeBelow ((bufferPtr st₀).toNat + p.stack128Base) st'.mem st.mem ∧
      passedArgs st'.mem ts vals = some (slotArgs (callWords st₀) k ts) := by
  induction ts generalizing st p k stack with
  | nil => exact ⟨[], st, rfl, rfl, h.regs, h.size, h.calls, fun _ _ => rfl, rfl⟩
  | cons t ts ih =>
    rw [List.map_cons, List.sum_cons] at hlt
    rw [List.length_cons] at hbase
    have hnext : p.stack128Base ≤ (p.next t).stack128Base ∧
        (p.next t).stack128Base ≤ p.stack128Base + 16 := by
      cases t <;> (simp [PushState.next, PushState.copied]; try omega)
    obtain ⟨v, st₁, hexec₁, hpush₁, hagree₁, hpassed₁⟩ := exec_pushArg host rd hframe h hk t
      (by omega) (by omega) stack (pushArgs (p.next t) ts ++ rest)
    obtain ⟨vals, st₂, hexec₂, hlen, hregs, hsize, hcalls, hagree₂, hpassed₂⟩ :=
      ih hpush₁ (hk.next t) (by omega) (by omega) (v :: stack)
    refine ⟨v :: vals, st₂, ?_, by simp [hlen], hregs, hsize, hcalls, ?_, ?_⟩
    · rw [pushArgs, List.append_assoc, hexec₁, hexec₂, List.reverse_cons, List.append_assoc]
      rfl
    · intro a ha
      rw [hagree₂ a (by omega), hagree₁ a ha]
    · simp only [passedArgs, hpassed₁ _ hagree₂, hpassed₂, Option.bind_eq_bind, Option.bind_some]
      rfl

theorem sum_slots_le (ts : List TypeCode) : (ts.map TypeCode.slots).sum ≤ 2 * ts.length := by
  induction ts with
  | nil => rfl
  | cons t ts ih =>
    have : t.slots ≤ 2 := by cases t <;> decide
    rw [map_cons, sum_cons, length_cons]
    omega

theorem exec_wrapperArgs (h : HelperInfo) (hframe : CallFrame st) :
    ∃ vals st₁, (Code.ofList (wrapperArgs h)).exec host rd [] st =
        some (.next (resultAddr h (lo (regsOf st callStack)) ++ vals).reverse st₁) ∧
      vals.length = h.args.length ∧
      regsOf st₁ = regsOf st ∧ st₁.size = st.size ∧ st₁.calls = st.calls ∧
      passedArgs st₁.mem h.args vals = some (layoutArgs (callWords st) h.args) := by
  have hpush : Pushing st st ⟨0, 0, 0, false⟩ :=
    ⟨rfl, rfl, rfl, rfl, fun _ _ => rfl, nofun, fun _ => rfl⟩
  have hslot : AtSlot ⟨0, 0, 0, false⟩ 0 := ⟨rfl, rfl⟩
  have hsum := sum_slots_le h.args
  have hargs := h.nargs_le
  rw [maxCallIargs] at hargs
  obtain ⟨vals, st₁, hexec, hlen, hregs, hsize, hcalls, -, hpassed⟩ :=
    exec_pushArgs host rd hframe hpush hslot h.args
      (by rw [numOfIargRegs, staticCallArgsSize]; omega)
      (by rw [staticCallArgsSize]; simp only; omega)
      (resultAddr h (lo (regsOf st callStack))) []
  refine ⟨vals, st₁, ?_, hlen, hregs, hsize, hcalls, by rw [hpassed, layoutArgs_eq]⟩
  rw [List.append_nil] at hexec
  have hrev : (resultAddr h (lo (regsOf st callStack)) ++ vals).reverse =
      vals.reverse ++ resultAddr h (lo (regsOf st callStack)) := by
    rw [List.reverse_append, resultAddr]
    split <;> rfl
  rw [hrev, wrapperArgs]
  by_cases hret : h.ret = some .i128
  · rw [resultAddr, if_pos hret] at hexec ⊢
    rw [if_pos hret]
    exact hexec
  · rw [resultAddr, if_neg hret] at hexec ⊢
    rw [if_neg hret]
    exact hexec

theorem exec_wrapperResult (ret : Option TypeCode) (v : BitVec 128)
    (r : Option Value × Bytes) (hframe : CallFrame st₀) (hregs : regsOf st = regsOf st₀)
    (hsize : st.size = st₀.size) (hmem : st.mem = r.2)
    (hret : ReturnsValue ret v (lo (regsOf st₀ callStack)) r) :
    ∃ st', (Code.ofList (wrapperResult ret)).exec host rd r.1.toList st =
        some (.next [] st') ∧ st'.calls = st.calls ∧
      Returned ret v (regsOf st₀) (regsOf st') := by
  match ret with
  | none =>
    have hr : r.1 = none := hret
    rw [hr]
    exact ⟨st, rfl, rfl, hregs⟩
  | some .i32 | some .s32 | some .ptr =>
    have hr : r.1 = some (.i32 (v.setWidth 32)) := hret
    rw [hr]
    refine ⟨st.set64 (.reg 0) ((v.setWidth 32).signExtend 64), rfl, rfl, ?_, ?_⟩
    · rw [regsOf_set64_reg, update_self]
      exact lo_signExtend _
    · intro x hx
      rw [regsOf_set64_reg, update_of_ne hx, hregs]
  | some .i64 | some .s64 =>
    have hr : r.1 = some (.i64 (v.setWidth 64)) := hret
    rw [hr]
    refine ⟨st.set64 (.reg 0) (v.setWidth 64), rfl, rfl, ?_⟩
    rw [Returned, regsOf_set64_reg, hregs]
  | some .i128 =>
    obtain ⟨hr, hlow, hhigh⟩ := hret
    rw [hr]
    refine ⟨(st.set64 (.reg 0) (v.setWidth 64)).set64 (.reg 1) ((v >>> 64).setWidth 64), ?_,
      rfl, ?_⟩
    · have hfit (off : ℕ) (hoff : off ≤ 8) (st' : WState φ) (hst' : st'.size = st₀.size) :
          (lo (regsOf st₀ callStack)).toNat + off + 8 ≤ st'.size := by
        have := hframe.stack_le
        rw [stackBase, staticCallArgsSize] at this
        omega
      have hwrap : (regsOf st₀ callStack).setWidth 32 = lo (regsOf st₀ callStack) := rfl
      have hwrap' (x : BitVec 64) :
          (update (regsOf st₀) 0 x callStack).setWidth 32 =
            lo (regsOf st₀ callStack) := rfl
      simp only [wrapperResult, toList, Code.ofList, Code.exec, Instr.exec, getR, setR,
        v64_reg, regsOf_set64_reg, hregs, Value.as64, Value.as32, bind_eq_bind,
        bind_some, hwrap, hwrap',
        State.loadNat_of_le (hfit 0 (by omega) st hsize),
        State.loadNat_of_le (hfit 8 le_rfl (st.set64 _ _) hsize), extendLoaded,
        Bool.false_eq_true, if_false, State.set64_mem, hmem]
      rw [← hlow, ← hhigh]
      rfl
    · rw [Returned, regsOf_set64_reg, regsOf_set64_reg, hregs]

theorem wrapperFaithful (h : HelperInfo) : WrapperFaithful h := by
  intro φ func host rd f st hframe hhost
  obtain ⟨vals, st₁, hexec, hlen, hregs, hsize, hcalls, hpassed⟩ :=
    exec_wrapperArgs host rd h hframe
  let args := resultAddr h (lo (regsOf st callStack)) ++ vals
  have harity : host.arity func = args.length := by
    rw [hhost.arity]
    simp only [args, resultAddr]
    split <;> simp [hlen]
  have hreturns := hhost.returns st₁.calls (lo (regsOf st callStack)) vals st₁.mem _ hpassed
  let st₂ : WState φ :=
    { st₁ with
      mem := (host.run st₁.calls func args st₁.mem).2, calls := st₁.calls ++ [(func, args)] }
  have hregs₂ : regsOf st₂ = regsOf st := hregs
  obtain ⟨st', hexec', hcalls', hreturned⟩ :=
    exec_wrapperResult host rd h.ret _ _ hframe hregs₂ hsize rfl hreturns
  refine ⟨vals, st₁, st', hexec, hpassed, ?_, ?_, hreturned⟩
  · rw [genFuncWrapperCode, Code.exec_ofList_append hexec, ← hexec']
    have hlen' : args.reverse.length = host.arity func := by rw [harity, length_reverse]
    show (Code.cons (.call func) _).exec host rd args.reverse st₁ = _
    simp only [Code.exec, Instr.exec]
    rw [if_pos hlen'.ge, take_of_length_le hlen'.le, drop_eq_nil_of_le hlen'.le,
      append_nil, reverse_reverse]
  · rw [hcalls', ← hcalls]

/-- Every call path passes what the layout placed, and leaves the result in the
layout's registers, exactly if no 128-bit argument starts in the last argument
register; the generated code does so always. -/
theorem helperCall_faithful_iff (h : HelperInfo) :
    (CallFaithful h (tciFullCall h) ∧ CallFaithful h (tciHotLoopCall h) ∧ WrapperFaithful h) ↔
      ¬SplitsI128 h.args := by
  have hhot : tciHotLoopCall h = tciFullCall h := by
    funext w f
    rw [tciHotLoopCall]
    cases hr : tciHotCall h w f with
    | none => rfl
    | some r => exact tciHotCall_eq hr
  rw [hhot, callFaithful_tciFullCall_iff]
  constructor
  · rintro ⟨hfull, -, -⟩
    exact hfull
  · intro hsplit
    exact ⟨hsplit, hsplit, wrapperFaithful h⟩

/-- `helper_ld_i128(env, addr, oi)`. -/
def ldI128 : HelperInfo where
  args := [.ptr, .i64, .i32]
  ret := some .i128
  isLookupTbPtr := false
  nargs_le := by decide
  lookup_type := nofun

/-- The call stack at 4096 and the 128-bit buffer at 8192. -/
def sampleFrame : WState Unit :=
  ⟨fun _ => 4096#64, fun _ => 0#32, fun a => if a = 25 then 32 else 0, 16384, []⟩

/-- The words 3 and 5, for the arguments in the registers of `sampleFrame`. -/
def loadedWords (args : List ArgVal) : BitVec 128 :=
  if args = [.w32 4096#32, .w64 4096#64, .w32 4096#32] then 5#128 <<< 64 ||| 3#128 else 0#128

theorem callFrame_sampleFrame : CallFrame sampleFrame := by
  constructor <;> decide

theorem ldI128_returns_words :
    ∃ vals st', (Code.ofList (genFuncWrapperCode ldI128 ())).exec
        (pureHelper ldI128 loadedWords) .strict [] sampleFrame = some (.next [] st') ∧
      st'.calls = [((), .i32 4096#32 :: vals)] ∧ regsOf st' 0 = 3#64 ∧ regsOf st' 1 = 5#64 := by
  have hsplit : ¬SplitsI128 ldI128.args := by
    rintro ⟨before, after, hargs, -⟩
    have : TypeCode.i128 ∈ ldI128.args := hargs ▸ by simp
    simp [ldI128] at this
  obtain ⟨vals, -, st', -, -, hexec, hcalls, hret⟩ :=
    ((helperCall_faithful_iff ldI128).mpr hsplit).2.2 Unit () _ .strict _ sampleFrame
      callFrame_sampleFrame (helperHost_pureHelper () ldI128 loadedWords)
  refine ⟨vals, st', hexec, hcalls, ?_, ?_⟩
  · rw [hret]
    decide
  · rw [hret]
    decide

/-- `helper_atomic_cmpxchgo_le(env, addr, cmpv, newv, oi)`: `newv` starts in the
last argument register. -/
def atomicCmpxchgoLe : HelperInfo where
  args := [.ptr, .i64, .i128, .i128, .i32]
  ret := some .i128
  isLookupTbPtr := false
  nargs_le := by decide
  lookup_type := nofun

/-- The high word of `newv` is read from register 13, and `oi` from where that
word is. -/
theorem cmpxchgo_args_differ :
    (tciFullCall atomicCmpxchgoLe splitWords fun _ => 0#128).args =
        [.w32 0#32, .w64 0#64, .w128 0#64 0#64, .w128 0#64 0#64, .w32 1#32] ∧
      layoutArgs splitWords atomicCmpxchgoLe.args =
        [.w32 0#32, .w64 0#64, .w128 0#64 0#64, .w128 0#64 1#64, .w32 1#32] ∧
      ¬CallFaithful atomicCmpxchgoLe (tciFullCall atomicCmpxchgoLe) := by
  have hfull : (tciFullCall atomicCmpxchgoLe splitWords fun _ => 0#128).args =
      [.w32 0#32, .w64 0#64, .w128 0#64 0#64, .w128 0#64 0#64, .w32 1#32] := by decide
  have hlayout : layoutArgs splitWords atomicCmpxchgoLe.args =
      [.w32 0#32, .w64 0#64, .w128 0#64 0#64, .w128 0#64 1#64, .w32 1#32] := by decide
  refine ⟨hfull, hlayout, fun h => ?_⟩
  have hargs := (h splitWords fun _ => 0#128).1
  rw [hfull, hlayout] at hargs
  simp at hargs

end Bootbox.Tcg
