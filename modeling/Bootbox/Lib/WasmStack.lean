import Bootbox.Lib.ByteMemory

/-!
The straight-line part of WebAssembly: a stack of typed values, 64-bit and
32-bit variables, linear memory, calls to imported functions, and `if`.

Variables, of either width, and imported functions are named by arbitrary types.
What an imported function does may depend on every call made before it; the
calls are recorded, so two programs can be compared by the calls they make.
-/

namespace Bootbox.Lib.Wasm

open ByteMemory

variable {offset bytes : ℕ}

inductive Value
  | i32 (v : BitVec 32)
  | i64 (v : BitVec 64)
  deriving DecidableEq

/-- How a 32-bit operand in the place of a 64-bit one is taken: refused, as a
validator does, or read as the number it is. -/
inductive Reading
  | strict
  | numeric
  deriving DecidableEq

def Value.as64 (rd : Reading) : Value → Option (BitVec 64)
  | .i64 v => some v
  | .i32 v =>
    match rd with
    | .strict => none
    | .numeric => some (v.setWidth 64)

def Value.as32 : Value → Option (BitVec 32)
  | .i32 v => some v
  | .i64 _ => none

inductive BinOp
  | add | sub | mul | and | or | xor | shl | shrU | shrS | rotl | rotr

def BinOp.eval {w : ℕ} : BinOp → BitVec w → BitVec w → BitVec w
  | .add, a, b => a + b
  | .sub, a, b => a - b
  | .mul, a, b => a * b
  | .and, a, b => a &&& b
  | .or, a, b => a ||| b
  | .xor, a, b => a ^^^ b
  | .shl, a, b => a <<< (b.toNat % w)
  | .shrU, a, b => a >>> (b.toNat % w)
  | .shrS, a, b => a.sshiftRight (b.toNat % w)
  | .rotl, a, b => a.rotateLeft (b.toNat % w)
  | .rotr, a, b => a.rotateRight (b.toNat % w)

inductive UnOp
  | clz | ctz | popcnt | extend8S | extend16S

def UnOp.eval {w : ℕ} : UnOp → BitVec w → BitVec w
  | .clz, a => a.clz
  | .ctz, a => a.ctz
  | .popcnt, a => a.cpop
  | .extend8S, a => (a.setWidth 8).signExtend w
  | .extend16S, a => (a.setWidth 16).signExtend w

inductive DivOp
  | divS | divU | remS | remU

/-- Division traps for the divisor zero, and where the quotient is out of range. -/
def DivOp.eval {w : ℕ} : DivOp → BitVec w → BitVec w → Option (BitVec w)
  | .divS, a, b => if b = 0 ∨ a = BitVec.intMin w ∧ b = -1 then none else some (a.sdiv b)
  | .divU, a, b => if b = 0 then none else some (a / b)
  | .remS, a, b => if b = 0 then none else some (a.srem b)
  | .remU, a, b => if b = 0 then none else some (a % b)

inductive RelOp
  | eq | ne | ltU | gtU | leU | geU | ltS | gtS | leS | geS

def RelOp.eval {w : ℕ} : RelOp → BitVec w → BitVec w → Bool
  | .eq, a, b => a = b
  | .ne, a, b => a ≠ b
  | .ltU, a, b => a < b
  | .gtU, a, b => b < a
  | .leU, a, b => a ≤ b
  | .geU, a, b => b ≤ a
  | .ltS, a, b => a.slt b
  | .gtS, a, b => b.slt a
  | .leS, a, b => a.sle b
  | .geS, a, b => b.sle a

def ofBool (b : Bool) : BitVec 32 := BitVec.ofNat 32 b.toNat

/-- Instructions over 64-bit variables `ν`, 32-bit variables `μ` and imported
functions `φ`. Loads and stores carry the number of bytes and the offset. -/
inductive Instr (ν μ φ : Type)
  | const64 (v : BitVec 64)
  | const32 (v : BitVec 32)
  | get64 (x : ν)
  | set64 (x : ν)
  | tee64 (x : ν)
  | get32 (x : μ)
  | set32 (x : μ)
  | tee32 (x : μ)
  | bin64 (op : BinOp)
  | bin32 (op : BinOp)
  | un64 (op : UnOp)
  | un32 (op : UnOp)
  | div64 (op : DivOp)
  | rel64 (op : RelOp)
  | rel32 (op : RelOp)
  | eqz64
  | eqz32
  | wrap
  | extendS
  | extendU
  | load64 (bytes : ℕ) (signed : Bool) (offset : ℕ)
  | load32 (offset : ℕ)
  | store64 (bytes : ℕ) (offset : ℕ)
  | store32 (offset : ℕ)
  | call (f : φ)

inductive ValType
  | i32 | i64
  deriving DecidableEq

/-- Code: instructions in sequence, branching without and with a value left by either
arm, and an early return. -/
inductive Code (ν μ φ : Type)
  | nil
  | cons (i : Instr ν μ φ) (rest : Code ν μ φ)
  | ite (yes no rest : Code ν μ φ)
  | iteRet (type : ValType) (yes no rest : Code ν μ φ)
  | ret

def Code.ofList {ν μ φ : Type} : List (Instr ν μ φ) → Code ν μ φ
  | [] => .nil
  | i :: is => .cons i (ofList is)

def Code.append {ν μ φ : Type} : Code ν μ φ → Code ν μ φ → Code ν μ φ
  | .nil, d => d
  | .cons i rest, d => .cons i (rest.append d)
  | .ite yes no rest, d => .ite yes no (rest.append d)
  | .iteRet type yes no rest, d => .iteRet type yes no (rest.append d)
  | .ret, _ => .ret

instance {ν μ φ : Type} : Append (Code ν μ φ) := ⟨Code.append⟩

/-- The imported functions: how many operands each takes, and what it returns
and does to memory, given the calls made so far. -/
structure Host (φ : Type) where
  arity : φ → ℕ
  run : List (φ × List Value) → φ → List Value → Bytes → Option Value × Bytes

structure State (ν μ φ : Type) where
  v64 : ν → BitVec 64
  v32 : μ → BitVec 32
  mem : Bytes
  size : ℕ
  calls : List (φ × List Value)

inductive Outcome (ν μ φ : Type)
  | next (stack : List Value) (st : State ν μ φ)
  | returned (v : Value) (st : State ν μ φ)

variable {ν μ φ : Type}

variable {st st' : State ν μ φ}

namespace State

def set64 [DecidableEq ν] (st : State ν μ φ) (x : ν) (v : BitVec 64) : State ν μ φ :=
  { st with v64 := Function.update st.v64 x v }

def set32 [DecidableEq μ] (st : State ν μ φ) (x : μ) (v : BitVec 32) : State ν μ φ :=
  { st with v32 := Function.update st.v32 x v }

theorem set64_v64 [DecidableEq ν] (st : State ν μ φ) (x y : ν) (v : BitVec 64) :
    (st.set64 x v).v64 y = if y = x then v else st.v64 y := by
  simp [set64, Function.update_apply]

@[simp] theorem set64_mem [DecidableEq ν] (st : State ν μ φ) (x : ν) (v : BitVec 64) :
    (st.set64 x v).mem = st.mem := rfl

@[simp] theorem set32_v64 [DecidableEq μ] (st : State ν μ φ) (x : μ) (v : BitVec 32) :
    (st.set32 x v).v64 = st.v64 := rfl

theorem set32_v32 [DecidableEq μ] (st : State ν μ φ) (x y : μ) (v : BitVec 32) :
    (st.set32 x v).v32 y = if y = x then v else st.v32 y := by
  simp [set32, Function.update_apply]

@[simp] theorem set32_mem [DecidableEq μ] (st : State ν μ φ) (x : μ) (v : BitVec 32) :
    (st.set32 x v).mem = st.mem := rfl

/-- The number at an effective address, if it lies in memory. -/
def loadNat (st : State ν μ φ) (addr : BitVec 32) (offset bytes : ℕ) : Option ℕ :=
  if addr.toNat + offset + bytes ≤ st.size then
    some (leNat (load st.mem (addr.toNat + offset) bytes))
  else none

def storeNat (st : State ν μ φ) (addr : BitVec 32) (offset bytes v : ℕ) :
    Option (State ν μ φ) :=
  if addr.toNat + offset + bytes ≤ st.size then
    some { st with mem := store st.mem (addr.toNat + offset) (leBytes bytes v) }
  else none

theorem loadNat_of_le {addr : BitVec 32} (h : addr.toNat + offset + bytes ≤ st.size) :
    st.loadNat addr offset bytes = some (leNat (load st.mem (addr.toNat + offset) bytes)) :=
  if_pos h

theorem storeNat_of_le {addr : BitVec 32} (v : ℕ) (h : addr.toNat + offset + bytes ≤ st.size) :
    st.storeNat addr offset bytes v =
      some { st with mem := store st.mem (addr.toNat + offset) (leBytes bytes v) } :=
  if_pos h

end State

/-- The 64-bit value of `bytes` loaded bytes. -/
def extendLoaded (bytes : ℕ) (signed : Bool) (n : ℕ) : BitVec 64 :=
  if signed then (BitVec.ofNat (8 * bytes) n).signExtend 64 else BitVec.ofNat 64 n

@[simp] theorem Code.ofList_nil : (Code.ofList [] : Code ν μ φ) = .nil := rfl

@[simp] theorem Code.ofList_cons (i : Instr ν μ φ) (is : List (Instr ν μ φ)) :
    Code.ofList (i :: is) = .cons i (Code.ofList is) := rfl

theorem Code.ofList_append (is js : List (Instr ν μ φ)) :
    Code.ofList (is ++ js) = Code.ofList is ++ Code.ofList js := by
  induction is with
  | nil => rfl
  | cons i is ih =>
    show Code.cons i (Code.ofList (is ++ js)) = Code.cons i (Code.ofList is ++ Code.ofList js)
    rw [ih]

variable [DecidableEq ν] [DecidableEq μ]

/-- One instruction, on a stack whose head is its top. `none` is a trap or a
program no validator accepts. -/
def Instr.exec (host : Host φ) (rd : Reading) :
    Instr ν μ φ → List Value → State ν μ φ → Option (List Value × State ν μ φ)
  | .const64 v, stack, st => some (.i64 v :: stack, st)
  | .const32 v, stack, st => some (.i32 v :: stack, st)
  | .get64 x, stack, st => some (.i64 (st.v64 x) :: stack, st)
  | .set64 x, v :: stack, st => do some (stack, st.set64 x (← v.as64 rd))
  | .tee64 x, v :: stack, st => do some (v :: stack, st.set64 x (← v.as64 rd))
  | .get32 x, stack, st => some (.i32 (st.v32 x) :: stack, st)
  | .set32 x, v :: stack, st => do some (stack, st.set32 x (← v.as32))
  | .tee32 x, v :: stack, st => do some (v :: stack, st.set32 x (← v.as32))
  | .bin64 op, b :: a :: stack, st => do
      some (.i64 (op.eval (← a.as64 rd) (← b.as64 rd)) :: stack, st)
  | .bin32 op, b :: a :: stack, st => do
      some (.i32 (op.eval (← a.as32) (← b.as32)) :: stack, st)
  | .un64 op, a :: stack, st => do some (.i64 (op.eval (← a.as64 rd)) :: stack, st)
  | .un32 op, a :: stack, st => do some (.i32 (op.eval (← a.as32)) :: stack, st)
  | .div64 op, b :: a :: stack, st => do
      some (.i64 (← op.eval (← a.as64 rd) (← b.as64 rd)) :: stack, st)
  | .rel64 op, b :: a :: stack, st => do
      some (.i32 (ofBool (op.eval (← a.as64 rd) (← b.as64 rd))) :: stack, st)
  | .rel32 op, b :: a :: stack, st => do
      some (.i32 (ofBool (op.eval (← a.as32) (← b.as32))) :: stack, st)
  | .eqz64, a :: stack, st => do some (.i32 (ofBool ((← a.as64 rd) = 0)) :: stack, st)
  | .eqz32, a :: stack, st => do some (.i32 (ofBool ((← a.as32) = 0)) :: stack, st)
  | .wrap, a :: stack, st => do some (.i32 ((← a.as64 rd).setWidth 32) :: stack, st)
  | .extendS, a :: stack, st => do some (.i64 ((← a.as32).signExtend 64) :: stack, st)
  | .extendU, a :: stack, st => do some (.i64 ((← a.as32).setWidth 64) :: stack, st)
  | .load64 bytes signed offset, a :: stack, st => do
      let n ← st.loadNat (← a.as32) offset bytes
      some (.i64 (extendLoaded bytes signed n) :: stack, st)
  | .load32 offset, a :: stack, st => do
      let n ← st.loadNat (← a.as32) offset 4
      some (.i32 (BitVec.ofNat 32 n) :: stack, st)
  | .store64 bytes offset, v :: a :: stack, st => do
      some (stack, ← st.storeNat (← a.as32) offset bytes (← v.as64 rd).toNat)
  | .store32 offset, v :: a :: stack, st => do
      some (stack, ← st.storeNat (← a.as32) offset 4 (← v.as32).toNat)
  | .call f, stack, st =>
    if host.arity f ≤ stack.length then
      let args := (stack.take (host.arity f)).reverse
      let (res, mem) := host.run st.calls f args st.mem
      some (res.toList ++ stack.drop (host.arity f),
        { st with mem := mem, calls := st.calls ++ [(f, args)] })
    else none
  | _, _, _ => none

def Code.exec (host : Host φ) (rd : Reading) :
    Code ν μ φ → List Value → State ν μ φ → Option (Outcome ν μ φ)
  | .nil, stack, st => some (.next stack st)
  | .cons i rest, stack, st =>
    match i.exec host rd stack st with
    | none => none
    | some (stack, st) => rest.exec host rd stack st
  | .ite yes no rest, c :: stack, st =>
    match c.as32 with
    | none => none
    | some c =>
      match if c = 0 then no.exec host rd stack st else yes.exec host rd stack st with
      | some (.next stack st) => rest.exec host rd stack st
      | r => r
  | .iteRet _ yes no rest, c :: stack, st =>
    match c.as32 with
    | none => none
    | some c =>
      match if c = 0 then no.exec host rd stack st else yes.exec host rd stack st with
      | some (.next stack st) => rest.exec host rd stack st
      | r => r
  | .ret, v :: _, st => some (.returned v st)
  | _, _, _ => none

/-! ### One instruction at a time

Most rules of this kind are true by computation; these are named for the proofs that run a
sequence up to an instruction that may trap. -/

section Run

variable {host : Host φ} {rd : Reading} {rest : Code ν μ φ} {stack : List Value}
  {st : State ν μ φ}

@[simp] theorem run_get64 (x : ν) :
    (Code.cons (.get64 x) rest).exec host rd stack st =
      rest.exec host rd (.i64 (st.v64 x) :: stack) st := rfl

@[simp] theorem run_eqz64 (a : BitVec 64) :
    (Code.cons .eqz64 rest).exec host rd (.i64 a :: stack) st =
      rest.exec host rd (.i32 (ofBool (a = 0)) :: stack) st := rfl

theorem run_load64 {n : ℕ} {signed : Bool} {a : BitVec 32}
    (h : st.loadNat a offset bytes = some n) :
    (Code.cons (.load64 bytes signed offset) rest).exec host rd (.i32 a :: stack) st =
      rest.exec host rd (.i64 (extendLoaded bytes signed n) :: stack) st := by
  simp [Code.exec, Instr.exec, Value.as32, h]

theorem run_store64 {a : BitVec 32} {v : BitVec 64}
    (h : st.storeNat a offset bytes v.toNat = some st') :
    (Code.cons (.store64 bytes offset) rest).exec host rd (.i64 v :: .i32 a :: stack) st =
      rest.exec host rd stack st' := by
  simp [Code.exec, Instr.exec, Value.as32, Value.as64, h]

variable {type : ValType} {yes no : Code ν μ φ}

/-- Either arm leaves one value. -/
theorem run_iteRet (b : Bool) {v v' : Value}
    (hy : yes.exec host rd stack st = some (.next (v :: stack) st))
    (hn : no.exec host rd stack st = some (.next (v' :: stack) st)) :
    (Code.iteRet type yes no rest).exec host rd (.i32 (ofBool b) :: stack) st =
      rest.exec host rd ((if b then v else v') :: stack) st := by
  cases b
  · change (match no.exec host rd stack st with
      | some (.next stack st) => rest.exec host rd stack st
      | r => r) = _
    rw [hn]
    rfl
  · change (match yes.exec host rd stack st with
      | some (.next stack st) => rest.exec host rd stack st
      | r => r) = _
    rw [hy]
    rfl

theorem run_iteRet64 (b : Bool) {x y : BitVec 64}
    (hy : yes.exec host rd stack st = some (.next (.i64 x :: stack) st))
    (hn : no.exec host rd stack st = some (.next (.i64 y :: stack) st)) :
    (Code.iteRet type yes no rest).exec host rd (.i32 (ofBool b) :: stack) st =
      rest.exec host rd (.i64 (if b then x else y) :: stack) st := by
  rw [run_iteRet b hy hn, apply_ite Value.i64]

theorem run_iteRet32 (b : Bool) {x y : BitVec 32}
    (hy : yes.exec host rd stack st = some (.next (.i32 x :: stack) st))
    (hn : no.exec host rd stack st = some (.next (.i32 y :: stack) st)) :
    (Code.iteRet type yes no rest).exec host rd (.i32 (ofBool b) :: stack) st =
      rest.exec host rd (.i32 (if b then x else y) :: stack) st := by
  rw [run_iteRet b hy hn, apply_ite Value.i32]

end Run

theorem Code.exec_append (host : Host φ) (rd : Reading) (c d : Code ν μ φ) (stack : List Value)
    (st : State ν μ φ) :
    (c ++ d).exec host rd stack st =
      match c.exec host rd stack st with
      | some (.next stack st) => d.exec host rd stack st
      | r => r := by
  induction c generalizing stack st with
  | nil => rfl
  | cons i rest ih =>
    change (Code.cons i (rest ++ d)).exec host rd stack st = _
    simp only [Code.exec]
    cases i.exec host rd stack st with
    | none => rfl
    | some r => exact ih r.1 r.2
  | ite yes no rest _ _ ih | iteRet type yes no rest _ _ ih =>
    cases stack with
    | nil => rfl
    | cons c stack =>
      cases c with
      | i64 v => rfl
      | i32 b =>
        change (match if b = 0 then no.exec host rd stack st
            else yes.exec host rd stack st with
          | some (.next stack st) => (rest ++ d).exec host rd stack st
          | r => r) = match (match if b = 0 then no.exec host rd stack st
            else yes.exec host rd stack st with
          | some (.next stack st) => rest.exec host rd stack st
          | r => r) with
          | some (.next stack st) => d.exec host rd stack st
          | r => r
        generalize (if b = 0 then no.exec host rd stack st
          else yes.exec host rd stack st) = r
        rcases r with _ | ⟨stack', st'⟩ | ⟨v, st'⟩
        · rfl
        · exact ih stack' st'
        · rfl
  | ret =>
    change Code.ret.exec host rd stack st = _
    cases stack <;> rfl

variable {host : Host φ} {rd : Reading} {stack stack' : List Value}

theorem Code.exec_seq {c : Code ν μ φ} (h : c.exec host rd stack st = some (.next stack' st'))
    (d : Code ν μ φ) : (c ++ d).exec host rd stack st = d.exec host rd stack' st' := by
  rw [Code.exec_append, h]

/-- Branching on a truth value. -/
theorem Code.exec_ite_nil (host : Host φ) (rd : Reading) (yes no : Code ν μ φ) (b : Bool)
    (stack : List Value) (st : State ν μ φ) :
    (Code.ite yes no .nil).exec host rd (.i32 (ofBool b) :: stack) st =
      if b then yes.exec host rd stack st else no.exec host rd stack st := by
  cases b
  · simp only [Code.exec, Value.as32, ofBool, Bool.toNat_false, BitVec.ofNat_eq_ofNat, if_true,
      Bool.false_eq_true, if_false]
    rcases no.exec host rd stack st with _ | ⟨stack', st'⟩ | ⟨v, st'⟩ <;> rfl
  · have hone : ofBool true ≠ 0 := by decide
    simp only [Code.exec, Value.as32, hone, if_true, if_false]
    rcases yes.exec host rd stack st with _ | ⟨stack', st'⟩ | ⟨v, st'⟩ <;> rfl

/-- What runs after a list of instructions that ends normally. -/
theorem Code.exec_ofList_append {is : List (Instr ν μ φ)}
    (h : (Code.ofList is).exec host rd stack st = some (.next stack' st'))
    (js : List (Instr ν μ φ)) :
    (Code.ofList (is ++ js)).exec host rd stack st = (Code.ofList js).exec host rd stack' st' := by
  rw [Code.ofList_append, Code.exec_seq h]

/-! ### Memory left alone -/

def Instr.keepsMemory : Instr ν μ φ → Bool
  | .store64 .. | .store32 _ | .call _ => false
  | _ => true

def Code.keepsMemory : Code ν μ φ → Bool
  | .nil | .ret => true
  | .cons i rest => i.keepsMemory && rest.keepsMemory
  | .ite yes no rest | .iteRet _ yes no rest =>
    yes.keepsMemory && no.keepsMemory && rest.keepsMemory

omit [DecidableEq ν] [DecidableEq μ] in
theorem Code.keepsMemory_ofList (is : List (Instr ν μ φ)) :
    (Code.ofList is).keepsMemory = is.all Instr.keepsMemory := by
  induction is with
  | nil => rfl
  | cons i is ih => rw [Code.ofList_cons, Code.keepsMemory, ih, List.all_cons]

theorem Instr.mem_eq_of_keepsMemory {i : Instr ν μ φ} (h : i.keepsMemory = true)
    (he : i.exec host rd stack st = some (stack', st')) : st'.mem = st.mem := by
  unfold Instr.exec at he
  split at he <;> simp [Option.bind_eq_some_iff, keepsMemory] at he h <;>
    grind [State.set64_mem, State.set32_mem]

def Outcome.mem : Outcome ν μ φ → Bytes
  | .next _ st | .returned _ st => st.mem

theorem Code.mem_eq_of_keepsMemory {c : Code ν μ φ} (h : c.keepsMemory = true) {o : Outcome ν μ φ}
    (he : c.exec host rd stack st = some o) : o.mem = st.mem := by
  induction c generalizing stack st o with
  | nil => cases he; rfl
  | cons i rest ih =>
    simp only [keepsMemory, Bool.and_eq_true] at h
    simp only [Code.exec] at he
    cases hi : i.exec host rd stack st with
    | none => simp [hi] at he
    | some r =>
      rw [hi] at he
      exact (ih h.2 he).trans (Instr.mem_eq_of_keepsMemory h.1 hi)
  | ite yes no rest ihy ihn ih | iteRet type yes no rest ihy ihn ih =>
    simp only [keepsMemory, Bool.and_eq_true] at h
    rcases stack with _ | ⟨c | c, stack⟩
    · cases he
    · have hb : ∀ r, (if c = 0 then no.exec host rd stack st else yes.exec host rd stack st) =
          some r → r.mem = st.mem := by
        intro r hr
        split at hr
        · exact ihn h.1.2 hr
        · exact ihy h.1.1 hr
      change (match if c = 0 then no.exec host rd stack st else yes.exec host rd stack st with
        | some (.next stack st) => rest.exec host rd stack st
        | r => r) = some o at he
      generalize (if c = 0 then no.exec host rd stack st else yes.exec host rd stack st) = r
        at hb he
      rcases r with _ | ⟨stack', st'⟩ | ⟨v, st'⟩
      · cases he
      · exact (ih h.2 he).trans (hb _ rfl)
      · cases he
        exact hb _ rfl
    · cases he
  | ret =>
    cases stack with
    | nil => cases he
    | cons v stack => cases he; rfl

end Bootbox.Lib.Wasm
