import Bootbox.Lib.WasmStack

/-!
The registers of the TCG backend and the emission primitives of
`wasm32/tcg-target.c.inc` the other modules build on.

The sixteen registers are 64-bit wasm variables. With register locals they are
locals of the function, otherwise globals of the module; an instruction reads
and writes them alike, so one name stands for either.
-/

namespace Bootbox.Tcg

open Lib Wasm BitVec

/-- `TCG_REG_R0` to `TCG_REG_R15`. -/
abbrev Reg := Fin 16

abbrev RegFile := Reg → BitVec 64

/-! Numerals of the small types and comparisons of registers rest on these facts. Under names of
their own they are the same terms in all modules; otherwise each module would make its own. -/

instance neZero16 : NeZero 16 := ⟨by decide⟩

instance neZero14 : NeZero 14 := ⟨by decide⟩

instance neZero5 : NeZero 5 := ⟨by decide⟩

instance neZero4 : NeZero 4 := ⟨by decide⟩

instance lawfulBEq14 : LawfulBEq (Fin 14) := inferInstance

/-- `TCG_REG_TMP`. -/
def regTmp : Reg := 13

/-- `TCG_AREG0`: the register that holds the CPU state's address. -/
def areg0 : Reg := 14

/-- `TCG_TYPE_I32` and `TCG_TYPE_I64`. -/
inductive IntType
  | i32 | i64
  deriving DecidableEq

/-- The 64-bit variables of a generated function: the registers, the temporaries
`TMP64_0_IDX` to `TMP64_4_IDX`, and the block pointer. With register locals the
module's globals are copies that a resumed call reads: of the registers and of the
block pointer. -/
inductive Var64
  | reg (r : Reg)
  | tmp (i : Fin 5)
  | bp
  | saved (r : Reg)
  | resume
  deriving DecidableEq

/-- The 32-bit variables: `CTX_IDX`, `TMP32_LOCAL_ENV_IDX`, `TMP32_LOCAL_0_IDX`. -/
inductive Var32
  | ctx
  | env
  | tmp0
  deriving DecidableEq

abbrev WInstr (φ : Type) := Instr Var64 Var32 φ
abbrev WCode (φ : Type) := Code Var64 Var32 φ
abbrev WState (φ : Type) := State Var64 Var32 φ

def regsOf {φ : Type} (st : WState φ) : RegFile := fun r => st.v64 (.reg r)

variable {φ : Type}

@[simp] theorem regsOf_set64_reg (st : WState φ) (r : Reg) (v : BitVec 64) :
    regsOf (st.set64 (.reg r) v) = Function.update (regsOf st) r v := by
  funext x
  simp [regsOf, State.set64_v64, Function.update_apply]

@[simp] theorem regsOf_set64_tmp (st : WState φ) (i : Fin 5) (v : BitVec 64) :
    regsOf (st.set64 (.tmp i) v) = regsOf st := by
  funext x
  simp [regsOf, State.set64_v64]

@[simp] theorem regsOf_set64_saved (st : WState φ) (r : Reg) (v : BitVec 64) :
    regsOf (st.set64 (.saved r) v) = regsOf st := by
  funext x
  simp [regsOf, State.set64_v64]

@[simp] theorem regsOf_set64_bp (st : WState φ) (v : BitVec 64) :
    regsOf (st.set64 .bp v) = regsOf st := by
  funext x
  simp [regsOf, State.set64_v64]

@[simp] theorem regsOf_set64_resume (st : WState φ) (v : BitVec 64) :
    regsOf (st.set64 .resume v) = regsOf st := by
  funext x
  simp [regsOf, State.set64_v64]

@[simp] theorem regsOf_set32 (st : WState φ) (x : Var32) (v : BitVec 32) :
    regsOf (st.set32 x v) = regsOf st := rfl

@[simp] theorem v64_reg (st : WState φ) (r : Reg) : st.v64 (.reg r) = regsOf st r := rfl

@[simp] theorem tmp_set64_reg (st : WState φ) (r : Reg) (v : BitVec 64) (i : Fin 5) :
    (st.set64 (.reg r) v).v64 (.tmp i) = st.v64 (.tmp i) := by
  simp [State.set64_v64]

@[simp] theorem tmp_set64_tmp (st : WState φ) (i j : Fin 5) (v : BitVec 64) :
    (st.set64 (.tmp i) v).v64 (.tmp j) = if j = i then v else st.v64 (.tmp j) := by
  simp [State.set64_v64]

/-- `tcg_wasm_out_op_global_get_r`. -/
def getR (r : Reg) : WInstr φ := .get64 (.reg r)

/-- `tcg_wasm_out_op_global_set_r`. -/
def setR (r : Reg) : WInstr φ := .set64 (.reg r)

/-- `tcg_wasm_out_op_global_get_r_i32` for the register of the CPU state. -/
def getEnv (envCached : Bool) : List (WInstr φ) :=
  if envCached then [.get32 .env] else [getR areg0, .wrap, .tee32 .env]

/-- `tcg_wasm_out_op_set_r_as_i64`: split the value on the stack over two registers. -/
def setRAsI64 (al ah : Reg) : List (WInstr φ) :=
  [.set64 (.tmp 4),
   .get64 (.tmp 4), .const64 0xffffffff#64, .bin64 .and, setR al,
   .get64 (.tmp 4), .const64 32#64, .bin64 .shrU, .const64 0xffffffff#64, .bin64 .and, setR ah]

/-- The low word of a register, as a 32-bit operation sees it. -/
def lo (x : BitVec 64) : BitVec 32 := x.setWidth 32

def hi (x : BitVec 64) : BitVec 32 := (x >>> 32).setWidth 32

@[simp] theorem toNat_lo (x : BitVec 64) : (lo x).toNat = x.toNat % 2 ^ 32 := by
  simp [lo]

@[simp] theorem toNat_hi (x : BitVec 64) : (hi x).toNat = x.toNat / 2 ^ 32 := by
  have := x.isLt
  simp only [hi, toNat_setWidth, toNat_ushiftRight, Nat.shiftRight_eq_div_pow]
  omega

theorem lo_setWidth (x : BitVec 32) : lo (x.setWidth 64) = x := by
  have := x.isLt
  rw [← toNat_inj, toNat_lo, toNat_setWidth]
  omega

theorem lo_signExtend (x : BitVec 32) : lo (x.signExtend 64) = x := by
  have := x.isLt
  rw [← toNat_inj, toNat_lo, toNat_signExtend, toNat_setWidth]
  split <;> omega

end Bootbox.Tcg
