import Bootbox.Tcg.PlainOps

/-!
The generated code of an op without control flow against the interpreter.

For a 64-bit op the two agree in every destination register. For a 32-bit op with one
result they agree in the low word except where the emitted code looks at more than the low
word of its operand: the zero tests of `clz_i32` and `ctz_i32`, and the shift pairs of
`extract_i32` and `sextract_i32`. `plain32_agrees_iff` says exactly when.
-/

namespace Bootbox.Tcg

open Lib Wasm ByteMemory Words List Option Function

variable {φ : Type}

variable {w : ℕ} {v : BitVec 64} {offset : BitVec 32}

/-! ### Comparisons and masks -/

theorem compare_eq (a b : BitVec w) (cond : CmpCond) :
    cond.inst.eval a b = tciCompare a b cond := by
  cases cond <;> simp [CmpCond.inst, RelOp.eval, tciCompare, BitVec.slt, BitVec.sle, BitVec.lt_def,
    BitVec.le_def]

theorem Field.pos_lt (f : Field w) : f.pos < w := by
  have := f.pos_len
  have := f.len_pos
  omega

theorem depositMask_eq (f : Field w) : depositMask f = BitField.fieldMask w f.pos f.len := by
  have hlen := f.len_lt
  have hpow : 2 ^ f.len < 2 ^ w := Nat.pow_lt_pow_right (by decide) hlen
  have hpos : 0 < 2 ^ f.len := Nat.two_pow_pos _
  have hone : 1 % 2 ^ w = 1 := Nat.mod_eq_of_lt (by omega)
  have hnat : (1#w <<< f.len - 1#w).toNat = 2 ^ f.len - 1 := by
    rw [BitVec.toNat_sub, BitVec.toNat_shiftLeft, BitVec.toNat_ofNat, hone, Nat.one_shiftLeft,
      Nat.mod_eq_of_lt hpow, show 2 ^ w - 1 + 2 ^ f.len = 2 ^ f.len - 1 + 2 ^ w by omega,
      Nat.add_mod_right, Nat.mod_eq_of_lt (by omega)]
  rw [depositMask, BitField.fieldMask]
  congr 1
  refine BitVec.eq_of_getLsbD_eq fun i hi => ?_
  rw [BitVec.getLsbD, hnat, Nat.testBit_two_pow_sub_one, BitVec.getLsbD_ushiftRight,
    BitVec.getLsbD_allOnes]
  simp only [decide_eq_decide]
  omega

/-! ### What the code leaves -/

/-- Code that leaves nothing on the stack and a value in one register. -/
def Writes (host : Host φ) (rd : Reading) (code : WCode φ) (st : WState φ) (ret : Reg)
    (v : BitVec 64) : Prop :=
  ∃ st', code.exec host rd [] st = some (.next [] st') ∧
    regsOf st' = update (regsOf st) ret v

section Writes

variable {host : Host φ} {rd : Reading} {st : WState φ} {ret arg arg1 arg2 : Reg}

theorem mov_writes (type : IntType) :
    Writes host rd (.ofList (tcgWasmOutMov type ret arg)) st ret
      (match type with
      | .i32 => (lo (regsOf st arg)).setWidth 64
      | .i64 => regsOf st arg) := by
  cases type with
  | i32 => exact ⟨_, rfl, by simp [lo]⟩
  | i64 => exact ⟨_, rfl, by simp⟩

theorem movi_writes (type : IntType) (arg : BitVec 64) :
    Writes host rd (.ofList (tcgWasmOutMovi type ret arg)) st ret
      (match type with
      | .i32 => (lo arg).signExtend 64
      | .i64 => arg) := by
  cases type with
  | i32 => exact ⟨_, rfl, by simp⟩
  | i64 => exact ⟨_, rfl, by simp⟩

theorem calc_writes (op : BinOp) :
    Writes host rd (.ofList (tcgWasmOutI64Calc op ret arg1 arg2)) st ret
      (op.eval (regsOf st arg1) (regsOf st arg2)) :=
  ⟨_, rfl, by simp⟩

/-- `tcg_wasm_out_op_not`, evaluated. -/
@[simp] theorem xor_ones (v : BitVec 64) : BinOp.xor.eval v 0xffffffffffffffff#64 = ~~~v :=
  BitVec.xor_allOnes

@[simp] theorem and_lowMask (v : BitVec 64) :
    BinOp.and.eval v 0xffffffff#64 = (lo v).setWidth 64 :=
  and_mask_eq v (by decide : 32 ≤ 64)

theorem andc_writes :
    Writes host rd (.ofList (tcgWasmOutAndc ret arg1 arg2)) st ret
      (regsOf st arg1 &&& ~~~regsOf st arg2) :=
  ⟨_, rfl, by simp; rfl⟩

theorem orc_writes :
    Writes host rd (.ofList (tcgWasmOutOrc ret arg1 arg2)) st ret
      (regsOf st arg1 ||| ~~~regsOf st arg2) :=
  ⟨_, rfl, by simp; rfl⟩

theorem negated_writes (op : BinOp) :
    Writes host rd (.ofList (tcgWasmOutNegated op ret arg1 arg2)) st ret
      (~~~op.eval (regsOf st arg1) (regsOf st arg2)) :=
  ⟨_, rfl,
    by simp⟩

theorem shift_writes (op : BinOp) :
    Writes host rd (.ofList (shiftCode getLowU op .i32 ret arg1 arg2)) st ret
      (op.eval ((lo (regsOf st arg1)).setWidth 64) (regsOf st arg2 &&& 31#64)) :=
  ⟨_, rfl, by simp; rfl⟩

theorem shiftS_writes (op : BinOp) :
    Writes host rd (.ofList (shiftCode getLowS op .i32 ret arg1 arg2)) st ret
      (op.eval ((lo (regsOf st arg1)).signExtend 64) (regsOf st arg2 &&& 31#64)) :=
  ⟨_, rfl, by simp [BinOp.eval, lo]⟩

theorem shift64_writes (get : Reg → List (WInstr φ)) (op : BinOp) :
    Writes host rd (.ofList (shiftCode get op .i64 ret arg1 arg2)) st ret
      (op.eval (regsOf st arg1) (regsOf st arg2)) :=
  ⟨_, rfl, by simp⟩

theorem rot_writes (op : BinOp) :
    Writes host rd (.ofList (tcgWasmOutI32Rot op ret arg1 arg2)) st ret
      ((op.eval (lo (regsOf st arg1)) (lo (regsOf st arg2))).signExtend 64) :=
  ⟨_, rfl, by simp [lo]⟩

theorem division64_writes (get : Reg → List (WInstr φ)) {op : DivOp}
    (h : op.eval (regsOf st arg1) (regsOf st arg2) = some v) :
    Writes host rd (.ofList (divisionCode get op .i64 ret arg1 arg2)) st ret v :=
  ⟨_, by simp [divisionCode, getR, Code.exec, Instr.exec, Value.as64, h]; rfl, by simp⟩

theorem divisionU_writes {op : DivOp}
    (h : op.eval ((lo (regsOf st arg1)).setWidth 64) ((lo (regsOf st arg2)).setWidth 64) = some v) :
    Writes host rd (.ofList (divisionCode getLowU op .i32 ret arg1 arg2)) st ret v :=
  ⟨_, by simp [divisionCode, getLowU, getR, Code.exec, Instr.exec, Value.as64, h]; rfl, by simp⟩

theorem divisionS_writes {op : DivOp}
    (h : op.eval ((lo (regsOf st arg1)).signExtend 64) ((lo (regsOf st arg2)).signExtend 64) =
      some v) : Writes host rd (.ofList (divisionCode getLowS op .i32 ret arg1 arg2)) st ret v := by
  rw [lo, lo] at h
  exact ⟨_,
    by simp [divisionCode, getLowS, getR, Code.exec, Instr.exec, Value.as64, Value.as32, h]; rfl,
    by simp⟩

theorem count64_writes (op : UnOp) :
    Writes host rd (tcgWasmOutCount64 op ret arg1 arg2) st ret
      (if regsOf st arg1 = 0 then regsOf st arg2 else op.eval (regsOf st arg1)) :=
  ⟨_, by
    simp only [tcgWasmOutCount64, getR, run_get64, run_eqz64]
    rw [run_iteRet64 _ rfl rfl]
    simp only [decide_eq_true_eq]
    rfl, by simp; congr⟩

theorem count32_writes (op : UnOp) :
    Writes host rd (tcgWasmOutCount32 op ret arg1 arg2) st ret
      ((if regsOf st arg1 = 0 then lo (regsOf st arg2)
        else op.eval (lo (regsOf st arg1))).signExtend 64) :=
  ⟨_, by
    simp only [tcgWasmOutCount32, getR, run_get64, run_eqz64]
    rw [run_iteRet32 _ rfl rfl]
    simp only [decide_eq_true_eq]
    rfl, by simp [lo]; congr⟩

theorem extS_writes (op : UnOp) :
    Writes host rd (.ofList (tcgWasmOutExtS op ret arg)) st ret (op.eval (regsOf st arg)) :=
  ⟨_, rfl, by simp⟩

theorem extU_writes (mask : BitVec 64) :
    Writes host rd (.ofList (tcgWasmOutExtU mask ret arg)) st ret (regsOf st arg &&& mask) :=
  ⟨_, rfl, by simp [BinOp.eval]⟩

theorem ext32s_writes :
    Writes host rd (.ofList (tcgWasmOutExt32s ret arg)) st ret
      ((lo (regsOf st arg)).signExtend 64) :=
  ⟨_, rfl, by simp [lo]⟩

theorem cond_exec (type : IntType) (cond : CmpCond) (rest : WCode φ) :
    (Code.append (.ofList (tcgWasmOutOpCond type cond arg1 arg2)) rest).exec host rd [] st =
      rest.exec host rd
        [.i32 (ofBool (tciCompareAt type (regsOf st arg1) (regsOf st arg2) cond))] st := by
  cases type with
  | i32 =>
    rw [tciCompareAt, ← compare_eq]
    rfl
  | i64 =>
    rw [tciCompareAt, ← compare_eq]
    rfl

theorem setcond_writes (type : IntType) (cond : CmpCond) :
    Writes host rd (.ofList (tcgWasmOutSetcond type cond ret arg1 arg2)) st ret
      ((ofBool (tciCompareAt type (regsOf st arg1) (regsOf st arg2) cond)).setWidth 64) :=
  ⟨_, by
    rw [tcgWasmOutSetcond, Code.ofList_append]
    exact cond_exec type cond _, by simp⟩

theorem movcond_writes (type : IntType) (cond : CmpCond) {c1 c2 v1 v2 : Reg} :
    Writes host rd (tcgWasmOutMovcond type cond ret c1 c2 v1 v2) st ret
      (if tciCompareAt type (regsOf st c1) (regsOf st c2) cond then regsOf st v1
        else regsOf st v2) :=
  ⟨_, by
    rw [tcgWasmOutMovcond, cond_exec, run_iteRet64 _ rfl rfl]
    rfl, by simp⟩

theorem deposit_writes (type : IntType) (f : Field type.bits) :
    Writes host rd (.ofList (tcgWasmOutDeposit type f ret arg1 arg2)) st ret
      (tciDeposit (regsOf st arg1) (regsOf st arg2) type f) := by
  have hpos := f.pos_lt
  cases type with
  | i32 =>
    have hmask : depositMask f = BitField.fieldMask 32 f.pos f.len := depositMask_eq f
    refine ⟨_, rfl, ?_⟩
    simp [BinOp.eval, tciDeposit, BitField.deposit, hmask, lo, Nat.mod_eq_of_lt hpos]
  | i64 =>
    have hmask : depositMask f = BitField.fieldMask 64 f.pos f.len := depositMask_eq f
    refine ⟨_, rfl, ?_⟩
    simp [BinOp.eval, tciDeposit, BitField.deposit, hmask, Nat.mod_eq_of_lt hpos]

theorem bswap64_writes :
    Writes host rd (.ofList (tcgWasmOutBswap64 ret arg)) st ret
      (Words.bswap64 (regsOf st arg)) :=
  ⟨_, rfl, by simp [BinOp.eval, ← bswap64_eq]⟩

theorem bswap32_writes :
    Writes host rd (.ofList (tcgWasmOutBswap32 ret arg)) st ret
      ((Words.bswap32 (lo (regsOf st arg))).setWidth 64) :=
  ⟨_, rfl, by simp [BinOp.eval, ← bswap32_eq, lo, State.set32_v32]⟩

theorem Writes.append {is js : List (WInstr φ)} {w : BitVec 64}
    (hi : Writes host rd (.ofList is) st ret v)
    (hj : ∀ st' : WState φ, regsOf st' ret = v → Writes host rd (.ofList js) st' ret w) :
    Writes host rd (.ofList (is ++ js)) st ret w := by
  obtain ⟨st₁, he₁, hr₁⟩ := hi
  obtain ⟨st₂, he₂, hr₂⟩ := hj st₁ (by rw [hr₁, update_self])
  refine ⟨st₂, ?_, ?_⟩
  · rw [Code.exec_ofList_append he₁, he₂]
  · rw [hr₂, hr₁, update_idem]

/-- With an arithmetic shift the upper bits are those of the sign; the low half is right. -/
theorem bswap16_signed_writes :
    ∃ v, v.setWidth 16 = Words.bswap16 ((regsOf st arg).setWidth 16) ∧
      Writes host rd (.ofList (tcgWasmOutBswap16 true ret arg)) st ret v := by
  let r := (lo (regsOf st arg)).rotateRight 8
  refine ⟨((r &&& 0x000000ff#32) ||| (r &&& 0xff000000#32).sshiftRight 16).setWidth 64,
    ?_, _, rfl, ?_⟩
  · rw [BitVec.setWidth_setWidth_of_le _ (by decide : 16 ≤ 64), bswap16_signed_eq, lo,
      BitVec.setWidth_setWidth_of_le _ (by decide : 16 ≤ 32)]
  · simp [BinOp.eval, r, lo, State.set32_v32]

/-- `tcg_wasm_out_bswap16` and the extension behind it: all of the register is right. -/
theorem bswap16_writes (os : Bool) :
    Writes host rd (.ofList (tcgOutBswap16 os ret arg)) st ret
      (tciBswap16 (regsOf st arg) os) := by
  cases os with
  | false =>
    rw [tcgOutBswap16, if_neg (by decide), append_nil]
    refine ⟨_, rfl, ?_⟩
    simp [BinOp.eval, bswap16_eq, State.set32_v32, tciBswap16]
  | true =>
    obtain ⟨v, hv, hw⟩ := @bswap16_signed_writes φ host rd st ret arg
    refine hw.append fun st' hst => ?_
    rw [tciBswap16, if_pos rfl, tciUn, BitVec.setWidth_setWidth_of_le _ (by decide),
      BitVec.setWidth_eq, ← hv, ← hst]
    exact extS_writes .extend16S

theorem bswap32_os_writes (type : IntType) (os : Bool) :
    Writes host rd (.ofList (tcgOutBswap32 type os ret arg)) st ret
      (tciBswap32 type (regsOf st arg) os) := by
  cases type with
  | i32 => exact bswap32_writes
  | i64 =>
    cases os with
    | false =>
      rw [tcgOutBswap32, if_neg (by decide), append_nil]
      exact bswap32_writes
    | true =>
      refine bswap32_writes.append fun st' hst => ?_
      have hext := @ext32s_writes φ host rd st' ret ret
      rw [hst] at hext
      exact hext

/-- The two shifts of a field: of the whole register for either type. -/
theorem extract_writes (type : IntType) (f : Field type.bits) (sign : Bool) :
    Writes host rd (.ofList (tcgWasmOutExtract type f sign ret arg1)) st ret
      (if sign then
        (regsOf st arg1 <<< (type.bits - f.len - f.pos)).sshiftRight (type.bits - f.len)
      else (regsOf st arg1 <<< (type.bits - f.len - f.pos)) >>> (type.bits - f.len)) := by
  have hlen := f.len_pos
  have hbits : type.bits ≤ 64 := by cases type <;> decide
  have hmod : ∀ n < 64, n % 18446744073709551616 % 64 = n := by omega
  have hrs := hmod (type.bits - f.len) (by omega)
  have hsl := hmod (type.bits - f.len - f.pos) (by omega)
  by_cases h0 : 0 < type.bits - f.len - f.pos
  · refine ⟨_, by simp only [tcgWasmOutExtract, if_pos h0]; simp [getR, setR]; rfl, ?_⟩
    cases sign <;> simp [BinOp.eval, hrs, hsl]
  · have hz : type.bits - f.len - f.pos = 0 := by omega
    refine ⟨_, by simp only [tcgWasmOutExtract, if_neg h0]; simp [getR, setR]; rfl, ?_⟩
    cases sign <;> simp [BinOp.eval, hrs, hz]

end Writes

/-! ### Accesses -/

def accessAddr (base : BitVec 64) (offset : BitVec 32) : BitVec 32 :=
  if offset.toInt < 0 then lo base + offset else lo base

/-- The base is read from the register, or from the local that caches the CPU state's address;
nothing but that local changes. -/
theorem base_exec (host : Host φ) (rd : Reading) {envCached : Bool} {st : WState φ} {base : Reg}
    (henv : envCached = true → base = areg0 → st.v32 .env = lo (regsOf st areg0))
    (offset : BitVec 32) :
    ∃ st', regsOf st' = regsOf st ∧ st'.mem = st.mem ∧ st'.size = st.size ∧
      ∀ js, (Code.ofList (baseCode envCached base offset ++ js)).exec host rd [] st =
        (Code.ofList js).exec host rd [.i32 (accessAddr (regsOf st base) offset)] st' := by
  have hget : ∃ st', regsOf st' = regsOf st ∧ st'.mem = st.mem ∧ st'.size = st.size ∧
      ∀ js, (Code.ofList (getRI32 envCached base ++ js)).exec host rd [] st =
        (Code.ofList js).exec host rd [.i32 (lo (regsOf st base))] st' := by
    by_cases hb : base = areg0
    · subst hb
      cases envCached with
      | true =>
        refine ⟨st, rfl, rfl, rfl, fun js => ?_⟩
        rw [← henv rfl rfl]
        rfl
      | false => exact ⟨_, regsOf_set32 st .env _, rfl, rfl, fun js => rfl⟩
    · refine ⟨st, rfl, rfl, rfl, fun js => ?_⟩
      rw [getRI32, if_neg hb]
      rfl
  obtain ⟨st', hr, hm, hs, hexec⟩ := hget
  refine ⟨st', hr, hm, hs, fun js => ?_⟩
  rw [baseCode, append_assoc, hexec]
  by_cases hneg : offset.toInt < 0
  · rw [if_pos hneg, accessAddr, if_pos hneg]
    rfl
  · rw [if_neg hneg, accessAddr, if_neg hneg]
    rfl

/-- The effective address is the interpreter's pointer, unless a sum with an offset that is
not negative wraps around. -/
theorem accessAddr_add {base : BitVec 64}
    (h : 0 ≤ offset.toInt → (lo base).toNat + offset.toNat < 2 ^ 32) :
    (accessAddr base offset).toNat + memOffset offset =
      (lo (base + offset.signExtend 64)).toNat := by
  have hlo : lo (base + offset.signExtend 64) = lo base + offset := by
    rw [lo, BitVec.setWidth_add _ _ (by decide)]
    exact congrArg (lo base + ·) (lo_signExtend offset)
  rw [hlo, accessAddr, memOffset]
  by_cases hneg : offset.toInt < 0
  · rw [if_pos hneg, if_pos hneg, Nat.add_zero]
  · rw [if_neg hneg, if_neg hneg, BitVec.toNat_add, Nat.mod_eq_of_lt (h (by omega))]

/-! ### Agreement -/

def LdOpcode.type : LdOpcode → IntType
  | .ld8u type | .ld8s type | .ld16u type | .ld16s type | .ld type => type
  | .ld32u | .ld32s => .i64

def StOpcode.type : StOpcode → IntType
  | .st8 type | .st16 type | .st type => type
  | .st32 => .i64

def PlainOp.width : PlainOp → IntType
  | .mov type .. | .movi type .. | .bin _ type .. | .un _ type .. => type
  | .conv .extrlI64I32 .. => .i32
  | .conv .. => .i64
  | .bswap16 type .. | .bswap32 type .. => type
  | .bswap64 .. => .i64
  | .setcond type .. | .movcond type .. => type
  | .deposit type .. | .extract type .. | .sextract type .. => type
  | .add2 type .. | .sub2 type .. => type
  | .mulu2I32 .. | .muls2I32 .. => .i32
  | .ld op .. => op.type
  | .st op .. => op.type

/-- Equal as values of a type: the upper half of a register with a 32-bit value is free. -/
def SameAt : IntType → BitVec 64 → BitVec 64 → Prop
  | .i32, x, y => lo x = lo y
  | .i64, x, y => x = y

def tciOf (st : WState φ) : TciState := ⟨regsOf st, st.mem, st.size⟩

/-- What an access takes for granted: the local that caches the CPU state's address holds
it, and base and offset do not add up to more than an address. -/
def PlainOp.Addressed (envCached : Bool) (st : WState φ) : PlainOp → Prop
  | .ld _ _ base offset | .st _ _ base offset =>
    (envCached = true → base.val = areg0 → st.v32 .env = lo (regsOf st areg0)) ∧
      (0 ≤ offset.toInt → (lo (regsOf st base)).toNat + offset.toNat < 2 ^ 32)
  | _ => True

/-- The generated code ends with the interpreter's values in the destination registers, all
other registers as they were, and the interpreter's memory. -/
def PlainAgrees (host : Host φ) (rd : Reading) (envCached : Bool) (op : PlainOp) (st : WState φ)
    (s : TciState) : Prop :=
  ∃ st', (op.code envCached).exec host rd [] st = some (.next [] st') ∧
    (∀ r ∈ op.dests, SameAt op.width (regsOf st' r) (s.regs r)) ∧
    (∀ r, r ∉ op.dests → regsOf st' r = regsOf st r) ∧ st'.mem = s.mem

@[simp] theorem TciState.set_regs (s : TciState) (r : Reg) (v : BitVec 64) :
    (s.set r v).regs = update s.regs r v := rfl

theorem SameAt.of_eq {type : IntType} {x y : BitVec 64} (h : x = y) : SameAt type x y := by
  subst h
  cases type <;> rfl

variable {op : PlainOp}

theorem PlainOp.code_keepsMemory (h : op.dests ≠ []) (envCached : Bool) :
    (op.code envCached : WCode φ).keepsMemory = true := by
  cases op with
  | mov type => cases type <;> rfl
  | movi type => cases type <;> rfl
  | bin op type => cases op <;> cases type <;> rfl
  | un op type => cases op <;> cases type <;> rfl
  | conv op => cases op <;> rfl
  | bswap16 type os => cases os <;> rfl
  | bswap32 type os => cases type <;> cases os <;> rfl
  | bswap64 => rfl
  | setcond type => cases type <;> rfl
  | movcond type => cases type <;> rfl
  | deposit type => cases type <;> rfl
  | extract type f dest arg1 | sextract type f dest arg1 =>
    by_cases hs : 0 < type.bits - f.len - f.pos <;>
      simp [PlainOp.code, tcgWasmOutExtract, hs, Code.keepsMemory, Instr.keepsMemory, getR, setR]
  | add2 type retl reth al ah bl bh =>
    by_cases hal : al = retl <;> by_cases hbl : bl = retl <;>
      simp [PlainOp.code, tcgWasmOutAdd2, hal, hbl, Code.keepsMemory, Instr.keepsMemory, getR, setR]
  | sub2 type retl reth al ah bl bh =>
    by_cases hal : al = retl <;>
      simp [PlainOp.code, tcgWasmOutSub2, hal, Code.keepsMemory, Instr.keepsMemory, getR, setR]
  | mulu2I32 => rfl
  | muls2I32 => rfl
  | ld op val base offset =>
    rw [PlainOp.code, Code.keepsMemory_ofList, tcgWasmOutLd, baseCode, getRI32, getEnv]
    split <;> split <;> (try split) <;> rfl
  | st => exact absurd rfl h

section Agree

variable {host : Host φ} {rd : Reading} {envCached : Bool} {st : WState φ} {s : TciState}

variable {retl reth : Reg}

theorem agrees_of_writes {ret : Reg} {v' : BitVec 64} (hd : op.dests = [ret])
    (hw : Writes host rd (op.code envCached) st ret v) :
    PlainAgrees host rd envCached op st ((tciOf st).set ret v') ↔ SameAt op.width v v' := by
  obtain ⟨st', hexec, hregs⟩ := hw
  constructor
  · rintro ⟨st'', hexec', hsame, -, -⟩
    rw [hexec] at hexec'
    cases hexec'
    have := hsame ret (by simp [hd])
    rwa [hregs, update_self, TciState.set_regs, update_self] at this
  · intro h
    have hk := PlainOp.code_keepsMemory (φ := φ) (by simp [hd] : op.dests ≠ []) envCached
    refine ⟨st', hexec, ?_, ?_, Code.mem_eq_of_keepsMemory hk hexec⟩
    · intro r hr
      rw [hd, mem_singleton] at hr
      rw [hr, hregs, update_self, TciState.set_regs, update_self]
      exact h
    · intro r hr
      rw [hd, mem_singleton] at hr
      rw [hregs, update_of_ne hr]

theorem agrees_of_leaves {code : List (WInstr φ)} {l h : BitVec 64} (hd : op.dests = [retl, reth])
    (hc : op.code envCached = Code.ofList code)
    (hl : Leaves host rd code st (pairWritten (regsOf st) retl reth l h)) :
    PlainAgrees host rd envCached op st (((tciOf st).set retl l).set reth h) := by
  obtain ⟨st', hexec, hregs⟩ := hl
  rw [← hc] at hexec
  have hk := PlainOp.code_keepsMemory (φ := φ) (by simp [hd] : op.dests ≠ []) envCached
  refine ⟨st', hexec, fun r _ => .of_eq ?_, ?_, Code.mem_eq_of_keepsMemory hk hexec⟩
  · rw [hregs]
    rfl
  · intro r hr
    simp only [hd, mem_cons, not_mem_nil, or_false, not_or] at hr
    rw [hregs, pairWritten, update_of_ne hr.2, update_of_ne hr.1]

theorem sameAt_extendLoaded (op : LdOpcode) (n : ℕ) :
    SameAt op.type (extendLoaded op.wasm.1 op.wasm.2 n) (extendLoaded op.tci.1 op.tci.2 n) := by
  by_cases h : op = .ld .i32
  · subst h
    change lo ((BitVec.ofNat 32 n).signExtend 64) = lo (BitVec.ofNat 64 n)
    rw [lo_signExtend, lo, BitVec.setWidth_ofNat_of_le (by decide)]
  · have hsame : op.wasm = op.tci := by
      cases op with
      | ld type =>
        cases type with
        | i32 => exact absurd rfl h
        | i64 => rfl
      | _ => rfl
    rw [hsame]
    exact .of_eq rfl

theorem LdOpcode.wasm_bytes (op : LdOpcode) : op.wasm.1 = op.tci.1 := by
  cases op with
  | ld type => cases type <;> rfl
  | _ => rfl

theorem ld_agrees {op : LdOpcode} {val base : OpReg}
    (ha : (PlainOp.ld op val base offset).Addressed envCached st)
    (ht : (PlainOp.ld op val base offset).tci (tciOf st) = some s) :
    PlainAgrees host rd envCached (.ld op val base offset) st s := by
  obtain ⟨st', hregs, hmem, hsize, hexec⟩ := base_exec host rd ha.1 offset
  have haddr := accessAddr_add ha.2
  simp only [PlainOp.tci, TciState.address, bind_eq_bind, bind_eq_some_iff,
    ite_none_right_eq_some, some.injEq] at ht
  obtain ⟨a, ⟨hle, ha⟩, rfl⟩ := ht
  have haddr' : (accessAddr (regsOf st base) offset).toNat + memOffset offset = a :=
    haddr.trans ha
  have hload := State.loadNat_of_le
    (show (accessAddr (regsOf st base) offset).toNat + memOffset offset + op.wasm.1 ≤ st'.size by
      rw [haddr, hsize, op.wasm_bytes]
      exact hle)
  rw [haddr', hmem, op.wasm_bytes] at hload
  refine ⟨st'.set64 (.reg val)
    (extendLoaded op.wasm.1 op.wasm.2 (leNat (load st.mem a op.tci.1))), (hexec _).trans ?_,
    ?_, ?_, ?_⟩
  · rw [Code.ofList_cons, op.wasm_bytes, run_load64 hload, ← op.wasm_bytes]
    rfl
  · intro r hr
    obtain rfl : r = val := mem_singleton.mp hr
    rw [regsOf_set64_reg, update_self]
    dsimp only
    rw [update_self]
    exact sameAt_extendLoaded op _
  · intro r hr
    rw [regsOf_set64_reg, update_of_ne (fun h => hr (mem_singleton.mpr h)), hregs]
  · exact hmem

theorem st_agrees {op : StOpcode} {val base : OpReg}
    (ha : (PlainOp.st op val base offset).Addressed envCached st)
    (ht : (PlainOp.st op val base offset).tci (tciOf st) = some s) :
    PlainAgrees host rd envCached (.st op val base offset) st s := by
  obtain ⟨st', hregs, hmem, hsize, hexec⟩ := base_exec host rd ha.1 offset
  have haddr := accessAddr_add ha.2
  simp only [PlainOp.tci, TciState.address, bind_eq_bind, bind_eq_some_iff,
    ite_none_right_eq_some, some.injEq] at ht
  obtain ⟨a, ⟨hle, ha⟩, rfl⟩ := ht
  have haddr' : (accessAddr (regsOf st base) offset).toNat + memOffset offset = a :=
    haddr.trans ha
  have hstore := State.storeNat_of_le (regsOf st val).toNat
    (show (accessAddr (regsOf st base) offset).toNat + memOffset offset + op.bytes ≤ st'.size by
      rw [haddr, hsize]
      exact hle)
  -- the value is not the reserved register, in which the interpreter adds up a long offset
  have hval : (tciOf st).ldstRegs base offset val = regsOf st val := by
    unfold TciState.ldstRegs
    split
    · rfl
    · exact update_of_ne val.2 ..
  refine ⟨{ st' with mem := store st'.mem a (leBytes op.bytes (regsOf st val).toNat) },
    (hexec _).trans ?_, fun r hr => absurd hr not_mem_nil, ?_, ?_⟩
  · rw [Code.ofList_cons, getR, run_get64, v64_reg, hregs, Code.ofList_cons, run_store64 hstore,
      haddr']
    rfl
  · intro r _
    exact congrFun hregs r
  · change store st'.mem a _ = store st.mem a _
    rw [hmem, hval]

/-! ### The ops of two operands -/

section Bin

theorem toNat_and_63 (b : BitVec 64) : (b &&& 63#64).toNat = b.toNat % 64 :=
  toNat_and_mask b (by decide : 6 ≤ 64)

theorem toNat_and_31 (b : BitVec 64) : (b &&& 31#64).toNat = b.toNat % 32 :=
  toNat_and_mask b (by decide : 5 ≤ 64)

theorem remS_eval {a b : BitVec 64} (h : cDivision BitVec.srem a b = some v) :
    DivOp.remS.eval a b = some v := by
  simp only [cDivision, ite_none_left_eq_some] at h
  rw [DivOp.eval, if_neg (fun h0 => h.1 (.inl h0)), h.2]

theorem bin64_writes {op : BinOpcode} {ret arg1 arg2 : Reg}
    (h : tciBin (regsOf st arg1) (regsOf st arg2) op .i64 = some v) :
    Writes host rd (tcgOutBin ret arg1 arg2 op .i64) st ret v := by
  cases op with
  | add | sub | mul | and | or | xor =>
    cases h
    exact calc_writes _
  | andc =>
    cases h
    exact andc_writes
  | orc =>
    cases h
    exact orc_writes
  | eqv | nand | nor =>
    cases h
    exact negated_writes _
  | shl | shr =>
    cases h
    rw [toNat_and_63]
    exact shift64_writes getLowU _
  | sar =>
    cases h
    rw [toNat_and_63]
    exact shift64_writes getLowS _
  | rotl =>
    cases h
    rw [toNat_and_63, ← rotateLeft_eq_rol (by decide)]
    exact calc_writes .rotl
  | rotr =>
    cases h
    rw [toNat_and_63, ← rotateRight_eq_ror (by decide)]
    exact calc_writes .rotr
  | div => exact division64_writes getLowS (show DivOp.divS.eval _ _ = _ from h)
  | divu => exact division64_writes getLowU (show DivOp.divU.eval _ _ = _ from h)
  | rem => exact division64_writes getLowS (remS_eval h)
  | remu => exact division64_writes getLowU (show DivOp.remU.eval _ _ = _ from h)
  | clz =>
    cases h
    rw [ite_not]
    exact count64_writes .clz
  | ctz =>
    cases h
    rw [ite_not]
    exact count64_writes .ctz

/-- The zero test of `clz_i32` and `ctz_i32` is on the whole register: a low word of zero
below other bits is counted, as 32. -/
def BinOpcode.LowFits (a b : BitVec 64) : BinOpcode → Prop
  | .clz | .ctz => lo a = 0 → a = 0 ∨ lo b = 32
  | _ => True

theorem count_low_iff (f : BitVec 32 → BitVec 32) (hf : f 0 = 32) (a b : BitVec 64) :
    lo ((if a = 0 then lo b else f (lo a)).signExtend 64) =
        lo (if lo a ≠ 0 then (f (lo a)).setWidth 64 else b) ↔
      (lo a = 0 → a = 0 ∨ lo b = 32) := by
  rw [lo_signExtend]
  by_cases hlo : lo a = 0
  · rw [if_neg (not_not.mpr hlo)]
    by_cases ha : a = 0
    · rw [if_pos ha]
      exact iff_of_true rfl fun _ => .inl ha
    · rw [if_neg ha, hlo, hf]
      constructor
      · exact fun h _ => .inr h.symm
      · exact fun h => ((h rfl).resolve_left ha).symm
  · have ha : a ≠ 0 := fun h => hlo (by rw [h]; rfl)
    rw [if_neg ha, if_pos hlo, lo_setWidth]
    exact iff_of_true rfl fun h => absurd h hlo

theorem signExtend_ne_intMin (x : BitVec 32) : x.signExtend 64 ≠ BitVec.intMin 64 := by
  intro h
  have hint := congrArg BitVec.toInt h
  rw [BitVec.toInt_signExtend_of_le (by decide)] at hint
  have hmin : (BitVec.intMin 64).toInt = -2 ^ 63 := by decide
  have hle : -2 ^ 32 ≤ 2 * x.toInt := BitVec.le_two_mul_toInt
  omega

theorem cDivision_signExtend {f : BitVec 32 → BitVec 32 → BitVec 32} {a b : BitVec 32}
    (h : (cDivision f a b).map (BitVec.signExtend 64) = some v) :
    v = (f a b).signExtend 64 ∧ b.signExtend 64 ≠ 0 ∧ (a ≠ BitVec.intMin 32 ∨ b ≠ -1#32) := by
  simp only [cDivision, map_eq_some_iff, ite_none_left_eq_some, not_or, not_and_or] at h
  obtain ⟨q, ⟨⟨hb, hover⟩, hq⟩, rfl⟩ := h
  cases hq
  exact ⟨rfl, fun h0 => hb ((signExtend_eq_zero_iff (by decide) b).mp h0), hover⟩

theorem cDivisionU_setWidth {f : BitVec 32 → BitVec 32 → BitVec 32} {a b : BitVec 32}
    (h : (cDivisionU f a b).map (BitVec.setWidth 64) = some v) :
    v = (f a b).setWidth 64 ∧ b.setWidth 64 ≠ 0 := by
  simp only [cDivisionU, map_eq_some_iff, ite_none_left_eq_some] at h
  obtain ⟨q, ⟨hb, hq⟩, rfl⟩ := h
  cases hq
  exact ⟨rfl, fun h0 => hb ((setWidth_eq_zero_iff (by decide) b).mp h0)⟩

theorem bin32_writes {op : BinOpcode} {ret arg1 arg2 : Reg}
    (h : tciBin (regsOf st arg1) (regsOf st arg2) op .i32 = some v) :
    ∃ w, Writes host rd (tcgOutBin ret arg1 arg2 op .i32) st ret w ∧
      (lo w = lo v ↔ op.LowFits (regsOf st arg1) (regsOf st arg2)) := by
  cases op with
  | add | sub | mul | and | or | xor =>
    cases h
    exact ⟨_, calc_writes _, iff_of_true rfl trivial⟩
  | andc =>
    cases h
    exact ⟨_, andc_writes, iff_of_true rfl trivial⟩
  | orc =>
    cases h
    exact ⟨_, orc_writes, iff_of_true rfl trivial⟩
  | eqv | nand | nor =>
    cases h
    exact ⟨_, negated_writes _, iff_of_true rfl trivial⟩
  | shl =>
    cases h
    refine ⟨_, shift_writes .shl, iff_of_true ?_ trivial⟩
    rw [BinOp.eval, toNat_and_31, Nat.mod_eq_of_lt (by omega : _ % 32 < 64), lo,
      setWidth_shiftLeft (by decide), lo_setWidth]
    exact congrArg (· <<< _) (lo_setWidth _)
  | shr =>
    cases h
    refine ⟨_, shift_writes .shrU, iff_of_true ?_ trivial⟩
    rw [BinOp.eval, toNat_and_31, Nat.mod_eq_of_lt (by omega : _ % 32 < 64),
      ushiftRight_setWidth (by decide)]
  | sar =>
    cases h
    refine ⟨_, shiftS_writes .shrS, iff_of_true ?_ trivial⟩
    rw [BinOp.eval, toNat_and_31, Nat.mod_eq_of_lt (by omega : _ % 32 < 64),
      sshiftRight_signExtend (by decide)]
  | rotl =>
    cases h
    refine ⟨_, rot_writes .rotl, iff_of_true ?_ trivial⟩
    rw [toNat_and_31, lo_signExtend, lo_setWidth, BinOp.eval, rotateLeft_eq_rol (by decide),
      toNat_lo]
    congr 1
    omega
  | rotr =>
    cases h
    refine ⟨_, rot_writes .rotr, iff_of_true ?_ trivial⟩
    rw [toNat_and_31, lo_signExtend, lo_setWidth, BinOp.eval, rotateRight_eq_ror (by decide),
      toNat_lo]
    congr 1
    omega
  | div =>
    obtain ⟨rfl, hb, hover⟩ := cDivision_signExtend h
    refine ⟨_, divisionS_writes ?_, iff_of_true rfl trivial⟩
    rw [DivOp.eval, if_neg (not_or.mpr ⟨hb, fun hm => signExtend_ne_intMin _ hm.1⟩),
      sdiv_signExtend (by decide) hover]
  | divu =>
    obtain ⟨rfl, hb⟩ := cDivisionU_setWidth h
    refine ⟨_, divisionU_writes ?_, iff_of_true rfl trivial⟩
    rw [DivOp.eval, if_neg hb, udiv_setWidth (by decide)]
  | rem =>
    obtain ⟨rfl, hb, -⟩ := cDivision_signExtend h
    refine ⟨_, divisionS_writes ?_, iff_of_true rfl trivial⟩
    rw [DivOp.eval, if_neg hb, srem_signExtend (by decide)]
  | remu =>
    obtain ⟨rfl, hb⟩ := cDivisionU_setWidth h
    refine ⟨_, divisionU_writes ?_, iff_of_true rfl trivial⟩
    rw [DivOp.eval, if_neg hb, umod_setWidth (by decide)]
  | clz =>
    cases h
    exact ⟨_, count32_writes .clz,
      count_low_iff BitVec.clz (by decide) ..⟩
  | ctz =>
    cases h
    exact ⟨_, count32_writes .ctz,
      count_low_iff BitVec.ctz (by decide +kernel) ..⟩

end Bin

/-! ### The ops of one operand, and fields -/

theorem un_writes {op : UnOpcode} {type : IntType} {ret arg : Reg}
    (h : op = .ctpop → type = .i32 → rd = .numeric) :
    Writes host rd (.ofList (tcgOutUn ret arg op type)) st ret (tciUn (regsOf st arg) op type) := by
  cases op with
  | neg => exact ⟨_, rfl, by simp [tciUn, BitVec.neg_eq_not_add]; rfl⟩
  | not => exact ⟨_, rfl, by simp [tciUn]⟩
  | ctpop =>
    cases type with
    | i32 =>
      obtain rfl := h rfl rfl
      exact ⟨_, rfl, by simp [UnOp.eval, lo, tciUn]⟩
    | i64 => exact ⟨_, rfl, by simp [UnOp.eval, tciUn]⟩
  | ext8s => exact extS_writes .extend8S
  | ext16s => exact extS_writes .extend16S
  | ext8u =>
    rw [tciUn, ← and_mask_eq _ (by decide : 8 ≤ 64)]
    exact extU_writes 0xff#64
  | ext16u =>
    rw [tciUn, ← and_mask_eq _ (by decide : 16 ≤ 64)]
    exact extU_writes 0xffff#64

/-- The value the ops between the widths leave: `extrl_i64_i32` clears the upper half, which
the interpreter's move does not. -/
theorem conv_writes (op : ConvOpcode) {ret arg : Reg} :
    Writes host rd (.ofList (tcgOutConv ret arg op)) st ret
      (match op with
      | .ext32s | .extI32I64 => (lo (regsOf st arg)).signExtend 64
      | .ext32u | .extuI32I64 | .extrlI64I32 => (lo (regsOf st arg)).setWidth 64) := by
  have hlow := @extU_writes φ host rd st ret arg 0xffffffff#64
  rw [show regsOf st arg &&& 0xffffffff#64 = (lo (regsOf st arg)).setWidth 64 from
    and_lowMask _] at hlow
  cases op with
  | ext32s | extI32I64 => exact ext32s_writes
  | ext32u | extuI32I64 | extrlI64I32 => exact hlow

theorem shifts_eq_extract {pos len : ℕ} (h : pos + len ≤ 64) (a : BitVec 64) :
    (a <<< (64 - len - pos)) >>> (64 - len) = BitField.extract a pos len := by
  refine BitVec.eq_of_getLsbD_eq fun i hi => ?_
  rw [BitField.getLsbD_extract h, BitVec.getLsbD_ushiftRight, BitVec.getLsbD_shiftLeft,
    show 64 - len + i - (64 - len - pos) = pos + i by omega,
    decide_eq_false (by omega : ¬64 - len + i < 64 - len - pos), Bool.not_false, Bool.and_true]
  exact congrArg (· && _) (decide_eq_decide.mpr (by omega))

/-- The bits of a 64-bit shift pair for a 32-bit field: those above the field stay. -/
theorem getLsbD_shifts {pos len i : ℕ} (h : pos + len ≤ 32) (hl : 0 < len) (hi : i < 32)
    (a : BitVec 64) :
    ((a <<< (32 - len - pos)) >>> (32 - len)).getLsbD i = a.getLsbD (pos + i) := by
  rw [BitVec.getLsbD_ushiftRight, BitVec.getLsbD_shiftLeft,
    show 32 - len + i - (32 - len - pos) = pos + i by omega,
    decide_eq_true (by omega : 32 - len + i < 64),
    decide_eq_false (by omega : ¬32 - len + i < 32 - len - pos), Bool.not_false, Bool.true_and,
    Bool.true_and]

theorem getLsbD_lo (x : BitVec 64) {i : ℕ} (hi : i < 32) : (lo x).getLsbD i = x.getLsbD i := by
  rw [lo, BitVec.getLsbD_setWidth, decide_eq_true hi, Bool.true_and]

theorem extract_low_iff (f : Field 32) (a : BitVec 64) :
    lo ((a <<< (32 - f.len - f.pos)) >>> (32 - f.len)) =
        lo ((BitField.extract (lo a) f.pos f.len).setWidth 64) ↔
      ∀ i, f.len ≤ i → i < 32 → a.getLsbD (f.pos + i) = false := by
  have hfit := f.pos_len
  rw [lo_setWidth]
  constructor
  · intro h i hle hi
    have hbit := congrArg (BitVec.getLsbD · i) h
    simp only [getLsbD_lo _ hi, getLsbD_shifts hfit f.len_pos hi, BitField.getLsbD_extract hfit,
      decide_eq_false (by omega : ¬i < f.len), Bool.false_and] at hbit
    exact hbit
  · intro h
    refine BitVec.eq_of_getLsbD_eq fun i hi => ?_
    rw [getLsbD_lo _ hi, getLsbD_shifts hfit f.len_pos hi, BitField.getLsbD_extract hfit]
    by_cases hlen : i < f.len
    · rw [getLsbD_lo _ (by omega), decide_eq_true hlen, Bool.true_and]
    · rw [h i (by omega) hi, decide_eq_false hlen, Bool.false_and]

theorem sextract_low_iff (f : Field 32) (a : BitVec 64) :
    lo ((a <<< (32 - f.len - f.pos)).sshiftRight (32 - f.len)) =
        lo ((BitField.sextract (lo a) f.pos f.len).signExtend 64) ↔
      ∀ i, f.len ≤ i → i < 32 → a.getLsbD (f.pos + i) = a.getLsbD (f.pos + (f.len - 1)) := by
  have hfit := f.pos_len
  have hpos := f.len_pos
  rw [lo_signExtend]
  -- the low half of an arithmetic shift by less than half of the width is that of a logical one
  have hbits : ∀ i < 32, (lo ((a <<< (32 - f.len - f.pos)).sshiftRight (32 - f.len))).getLsbD i =
      a.getLsbD (f.pos + i) := by
    intro i hi
    rw [getLsbD_lo _ hi, BitVec.getLsbD_sshiftRight, if_pos (by omega),
      decide_eq_false (by omega : ¬64 ≤ i), Bool.not_false, Bool.true_and,
      ← BitVec.getLsbD_ushiftRight, getLsbD_shifts hfit hpos hi]
  have hsext : ∀ i < 32, (BitField.sextract (lo a) f.pos f.len).getLsbD i =
      a.getLsbD (f.pos + min i (f.len - 1)) := by
    intro i hi
    rw [BitField.getLsbD_sextract hfit hpos hi, getLsbD_lo _ (by omega)]
  constructor
  · intro h i hle hi
    rw [← hbits i hi, h, hsext i hi, Nat.min_eq_right (by omega)]
  · intro h
    refine BitVec.eq_of_getLsbD_eq fun i hi => ?_
    rw [hbits i hi, hsext i hi]
    by_cases hlen : i < f.len
    · rw [Nat.min_eq_left (by omega)]
    · rw [Nat.min_eq_right (by omega), h i (by omega) hi]

/-! ### All of them -/

/-- When a 32-bit op leaves the interpreter's low word: always, except that `clz_i32` and
`ctz_i32` test, and `extract_i32` and `sextract_i32` shift, the whole register, and that a
validator refuses the count of `ctpop_i32`, which nothing widens. -/
def PlainOp.LowFits (rd : Reading) (regs : RegFile) : PlainOp → Prop
  | .bin op .i32 _ arg1 arg2 => op.LowFits (regs arg1) (regs arg2)
  | .un .ctpop .i32 .. => rd = .numeric
  | .extract .i32 f _ arg1 =>
    ∀ i, f.len ≤ i → i < 32 → (regs arg1).getLsbD (f.pos + i) = false
  | .sextract .i32 f _ arg1 =>
    ∀ i, f.len ≤ i → i < 32 →
      (regs arg1).getLsbD (f.pos + i) = (regs arg1).getLsbD (f.pos + (f.len - 1))
  | _ => True

/-- An op with one result: what the generated code leaves agrees with the interpreter exactly
where `LowFits` says. -/
theorem agrees_iff_of_single (hone : op.dests.length = 1) (haddr : op.Addressed envCached st)
    (ht : op.tci (tciOf st) = some s) :
    PlainAgrees host rd envCached op st s ↔ op.LowFits rd (regsOf st) := by
  cases op with
  | mov type =>
    cases ht
    refine (agrees_of_writes rfl (mov_writes type)).trans (iff_of_true ?_ trivial)
    cases type with
    | i32 => exact lo_setWidth _
    | i64 => rfl
  | movi type ret arg =>
    cases ht
    exact (agrees_of_writes rfl (movi_writes type arg)).trans (iff_of_true (.of_eq rfl) trivial)
  | bin op type =>
    obtain ⟨v, hv, rfl⟩ := map_eq_some_iff.mp ht
    cases type with
    | i32 =>
      obtain ⟨w, hw, hiff⟩ := bin32_writes hv
      exact (agrees_of_writes rfl hw).trans hiff
    | i64 => exact (agrees_of_writes rfl (bin64_writes hv)).trans (iff_of_true rfl trivial)
  | un op type ret arg =>
    cases ht
    by_cases hpop : op = .ctpop ∧ type = .i32 ∧ rd = .strict
    · obtain ⟨rfl, rfl, rfl⟩ := hpop
      refine iff_of_false ?_ nofun
      rintro ⟨st', hexec, -⟩
      cases show none = _ from hexec
    · have hrd : op = .ctpop → type = .i32 → rd = .numeric := by
        intro h h'
        cases rd with
        | strict => exact absurd ⟨h, h', rfl⟩ hpop
        | numeric => rfl
      refine (agrees_of_writes rfl (un_writes hrd)).trans (iff_of_true (.of_eq rfl) ?_)
      unfold PlainOp.LowFits
      split <;> first | trivial | cases ‹PlainOp.un .. = _›
      exact hrd rfl rfl
  | conv op =>
    cases ht
    refine (agrees_of_writes rfl (conv_writes op)).trans (iff_of_true ?_ trivial)
    cases op with
    | extrlI64I32 => exact lo_setWidth _
    | _ => rfl
  | bswap16 type os =>
    cases ht
    exact (agrees_of_writes rfl (bswap16_writes os)).trans (iff_of_true (.of_eq rfl) trivial)
  | bswap32 type os =>
    cases ht
    exact (agrees_of_writes rfl (bswap32_os_writes type os)).trans
      (iff_of_true (.of_eq rfl) trivial)
  | bswap64 =>
    cases ht
    exact (agrees_of_writes rfl bswap64_writes).trans (iff_of_true rfl trivial)
  | setcond type cond =>
    cases ht
    exact (agrees_of_writes rfl (setcond_writes type cond)).trans
      (iff_of_true (.of_eq rfl) trivial)
  | movcond type cond =>
    cases ht
    exact (agrees_of_writes rfl (movcond_writes type cond)).trans
      (iff_of_true (.of_eq (apply_ite (regsOf st) ..).symm) trivial)
  | deposit type f =>
    cases ht
    exact (agrees_of_writes rfl (deposit_writes type f)).trans (iff_of_true (.of_eq rfl) trivial)
  | extract type f =>
    cases ht
    refine (agrees_of_writes rfl (extract_writes type f false)).trans ?_
    cases type with
    | i32 => exact extract_low_iff f _
    | i64 => exact iff_of_true (shifts_eq_extract f.pos_len _) trivial
  | sextract type f =>
    cases ht
    refine (agrees_of_writes rfl (extract_writes type f true)).trans ?_
    cases type with
    | i32 => exact sextract_low_iff f _
    | i64 => exact iff_of_true rfl trivial
  | ld => exact iff_of_true (ld_agrees haddr ht) trivial
  | add2 | sub2 | mulu2I32 | muls2I32 | st => cases hone

/-- A 64-bit op: the generated code computes the interpreter's value in every destination
register, whatever registers the op has and whatever they hold, and changes no other. The
result of a comparison is read as a number, which only `sub2_i64` needs. -/
theorem plain64_agrees (host : Host φ) (envCached : Bool) (op : PlainOp) (st : WState φ)
    (h64 : op.width = .i64) (haddr : op.Addressed envCached st) {s : TciState}
    (ht : op.tci (tciOf st) = some s) : PlainAgrees host .numeric envCached op st s := by
  by_cases hone : op.dests.length = 1
  · refine (agrees_iff_of_single hone haddr ht).mpr ?_
    unfold PlainOp.LowFits
    split <;> trivial
  · cases op with
    | add2 type retl reth al ah bl bh =>
      obtain rfl : type = .i64 := h64
      cases ht
      have hl := add2_leaves host .numeric retl reth al ah bl bh st
      rw [signExtend_ofBool] at hl
      exact agrees_of_leaves rfl rfl hl
    | sub2 type retl reth al ah bl bh =>
      obtain rfl : type = .i64 := h64
      cases ht
      have hl := sub2_leaves host retl reth al ah bl bh st
      rw [gtU_sub] at hl
      exact agrees_of_leaves rfl rfl hl
    | mulu2I32 | muls2I32 => cases h64
    | st => exact st_agrees haddr ht
    | _ => exact absurd rfl hone

/-- Sixteen in `r1`, and 64 bytes of memory that hold their addresses. -/
def loadState : WState Empty where
  v64 x := if x = .reg 1 then 16#64 else 0#64
  v32 _ := 0#32
  mem a := UInt8.ofNat a
  size := 64
  calls := []

/-- `ld_i64 r0, 8(r1)` reads the eight bytes from 24 on. -/
theorem plain64_agrees_ld :
    ∃ s, (PlainOp.ld (.ld .i64) ⟨0, by decide⟩ ⟨1, by decide⟩ 8#32).tci (tciOf loadState) =
        some s ∧ s.regs 0 = 0x1f1e1d1c1b1a1918#64 ∧
      PlainAgrees noImports .numeric false (.ld (.ld .i64) ⟨0, by decide⟩ ⟨1, by decide⟩ 8#32)
        loadState s := by
  have hdef : ((PlainOp.ld (.ld .i64) ⟨0, by decide⟩ ⟨1, by decide⟩ 8#32).tci
      (tciOf loadState)).map (·.regs 0) = some 0x1f1e1d1c1b1a1918#64 := by decide +kernel
  obtain ⟨s, hs, hval⟩ := map_eq_some_iff.mp hdef
  refine ⟨s, hs, hval, plain64_agrees noImports false _ loadState rfl ?_ hs⟩
  exact ⟨nofun, fun _ => by decide⟩

def PlainOp.single32 : PlainOp → Bool
  | .conv .extI32I64 .. | .conv .extuI32I64 .. => true
  | .add2 .. | .sub2 .. | .mulu2I32 .. | .muls2I32 .. | .st .. => false
  | op => op.width = .i32

/-- A 32-bit op with one result: what the generated code leaves agrees with the interpreter,
on the low word or on all of a 64-bit result, exactly where `LowFits` says. -/
theorem plain32_agrees_iff (host : Host φ) (rd : Reading) (envCached : Bool) (op : PlainOp)
    (st : WState φ) (h32 : op.single32 = true) (haddr : op.Addressed envCached st)
    {s : TciState} (ht : op.tci (tciOf st) = some s) :
    PlainAgrees host rd envCached op st s ↔ op.LowFits rd (regsOf st) := by
  refine agrees_iff_of_single ?_ haddr ht
  cases op <;> first | rfl | cases h32

/-- `0x00ffff00` in `r1`. -/
def fieldState : WState Empty where
  v64 x := if x = .reg 1 then 0x00ffff00#64 else 0#64
  v32 _ := 0#32
  mem _ := 0
  size := 0
  calls := []

/-- The second byte, as `extract_i32` passes it. -/
def secondByte : Field 32 := ⟨8, 8, by decide, by decide, by decide⟩

theorem plain32_agrees_iff_secondByte :
    ¬PlainAgrees noImports .numeric false (.extract .i32 secondByte 0 1) fieldState
      ((tciOf fieldState).set 0 (tciExtract 0x00ffff00#64 .i32 secondByte)) := by
  intro h
  have hfits := (plain32_agrees_iff noImports .numeric false (.extract .i32 secondByte 0 1)
    fieldState rfl trivial rfl).mp h
  exact absurd (hfits 8 (by decide) (by decide)) (by decide)

/-- The second byte of `0x00ffff00` is `0xff`; the generated code leaves `0xffff`. -/
theorem extract_keeps_bits_above :
    ((PlainOp.extract .i32 secondByte 0 1).tci (tciOf fieldState)).map (·.regs 0) = some 0xff#64 ∧
      ∀ rd, ∃ st', ((PlainOp.extract .i32 secondByte 0 1).code false).exec noImports rd []
        fieldState = some (.next [] st') ∧ regsOf st' 0 = 0xffff#64 :=
  ⟨rfl, fun _ => ⟨_, rfl, by decide⟩⟩

end Agree

end Bootbox.Tcg
