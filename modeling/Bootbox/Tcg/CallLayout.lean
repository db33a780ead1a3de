import Bootbox.Tcg.Emit
import Mathlib.Data.Nat.Bitwise

/-!
Helper calls in the interpreters. `initCallLayout` assigns the words of a
helper's arguments to argument registers and call-stack slots; the full
interpreter and the hot loop walk the argument list a second time to find them
again. The walkers agree with the layout unless a 128-bit argument starts in the
last argument register: its second word is then on the stack, and the
interpreters neither look for it there nor count it.
-/

namespace Bootbox.Tcg

open List Option Function

variable {i : ℕ}

/-- The type codes of helper arguments and results; a helper without a result
has none. -/
inductive TypeCode
  | i32 | s32 | i64 | s64 | ptr | i128
  deriving DecidableEq

def TypeCode.size : TypeCode → ℕ
  | .i32 | .s32 | .ptr => 4
  | .i64 | .s64 => 8
  | .i128 => 16

inductive ArgVal
  | w32 (v : BitVec 32)
  | w64 (v : BitVec 64)
  | w128 (low high : BitVec 64)
  deriving DecidableEq

def TypeCode.value (words : ℕ → BitVec 64) : TypeCode → ArgVal
  | .i32 | .s32 | .ptr => .w32 (lo (words 0))
  | .i64 | .s64 => .w64 (words 0)
  | .i128 => .w128 (words 0) (words 1)

def maxCallIargs : ℕ := 7

def numOfIargRegs : ℕ := 5

def regIndexIargBase : ℕ := 8

/-- What the backend knows of a helper. `helper_lookup_tb_ptr` is told apart by
its address. -/
structure HelperInfo where
  args : List TypeCode
  ret : Option TypeCode
  isLookupTbPtr : Bool
  nargs_le : args.length ≤ maxCallIargs
  lookup_type : isLookupTbPtr = true → args = [.ptr] ∧ ret = some .ptr

structure CallWords where
  regs : RegFile
  stack : ℕ → BitVec 64

def CallWords.slot (w : CallWords) (k : ℕ) : BitVec 64 :=
  if k < numOfIargRegs then w.regs (Fin.ofNat 16 (regIndexIargBase + k))
  else w.stack (k - numOfIargRegs)

/-! ### The layout -/

/-- `TCGCallArgumentLoc`: one word of one argument in one slot. -/
structure CallArgumentLoc where
  argIdx : ℕ
  tmpSubindex : ℕ
  argSlot : ℕ

/-- `TCGCumulativeArgs`. -/
structure CumulativeArgs where
  argIdx : ℕ
  argSlot : ℕ

def layoutArg1 (cum : CumulativeArgs) : List CallArgumentLoc × CumulativeArgs :=
  ([⟨cum.argIdx, 0, cum.argSlot⟩], ⟨cum.argIdx + 1, cum.argSlot + 1⟩)

def layoutArgNormalN (cum : CumulativeArgs) (n : ℕ) : List CallArgumentLoc × CumulativeArgs :=
  ((range n).map fun i => ⟨cum.argIdx, i, cum.argSlot + i⟩,
    ⟨cum.argIdx + 1, cum.argSlot + n⟩)

/-- One argument of the loop of `init_call_layout`: every kind is
`TCG_CALL_ARG_NORMAL` for this target. -/
def layoutArg (cum : CumulativeArgs) : TypeCode → List CallArgumentLoc × CumulativeArgs
  | .i32 | .s32 | .ptr | .i64 | .s64 => layoutArg1 cum
  | .i128 => layoutArgNormalN cum (128 / 64)

def layoutFrom (cum : CumulativeArgs) : List TypeCode → List CallArgumentLoc
  | [] => []
  | t :: ts => (layoutArg cum t).1 ++ layoutFrom (layoutArg cum t).2 ts

def initCallLayout (args : List TypeCode) : List CallArgumentLoc := layoutFrom ⟨0, 0⟩ args

def wordsOf (w : CallWords) (locs : List CallArgumentLoc) (idx i : ℕ) : BitVec 64 :=
  match locs.find? fun loc => loc.argIdx = idx ∧ loc.tmpSubindex = i with
  | some loc => w.slot loc.argSlot
  | none => 0#64

def layoutArgs (w : CallWords) (args : List TypeCode) : List ArgVal :=
  args.zipIdx.map fun (t, idx) => t.value (wordsOf w (initCallLayout args) idx)

def divRoundUp (n d : ℕ) : ℕ := (n + d - 1) / d

def TypeCode.slots (t : TypeCode) : ℕ := divRoundUp t.size 8

/-- The arguments from slot `k` on. -/
def slotArgs (w : CallWords) : ℕ → List TypeCode → List ArgVal
  | _, [] => []
  | k, t :: ts => t.value (fun i => w.slot (k + i)) :: slotArgs w (k + t.slots) ts

variable {t : TypeCode}

theorem value_congr {u v : ℕ → BitVec 64} (h : ∀ i < t.slots, u i = v i) :
    t.value u = t.value v := by
  cases t with
  | i128 => simp only [TypeCode.value, h 0 (by decide), h 1 (by decide)]
  | _ => simp only [TypeCode.value, h 0 (by decide)]

/-- The locations of an argument: its words in consecutive slots. -/
theorem layoutArg_eq (cum : CumulativeArgs) (t : TypeCode) :
    layoutArg cum t = layoutArgNormalN cum t.slots := by
  cases t <;> rfl

/-- The words of the first argument of a layout are in its own slots, whatever
was laid out before. -/
theorem wordsOf_head (w : CallWords) {pre : List CallArgumentLoc} {cum : CumulativeArgs}
    {ts : List TypeCode} (hpre : ∀ loc ∈ pre, loc.argIdx < cum.argIdx) (hi : i < t.slots) :
    wordsOf w (pre ++ layoutFrom cum (t :: ts)) cum.argIdx i = w.slot (cum.argSlot + i) := by
  have hnone : pre.find? (fun loc => loc.argIdx = cum.argIdx ∧ loc.tmpSubindex = i) = none := by
    rw [find?_eq_none]
    intro loc hloc
    have := hpre loc hloc
    simp only [decide_eq_true_eq]
    omega
  have hsome : (layoutArgNormalN cum t.slots).1.find?
      (fun loc => loc.argIdx = cum.argIdx ∧ loc.tmpSubindex = i) =
        some ⟨cum.argIdx, i, cum.argSlot + i⟩ := by
    simp only [layoutArgNormalN, find?_map]
    have : (range t.slots).find? (fun j => decide (j = i)) = some i := by
      rw [find?_range_eq_some]
      simp [hi]
      omega
    simp only [comp_def, true_and, this, map_some]
  rw [wordsOf, layoutFrom, layoutArg_eq, find?_append, hnone, find?_append, hsome]
  rfl

theorem map_wordsOf_layoutFrom (w : CallWords) (pre : List CallArgumentLoc) (cum : CumulativeArgs)
    (ts : List TypeCode) (hpre : ∀ loc ∈ pre, loc.argIdx < cum.argIdx) :
    (ts.zipIdx cum.argIdx).map
        (fun (t, idx) => t.value (wordsOf w (pre ++ layoutFrom cum ts) idx)) =
      slotArgs w cum.argSlot ts := by
  induction ts generalizing pre cum with
  | nil => rfl
  | cons t ts ih =>
    -- the locations of the head join the prefix
    have hpre' : ∀ loc ∈ pre ++ (layoutArg cum t).1, loc.argIdx < cum.argIdx + 1 := by
      intro loc hloc
      rcases List.mem_append.mp hloc with hloc | hloc
      · have := hpre loc hloc
        omega
      · rw [layoutArg_eq] at hloc
        simp only [layoutArgNormalN, List.mem_map] at hloc
        obtain ⟨i, -, rfl⟩ := hloc
        exact Nat.lt_succ_self _
    have hcum : (layoutArg cum t).2 = ⟨cum.argIdx + 1, cum.argSlot + t.slots⟩ := by
      rw [layoutArg_eq]
      rfl
    have htail := ih (pre ++ (layoutArg cum t).1) ⟨cum.argIdx + 1, cum.argSlot + t.slots⟩ hpre'
    rw [List.zipIdx_cons, List.map_cons, slotArgs]
    refine congrArg₂ List.cons (value_congr fun i hi => wordsOf_head w hpre hi) ?_
    rw [← htail, layoutFrom, hcum, List.append_assoc]

theorem layoutArgs_eq (w : CallWords) (args : List TypeCode) :
    layoutArgs w args = slotArgs w 0 args :=
  map_wordsOf_layoutFrom w [] ⟨0, 0⟩ args (by simp)

/-! ### The interpreters -/

/-- A pointer to an argument: `&regs[8 + i]` or `&stack[i]`. -/
inductive CallSlot
  | reg (i : ℕ)
  | stack (i : ℕ)

def CallSlot.words (w : CallWords) : CallSlot → ℕ → BitVec 64
  | .reg i, j => w.regs (Fin.ofNat 16 (regIndexIargBase + i + j))
  | .stack i, j => w.stack (i + j)

/-- The loop that fills `call_slots`. -/
def callSlots : ℕ → ℕ → List TypeCode → List (TypeCode × CallSlot)
  | _, _, [] => []
  | regIdx, stackIdx, t :: ts =>
    if regIdx < numOfIargRegs then
      (t, .reg regIdx) :: callSlots (regIdx + divRoundUp t.size 8) stackIdx ts
    else
      (t, .stack stackIdx) :: callSlots regIdx (stackIdx + divRoundUp t.size 8) ts

/-- `*(uint64_t *)slot` or `*(uint32_t *)slot`, with the bit of the mask; a larger
argument has neither. -/
def simpleArg (w : CallWords) (i : ℕ) : TypeCode × CallSlot → Option (ℕ × BitVec 64)
  | (t, slot) =>
    if t.size = 8 then some (1 <<< i, slot.words w 0)
    else if t.size ≤ 4 then some (0, (lo (slot.words w 0)).setWidth 64)
    else none

/-- The loop that fills `mask` and `av`. -/
def simpleArgs (w : CallWords) : ℕ → ℕ → List (TypeCode × CallSlot) →
    Option (ℕ × List (BitVec 64))
  | _, mask, [] => some (mask, [])
  | i, mask, a :: as => do
      let (bit, v) ← simpleArg w i a
      let (mask, av) ← simpleArgs w (i + 1) (mask ||| bit) as
      some (mask, v :: av)

/-- `tci_direct_call`: the generated table has an entry for every mask of up to
six arguments and every result of at most 64 bits. -/
def tciDirectCall (n mask len : ℕ) (av : List (BitVec 64)) : Option (List ArgVal) :=
  if n ≤ 6 ∧ mask < 2 ^ n ∧ len ≤ 2 then
    some (av.zipIdx.map fun (v, i) => if mask.testBit i then .w64 v else .w32 (lo v))
  else none

def retLen : Option TypeCode → ℕ
  | none => 0
  | some t => if t.size = 4 then 1 else if t.size = 8 then 2 else 3

/-- What a call did: the arguments the helper received and the registers left. -/
structure CallResult where
  args : List ArgVal
  regs : RegFile

/-- The registers after a result of code `len`. -/
def setResult (regs : RegFile) (len : ℕ) (v : BitVec 128) : RegFile :=
  if len = 1 then update regs 0 ((v.setWidth 32).setWidth 64)
  else if len = 2 then update regs 0 (v.setWidth 64)
  else if len = 3 then
    update (update regs 0 (v.setWidth 64)) 1 ((v >>> 64).setWidth 64)
  else regs

/-- A call of a helper that returns `f args`. -/
def callWith (w : CallWords) (len : ℕ) (f : List ArgVal → BitVec 128) (args : List ArgVal) :
    CallResult :=
  ⟨args, setResult w.regs len (f args)⟩

def directArgs (w : CallWords) (len : ℕ) (slots : List (TypeCode × CallSlot)) :
    Option (List ArgVal) :=
  if slots.length ≤ 6 ∧ len ≤ 2 then do
    let (mask, av) ← simpleArgs w 0 0 slots
    tciDirectCall slots.length mask len av
  else none

/-- What `ffi_call` passes: the value of each type at its pointer. -/
def ffiArgs (w : CallWords) (slots : List (TypeCode × CallSlot)) : List ArgVal :=
  slots.map fun (t, slot) => t.value (slot.words w)

/-- `INDEX_op_call` in `tcg_qemu_tb_exec_tci_full`. -/
def tciFullCall (h : HelperInfo) (w : CallWords) (f : List ArgVal → BitVec 128) : CallResult :=
  if h.isLookupTbPtr then
    callWith w 1 f [.w32 (lo (w.regs (Fin.ofNat 16 regIndexIargBase)))]
  else
    let slots := callSlots 0 0 h.args
    let len := retLen h.ret
    match directArgs w len slots with
    | some args => callWith w len f args
    | none =>
      match len, slots with
      -- the two 128-bit shapes that skip libffi
      | 3, [(t₀, s₀), (t₁, s₁), (t₂, s₂)] =>
        if t₀.size ≤ 4 ∧ t₁.size = 8 ∧ t₂.size ≤ 4 then
          callWith w 3 f
            [.w32 (lo (s₀.words w 0)), .w64 (s₁.words w 0), .w32 (lo (s₂.words w 0))]
        else callWith w len f (ffiArgs w slots)
      | 0, [(t₀, s₀), (t₁, s₁), (t₂, s₂), (t₃, s₃)] =>
        if t₀.size ≤ 4 ∧ t₁.size = 8 ∧ t₂.size = 16 ∧ t₃.size ≤ 4 then
          callWith w 0 f
            [.w32 (lo (s₀.words w 0)), .w64 (s₁.words w 0),
             .w128 (s₂.words w 0) (s₂.words w 1), .w32 (lo (s₃.words w 0))]
        else callWith w len f (ffiArgs w slots)
      | _, _ => callWith w len f (ffiArgs w slots)

/-- The loop of `tci_hot_call`, which finds and reads each argument at once. -/
def hotArgs (w : CallWords) : ℕ → ℕ → ℕ → ℕ → List TypeCode → Option (ℕ × List (BitVec 64))
  | _, _, _, mask, [] => some (mask, [])
  | regIdx, stackIdx, i, mask, t :: ts =>
    let sz := t.size
    let (slot, regIdx, stackIdx) :=
      if regIdx < 5 then (CallSlot.reg regIdx, regIdx + divRoundUp sz 8, stackIdx)
      else (CallSlot.stack stackIdx, regIdx, stackIdx + divRoundUp sz 8)
    if sz = 8 then do
      let (mask, av) ← hotArgs w regIdx stackIdx (i + 1) (mask ||| 1 <<< i) ts
      some (mask, slot.words w 0 :: av)
    else if sz ≤ 4 then do
      let (mask, av) ← hotArgs w regIdx stackIdx (i + 1) mask ts
      some (mask, (lo (slot.words w 0)).setWidth 64 :: av)
    else none

/-- `tci_hot_call`: nothing is returned for the shapes left to the full
interpreter. -/
def tciHotCall (h : HelperInfo) (w : CallWords) (f : List ArgVal → BitVec 128) :
    Option CallResult :=
  if h.isLookupTbPtr then
    some (callWith w 1 f [.w32 (lo (w.regs 8))])
  else
    let n := h.args.length
    let len := retLen h.ret
    if n > 6 ∨ len > 2 then none
    else do
      let (mask, av) ← hotArgs w 0 0 0 0 h.args
      let args ← tciDirectCall n mask len av
      some (callWith w len f args)

def tciHotLoopCall (h : HelperInfo) (w : CallWords) (f : List ArgVal → BitVec 128) :
    CallResult :=
  (tciHotCall h w f).getD (tciFullCall h w f)

/-! ### Every path passes what the pointers point to -/

theorem hotArgs_eq (w : CallWords) (regIdx stackIdx i mask : ℕ) (ts : List TypeCode) :
    hotArgs w regIdx stackIdx i mask ts = simpleArgs w i mask (callSlots regIdx stackIdx ts) := by
  induction ts generalizing regIdx stackIdx i mask with
  | nil => rfl
  | cons t ts ih =>
    by_cases hr : regIdx < numOfIargRegs
    all_goals
      have hr' := hr
      rw [numOfIargRegs] at hr'
      simp only [hotArgs, callSlots, hr, hr', if_true, if_false, simpleArgs, simpleArg, ih]
      by_cases h8 : t.size = 8
      · simp [h8]
      · by_cases h4 : t.size ≤ 4
        · simp [h8, h4]
        · simp [h8, h4]

theorem TypeCode.value_of_size_eq_8 (ht : t.size = 8) (u : ℕ → BitVec 64) :
    t.value u = .w64 (u 0) := by
  cases t <;> first | rfl | simp [TypeCode.size] at ht

theorem TypeCode.value_of_size_le_4 (ht : t.size ≤ 4) (u : ℕ → BitVec 64) :
    t.value u = .w32 (lo (u 0)) := by
  cases t <;> first | rfl | simp [TypeCode.size] at ht

theorem TypeCode.value_of_size_eq_16 (ht : t.size = 16) (u : ℕ → BitVec 64) :
    t.value u = .w128 (u 0) (u 1) := by
  cases t <;> first | rfl | simp [TypeCode.size] at ht

variable {w : CallWords}

/-- One argument sets bit `i` of the mask exactly if it has 64 bits. -/
theorem simpleArg_spec {mask bit : ℕ} {slot : CallSlot} {v : BitVec 64} (hmask : mask < 2 ^ i)
    (h : simpleArg w i (t, slot) = some (bit, v)) :
    mask ||| bit < 2 ^ (i + 1) ∧ (∀ j < i, (mask ||| bit).testBit j = mask.testBit j) ∧
      (if (mask ||| bit).testBit i then ArgVal.w64 v else .w32 (lo v)) =
        t.value (slot.words w) := by
  have hlt : mask < 2 ^ (i + 1) := hmask.trans (Nat.pow_lt_pow_right (by omega) (by omega))
  have hbit : mask.testBit i = false := Nat.testBit_lt_two_pow hmask
  by_cases h8 : t.size = 8
  · simp only [simpleArg, h8, if_true, some.injEq, Prod.mk.injEq] at h
    obtain ⟨rfl, rfl⟩ := h
    refine ⟨?_, ?_, ?_⟩
    · refine Nat.or_lt_two_pow hlt ?_
      rw [Nat.one_shiftLeft]
      exact Nat.pow_lt_pow_right (by omega) (by omega)
    · intro j hj
      have hne : i ≠ j := by omega
      simp [Nat.one_shiftLeft, hne]
    · rw [TypeCode.value_of_size_eq_8 h8]
      simp [Nat.one_shiftLeft, Nat.testBit_two_pow_self]
  · by_cases h4 : t.size ≤ 4
    · simp only [simpleArg, h8, h4, if_true, if_false, some.injEq, Prod.mk.injEq] at h
      obtain ⟨rfl, rfl⟩ := h
      rw [Nat.or_zero]
      refine ⟨hlt, fun _ _ => rfl, ?_⟩
      rw [TypeCode.value_of_size_le_4 h4]
      simp [hbit, lo_setWidth]
    · simp [simpleArg, h8, h4] at h

/-- What the loop over the arguments leaves: the bits above `i` say which
arguments have 64 bits, and `av` holds them zero-extended. -/
theorem simpleArgs_spec (w : CallWords) {mask : ℕ} {slots : List (TypeCode × CallSlot)}
    {r : ℕ × List (BitVec 64)} (hmask : mask < 2 ^ i) (h : simpleArgs w i mask slots = some r) :
    r.1 < 2 ^ (i + slots.length) ∧ (∀ j < i, r.1.testBit j = mask.testBit j) ∧
      (r.2.zipIdx i).map (fun (v, j) => if r.1.testBit j then ArgVal.w64 v else .w32 (lo v)) =
        ffiArgs w slots := by
  induction slots generalizing i mask r with
  | nil =>
    cases h
    exact ⟨hmask, fun _ _ => rfl, rfl⟩
  | cons a as ih =>
    obtain ⟨t, slot⟩ := a
    simp only [simpleArgs, bind_eq_bind, bind_eq_some_iff, some.injEq] at h
    obtain ⟨⟨bit, v⟩, harg, ⟨mask', av⟩, hrest, rfl⟩ := h
    obtain ⟨hlt, hlow, hval⟩ := simpleArg_spec hmask harg
    obtain ⟨hlt', hlow', hargs⟩ := ih hlt hrest
    refine ⟨?_, ?_, ?_⟩
    · rw [length_cons, Nat.add_comm as.length, ← Nat.add_assoc]
      exact hlt'
    · intro j hj
      exact (hlow' j (by omega)).trans (hlow j hj)
    · rw [zipIdx_cons, map_cons, hargs]
      rw [← hlow' i (by omega)] at hval
      exact congrArg₂ cons hval rfl

theorem directArgs_eq {len : ℕ} {slots : List (TypeCode × CallSlot)} {args : List ArgVal}
    (h : directArgs w len slots = some args) : args = ffiArgs w slots := by
  rw [directArgs] at h
  split at h
  · simp only [bind_eq_bind, bind_eq_some_iff] at h
    obtain ⟨⟨mask, av⟩, hsimple, hcall⟩ := h
    rw [tciDirectCall] at hcall
    split at hcall
    · rw [← (simpleArgs_spec w (by decide) hsimple).2.2]
      exact (some.inj hcall).symm
    · cases hcall
  · cases h

/-- Every path of the full interpreter passes the values at `call_slots` and
stores the result alike. -/
theorem tciFullCall_eq (h : HelperInfo) (w : CallWords) (f : List ArgVal → BitVec 128) :
    tciFullCall h w f = callWith w (retLen h.ret) f (ffiArgs w (callSlots 0 0 h.args)) := by
  rw [tciFullCall]
  split
  case isTrue hlookup =>
    obtain ⟨hargs, hret⟩ := h.lookup_type hlookup
    rw [hargs, hret]
    rfl
  case isFalse =>
    simp only
    split
    case h_1 args hdirect => rw [directArgs_eq hdirect]
    case h_2 hdirect =>
      split
      case h_1 t₀ s₀ t₁ s₁ t₂ s₂ hlen hslots =>
        rw [hslots]
        split
        case isTrue ht =>
          simp [ffiArgs, hlen, TypeCode.value_of_size_le_4 ht.1, TypeCode.value_of_size_eq_8 ht.2.1,
            TypeCode.value_of_size_le_4 ht.2.2]
        case isFalse => rfl
      case h_2 t₀ s₀ t₁ s₁ t₂ s₂ t₃ s₃ hlen hslots =>
        rw [hslots]
        split
        case isTrue ht =>
          simp [ffiArgs, hlen, TypeCode.value_of_size_le_4 ht.1, TypeCode.value_of_size_eq_8 ht.2.1,
            TypeCode.value_of_size_eq_16 ht.2.2.1, TypeCode.value_of_size_le_4 ht.2.2.2]
        case isFalse => rfl
      case h_3 => rfl

@[simp] theorem length_callSlots (regIdx stackIdx : ℕ) (ts : List TypeCode) :
    (callSlots regIdx stackIdx ts).length = ts.length := by
  induction ts generalizing regIdx stackIdx with
  | nil => rfl
  | cons t ts ih =>
    rw [callSlots]
    split <;> simp [ih]

theorem tciHotCall_eq {h : HelperInfo} {f : List ArgVal → BitVec 128} {r : CallResult}
    (hr : tciHotCall h w f = some r) : r = tciFullCall h w f := by
  rw [tciFullCall_eq]
  rw [tciHotCall] at hr
  split at hr
  case isTrue hlookup =>
    obtain ⟨hargs, hret⟩ := h.lookup_type hlookup
    rw [hargs, hret, ← some.inj hr]
    rfl
  case isFalse =>
    simp only [hotArgs_eq] at hr
    split at hr
    · cases hr
    · simp only [bind_eq_bind, bind_eq_some_iff, some.injEq] at hr
      obtain ⟨⟨mask, av⟩, hsimple, args, hcall, rfl⟩ := hr
      have hdirect : directArgs w (retLen h.ret) (callSlots 0 0 h.args) = some args := by
        rw [directArgs, if_pos (by rw [length_callSlots]; omega), hsimple]
        simpa using hcall
      rw [directArgs_eq hdirect]

/-! ### When the pointers are those of the layout -/

/-- Some 128-bit argument has its first word in the last argument register. -/
def SplitsI128 (args : List TypeCode) : Prop :=
  ∃ before after, args = before ++ .i128 :: after ∧
    (before.map TypeCode.slots).sum = numOfIargRegs - 1

/-- Away from a split argument, the `k` slots passed so far are counted as
`min k 5` registers and `k - 5` stack words. -/
theorem ffiArgs_callSlots (w : CallWords) (k : ℕ) (ts : List TypeCode)
    (h : ∀ before after, ts = before ++ .i128 :: after →
      k + (before.map TypeCode.slots).sum ≠ numOfIargRegs - 1) :
    ffiArgs w (callSlots (min k numOfIargRegs) (k - numOfIargRegs) ts) = slotArgs w k ts := by
  induction ts generalizing k with
  | nil => rfl
  | cons t ts ih =>
    have htail := ih (k + t.slots) (by
      intro before after hts
      have := h (t :: before) after (by rw [hts, cons_append])
      rw [map_cons, sum_cons] at this
      omega)
    have hslots : t.slots = 1 ∨ t.slots = 2 ∧ t = .i128 := by cases t <;> decide
    have hhead : t = .i128 → k ≠ numOfIargRegs - 1 := fun ht => by
      simpa using h [] ts (by rw [ht]; rfl)
    rw [numOfIargRegs] at hhead htail ⊢
    rw [callSlots, slotArgs, ← htail, numOfIargRegs]
    by_cases hk : k < 5
    · -- the argument ends with the registers at the latest
      have hfit : k + t.slots ≤ 5 := by
        rcases hslots with hs | ⟨hs, ht⟩
        · omega
        · have := hhead ht
          omega
      rw [if_pos (by omega), Nat.min_eq_left hk.le, Nat.min_eq_left hfit,
        Nat.sub_eq_zero_of_le hk.le, Nat.sub_eq_zero_of_le hfit]
      refine congrArg₂ cons (value_congr fun i hi => ?_) rfl
      rw [CallSlot.words, CallWords.slot, numOfIargRegs, if_pos (by omega), Nat.add_assoc]
    · rw [if_neg (by omega), Nat.min_eq_right (by omega), Nat.min_eq_right (by omega),
        Nat.sub_add_comm (by omega)]
      refine congrArg₂ cons (value_congr fun i _ => ?_) rfl
      rw [CallSlot.words, CallWords.slot, numOfIargRegs, if_neg (by omega),
        Nat.sub_add_comm (by omega)]

/-- Registers full of zeros over a stack of ones. -/
def splitWords : CallWords := ⟨fun _ => 0#64, fun _ => 1#64⟩

/-- The second word of a split argument is read from the wrong place. -/
theorem ffiArgs_ne_of_split (k : ℕ) (before after : List TypeCode)
    (hk : k + (before.map TypeCode.slots).sum = numOfIargRegs - 1) :
    ffiArgs splitWords (callSlots k 0 (before ++ .i128 :: after)) ≠
      slotArgs splitWords k (before ++ .i128 :: after) := by
  induction before generalizing k with
  | nil =>
    obtain rfl : k = 4 := by simpa [numOfIargRegs] using hk
    intro h
    have hhead := (cons.inj h).1
    simp [numOfIargRegs, TypeCode.value, CallSlot.words, CallWords.slot, splitWords] at hhead
  | cons t before ih =>
    rw [map_cons, sum_cons] at hk
    have hlt : k < numOfIargRegs := by
      rw [numOfIargRegs] at hk ⊢
      omega
    intro h
    rw [cons_append, callSlots, if_pos hlt] at h
    exact ih (k + t.slots) (by omega) (cons.inj h).2

/-- The arguments at the pointers are the layout's, whatever the registers and
the stack hold, exactly if no 128-bit argument is split. -/
theorem ffiArgs_eq_layoutArgs_iff (args : List TypeCode) :
    (∀ w, ffiArgs w (callSlots 0 0 args) = layoutArgs w args) ↔ ¬SplitsI128 args := by
  constructor
  · rintro h ⟨before, after, rfl, hsum⟩
    refine ffiArgs_ne_of_split 0 before after (by rw [Nat.zero_add, hsum]) ?_
    rw [h, layoutArgs_eq]
  · intro h w
    rw [layoutArgs_eq]
    refine ffiArgs_callSlots w 0 args fun before after hargs hsum => h ⟨before, after, hargs, ?_⟩
    rw [← hsum, Nat.zero_add]

/-- The registers after the call of a helper that returned `v`: the layout's
result registers hold its words, a 32-bit result in the low half, and no other
register changed. -/
def Returned (ret : Option TypeCode) (v : BitVec 128) (regs regs' : RegFile) : Prop :=
  match ret with
  | none => regs' = regs
  | some .i32 | some .s32 | some .ptr =>
    lo (regs' 0) = v.setWidth 32 ∧ ∀ r ≠ 0, regs' r = regs r
  | some .i64 | some .s64 => regs' = update regs 0 (v.setWidth 64)
  | some .i128 =>
    regs' = update (update regs 0 (v.setWidth 64)) 1 ((v >>> 64).setWidth 64)

theorem returned_setResult (ret : Option TypeCode) (v : BitVec 128) (regs : RegFile) :
    Returned ret v regs (setResult regs (retLen ret) v) := by
  have hlow : lo ((v.setWidth 32).setWidth 64) = v.setWidth 32 := lo_setWidth _
  have hother : ∀ r ≠ (0 : Reg),
      update regs 0 ((v.setWidth 32).setWidth 64) r = regs r :=
    fun r hr => update_of_ne hr _ _
  match ret with
  | none | some .i64 | some .s64 | some .i128 => rfl
  | some .i32 | some .s32 | some .ptr => exact ⟨hlow, hother⟩

/-- An interpreter's call passes the layout's arguments and leaves the result. -/
def CallFaithful (h : HelperInfo)
    (call : CallWords → (List ArgVal → BitVec 128) → CallResult) : Prop :=
  ∀ w f, (call w f).args = layoutArgs w h.args ∧
    Returned h.ret (f (layoutArgs w h.args)) w.regs (call w f).regs

theorem callFaithful_tciFullCall_iff (h : HelperInfo) :
    CallFaithful h (tciFullCall h) ↔ ¬SplitsI128 h.args := by
  rw [← ffiArgs_eq_layoutArgs_iff]
  constructor
  · intro hcall w
    have := (hcall w fun _ => 0#128).1
    rwa [tciFullCall_eq] at this
  · intro hargs w f
    rw [tciFullCall_eq, hargs w]
    exact ⟨rfl, returned_setResult ..⟩

end Bootbox.Tcg
