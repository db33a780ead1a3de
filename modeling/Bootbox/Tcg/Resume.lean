import Bootbox.Tcg.ControlFlow

/-!
Calls that unwind and are resumed.

With register locals a function that is called again has lost its locals; it takes
back the registers that were spilled before the call, which are those written so far
in emission order. That is enough since the register allocator keeps no value in a
register across a label: an op reads a register only after an op since the last
label has written it. For such a block the run with any number of unwindings leaves
the same memory, log of ops and exit as the run in which every call returns at once,
and as the all-globals code, and every register that can still be read is the same.

The other registers are not: a resumed function finds in them whatever was spilled
last, perhaps by an earlier run, and the block pointer names the block of the call.
-/

namespace Bootbox.Tcg.Blocks

open Lib FlatControl Machine

variable {α M : Type}

/-! The registers that can still be read. -/

def sinceLabel (rs : List (Fin 14)) (op : Op α) : List (Fin 14) :=
  if op.labels = [] then rs ++ op.outs else []

/-- The registers written since the last label before the `pc`-th op. -/
def writtenSince (ops : List (Op α)) (pc : ℕ) : List (Fin 14) := (ops.take pc).foldl sinceLabel []

/-- A register that may be read by the `pc`-th op. -/
def LiveAt (ops : List (Op α)) (pc : ℕ) (r : Reg) : Prop :=
  14 ≤ r.val ∨ ∃ s ∈ writtenSince ops pc, outReg s = r

instance (ops : List (Op α)) (pc : ℕ) (r : Reg) : Decidable (LiveAt ops pc r) :=
  inferInstanceAs (Decidable (_ ∨ _))

/-- What the register allocator sees to: no op reads a register that has not been
written since the last label. -/
def Prog.Disciplined (P : Prog α) : Prop :=
  ∀ pc op, P.ops[pc]? = some op → ∀ r ∈ op.ins, LiveAt P.ops pc r

def Prog.QuietHelpers (P : Prog α) (S : OpSem α M) : Prop :=
  ∀ a o, Op.call a o true ∈ P.ops → (Op.call a o true).Steady S

theorem writtenSince_succ {ops : List (Op α)} {pc : ℕ} {op : Op α} (hop : ops[pc]? = some op) :
    writtenSince ops (pc + 1) = sinceLabel (writtenSince ops pc) op := by
  simp [writtenSince, List.take_add_one, hop]

theorem writtenSince_label {ops : List (Op α)} {p l : ℕ} (h : ops[p]? = some (.setLabel l)) :
    writtenSince ops (p + 1) = [] := by
  rw [writtenSince_succ h]
  rfl

theorem writtenSince_subset (regLocals : Bool) (ops : List (Op α)) (pc : ℕ) :
    writtenSince ops pc ⊆ (ctxAt regLocals ops pc).regsWritten := by
  have hgen : ∀ (ops : List (Op α)) (g : GenCtx) (rs : List (Fin 14)), rs ⊆ g.regsWritten →
      ops.foldl sinceLabel rs ⊆ (g.afterAll regLocals ops).regsWritten := by
    intro ops
    induction ops with
    | nil => exact fun g rs h => h
    | cons op ops ih =>
      intro g rs h
      refine ih (g.after regLocals op) _ ?_
      rw [sinceLabel]
      split
      case isTrue =>
        refine List.append_subset.mpr ⟨?_, List.subset_append_right _ _⟩
        exact List.subset_append_of_subset_left _ h
      case isFalse => exact List.nil_subset _
  exact hgen _ _ _ (List.nil_subset _)

/-- The registers that can still be read are all spilled before a call. -/
theorem Prog.Disciplined.liveness {P : Prog α} (hP : P.Disciplined) {S : OpSem α M}
    (hS : P.QuietHelpers S) (regLocals : Bool) : Liveness S regLocals P.ops (LiveAt P.ops) where
  ins := fun hop hr => hP _ _ hop _ hr
  next := by
    rintro pc op r hop (hr | ⟨s, hs, rfl⟩)
    · exact .inl (.inl hr)
    · rw [writtenSince_succ hop, sinceLabel] at hs
      split at hs
      case isTrue =>
        rcases List.mem_append.mp hs with hs | hs
        · exact .inl (.inr ⟨s, hs, rfl⟩)
        · exact .inr ⟨s, hs, rfl⟩
      case isFalse => cases hs
  jump := by
    rintro pc op i l p r - - hl (hr | ⟨s, hs, -⟩)
    · exact .inl hr
    · rw [writtenSince_label (Prog.labelAt_spec hl).1] at hs
      cases hs
  restart := by
    rintro pc r (hr | ⟨s, hs, -⟩)
    · exact .inl hr
    · cases hs
  inPlace := by
    intro pc op hop hopens
    cases op with
    | call a o noSideEffects =>
      have hflag : (regLocals && noSideEffects) = true := (Bool.not_eq_false' _).mp hopens
      obtain ⟨-, rfl⟩ : regLocals = true ∧ noSideEffects = true := by simpa using hflag
      exact hS a o (List.mem_of_getElem? hop)
    | qemuLdst a o => cases hopens
    | _ => exact trivial
  spilled := by
    refine fun {pc op} _ _ => .inr fun r hr hlt => ?_
    rcases hr with hr | ⟨s, hs, heq⟩
    · omega
    · exact ⟨s, writtenSince_subset regLocals P.ops pc hs, heq⟩

/-! The run in which every call returns at once. -/

/-- The same ops, but a helper that would unwind is run to its end. -/
def OpSem.uninterrupted (S : OpSem α M) : OpSem α M :=
  { S with
    helper := fun a args m => .done (S.helper a args m).finish.1 (S.helper a args m).finish.2
    slow := fun a args m => .done (S.slow a args m).finish.1 (S.slow a args m).finish.2 }

theorem OpSem.uninterrupted_returns (S : OpSem α M) : S.uninterrupted.Returns :=
  fun _ _ _ => ⟨⟨_, _, rfl⟩, _, _, rfl⟩

/-! Runs that are compared. -/

/-- `R14` and `R15` of the all-globals code: set on an earlier entry, or to be set on
this one. -/
def ReservedGlobals (E : WEnv) (st : WSt α M) : Prop :=
  st.globals 14 = 0#64 ∨ st.globals 14 = E.env ∧ st.globals 15 = E.stack

theorem agrees_entered (P : Prog α) (E : WEnv) (st : WSt α M)
    (hres : E.regLocals = false → ReservedGlobals E st) :
    Agrees E P.ops (LiveAt P.ops) 0 ⟨freshLocals E, st.mem, st.log⟩ (called E st) := by
  obtain ⟨h, -⟩ := agrees_called E P.ops (LiveAt P.ops) st
  have hfields : (called E st).mem = st.mem ∧ (called E st).log = st.log := by
    cases hE : E.regLocals <;> simp [called, enter, hE]
  refine { h with regs := ?_, mem := hfields.1, log := hfields.2 }
  rintro r (hr | ⟨s, hs, -⟩)
  · have hreg : r = 14 ∨ r = 15 := by
      have := r.isLt
      rcases (show r.val = 14 ∨ r.val = 15 by omega) with hv | hv
      · exact .inl (Fin.ext hv)
      · exact .inr (Fin.ext hv)
    cases hE : E.regLocals with
    | true =>
      obtain ⟨h14, h15⟩ := h.reserved hE
      rcases hreg with rfl | rfl
      · simpa [WSt.regs, freshLocals] using h14
      · simpa [WSt.regs, freshLocals] using h15
    | false =>
      rcases hres hE with hzero | ⟨h14, h15⟩
      · rcases hreg with rfl | rfl <;> simp [called, enter, hE, WSt.regs, hzero, freshLocals]
      · rcases hreg with rfl | rfl
        · by_cases hzero : E.env = 0#64 <;>
            simp [called, enter, hE, WSt.regs, h14, hzero, freshLocals]
        · by_cases hzero : E.env = 0#64 <;>
            simp [called, enter, hE, WSt.regs, h14, h15, hzero, freshLocals]
  · cases hs

def start (E : WEnv) (tb : TbCode α) (st : WSt α M) : WCfg α M := ⟨tb.body, [], called E st⟩

/-- The op list when the dispatcher has entered the block. -/
def startOps (E : WEnv) (st : WSt α M) : OpCfg α M := ⟨0, ⟨freshLocals E, st.mem, st.log⟩⟩

/-- The function comes to the same op, and has there the same memory, the same log
and the same values in the registers that can still be read. -/
def ComesTo (S : OpSem α M) (E : WEnv) (P : Prog α) (tb : TbCode α) (st : WSt α M)
    (ph : ℕ → List (BitVec 8)) (c : OpCfg α M) : Prop :=
  ∃ st', Reaches (wasmStep S E tb.body) (start E tb st) (atOp E ph P.ops c.pc st') ∧
    Agrees E P.ops (LiveAt P.ops) c.pc c.data st'

/-- A block's function follows the op list, from the dispatcher's call on. -/
structure Follows (S : OpSem α M) (E : WEnv) (P : Prog α) (tb : TbCode α) (st : WSt α M)
    (ph : ℕ → List (BitVec 8)) : Prop where
  sim : Simulates (opStep S E.this P.ops) (wasmStep S E tb.body)
    (FunctionAt E ph P.ops (LiveAt P.ops)) fun _ => 0
  reaches : Reaches (wasmStep S E tb.body) (start E tb st) (atOp E ph P.ops 0 (called E st))
  rel : FunctionAt E ph P.ops (LiveAt P.ops) (startOps E st) (atOp E ph P.ops 0 (called E st))

theorem Prog.Disciplined.follows {P : Prog α} (hP : P.Disciplined) {E : WEnv} {tb : TbCode α}
    (hgen : tcgGenCode E.regLocals P.ops = some tb) :
    ∃ ph, ∀ (S : OpSem α M) (st : WSt α M), P.QuietHelpers S →
      (E.regLocals = false → ReservedGlobals E st) → Follows S E P tb st ph := by
  obtain ⟨ph, disp, lay⟩ := P.layout hgen
  have hbody : tb.body = loopCode E ph P.ops := lay.body_eq
  refine ⟨ph, fun S st hS hres => ⟨?_, ?_, _, rfl, agrees_entered P E st hres⟩⟩
  · rw [hbody]
    exact simulates_function (hP.liveness hS E.regLocals) lay.labelled
  · rw [start, hbody]
    exact reaches_start (agrees_called E P.ops (LiveAt P.ops) st).2

namespace Follows

variable {S S' : OpSem α M} {E E' : WEnv} {P : Prog α} {tb tb' : TbCode α} {st st' : WSt α M}
  {ph ph' : ℕ → List (BitVec 8)}

theorem comesTo (h : Follows S E P tb st ph) {c : OpCfg α M}
    (hc : Reaches (opStep S E.this P.ops) (startOps E st) c) : ComesTo S E P tb st ph c := by
  obtain ⟨n, hn⟩ := hc
  obtain ⟨w, hw, st', rfl, hagree⟩ := h.sim.run_inl h.rel hn
  exact ⟨st', h.reaches.trans hw, hagree⟩

def seen (w : WCfg α M) : M × List (Event α) := (w.st.mem, w.st.log)

theorem seen_of_functionAt {c : OpCfg α M} {w : WCfg α M}
    (h : FunctionAt E ph P.ops (LiveAt P.ops) c w) : seen w = (c.data.mem, c.data.log) := by
  obtain ⟨st, rfl, hagree⟩ := h
  exact congrArg₂ Prod.mk hagree.mem hagree.log

/-- Two functions that follow the same ops run in lockstep. -/
theorem lockstep (h : Follows S E P tb st ph) (h' : Follows S' E' P tb' st' ph')
    (hops : opStep S' E'.this P.ops = opStep S E.this P.ops)
    (hstart : startOps E' st' = startOps E st) :
    Lockstep (wasmStep S E tb.body) (wasmStep S' E' tb'.body) seen seen (start E tb st)
      (start E' tb' st') := by
  have hsim := h'.sim
  rw [hops] at hsim
  have hrel := h'.rel
  rw [hstart] at hrel
  have hlater := h.sim.lockstep hsim seen_of_functionAt seen_of_functionAt h.rel hrel
  exact ((hlater.of_reaches h'.reaches).symm.of_reaches h.reaches).symm

end Follows

/-- The environment of a function with register locals, or of the all-globals code. -/
def WEnv.mode (E : WEnv) (regLocals : Bool) : WEnv := { E with regLocals := regLocals }

/-- Register-locals code with any calls unwound and resumed runs in lockstep with the
same code when no call unwinds, and with the all-globals code, and ends as they do.
When the op list has come to an op, so have all three, with the same values in the
registers that can still be read. -/
theorem resumed_function_agrees (S : OpSem α M) (E : WEnv) (P : Prog α) (hP : P.Disciplined)
    (hS : P.QuietHelpers S) (tb tbG : TbCode α) (hgen : tcgGenCode true P.ops = some tb)
    (hgenG : tcgGenCode false P.ops = some tbG) (st stG : WSt α M) (hmem : stG.mem = st.mem)
    (hlog : stG.log = st.log) (hres : ReservedGlobals E stG) :
    Lockstep (wasmStep S (E.mode true) tb.body) (wasmStep S.uninterrupted (E.mode true) tb.body)
        Follows.seen Follows.seen (start (E.mode true) tb st) (start (E.mode true) tb st) ∧
      Lockstep (wasmStep S (E.mode true) tb.body) (wasmStep S (E.mode false) tbG.body)
        Follows.seen Follows.seen (start (E.mode true) tb st) (start (E.mode false) tbG stG) ∧
      ∃ ph phG, ∀ c, Reaches (opStep S E.this P.ops) (startOps E st) c →
        ComesTo S (E.mode true) P tb st ph c ∧
        ComesTo S.uninterrupted (E.mode true) P tb st ph c ∧
        ComesTo S (E.mode false) P tbG stG phG c := by
  have hquiet : P.QuietHelpers S.uninterrupted := fun a o _ => S.uninterrupted_returns.steady _
  have hops : opStep S.uninterrupted E.this P.ops = opStep S E.this P.ops := by
    funext c
    simp only [opStep]
    cases P.ops[c.pc]? with
    | none => rfl
    | some op => cases op <;> rfl
  have hstart : startOps (E.mode false) stG = startOps (E.mode true) st := by
    rw [startOps, startOps, hmem, hlog]
    rfl
  obtain ⟨ph, hfollows⟩ := hP.follows (E := E.mode true) (M := M) hgen
  have hL := hfollows S st hS nofun
  have hU := hfollows S.uninterrupted st hquiet nofun
  obtain ⟨phG, hfollowsG⟩ := hP.follows (E := E.mode false) (M := M) hgenG
  have hG := hfollowsG S stG hS fun _ => hres
  refine ⟨hL.lockstep hU hops rfl, hL.lockstep hG rfl hstart, ph, phG, fun c hc => ⟨?_, ?_, ?_⟩⟩
  · exact hL.comesTo hc
  · refine hU.comesTo ?_
    change Reaches (opStep S.uninterrupted E.this P.ops) (startOps E st) c
    rw [hops]
    exact hc
  · refine hG.comesTo ?_
    rw [hstart]
    exact hc

/-- Two calls, with a value for `R3` between them that a branch may skip. -/
def callProg : Prog Unit where
  ops := [.call () ⟨[], [0]⟩ false, .brcond () [0] 0, .plain () ⟨[], [3]⟩ 0,
    .setLabel 0, .call () ⟨[], [0]⟩ false, .exitTb 0#32]
  labels_nodup := by decide
  targets_set := by decide

/-- Memory is the number of calls so far; each call unwinds once. -/
def sleepSem : OpSem Unit ℕ where
  plain := fun _ _ m => ([7#64], m)
  cond := fun _ args => args != [0#64]
  helper := fun _ _ m => .unwind [1#64] m fun m => .done [BitVec.ofNat 64 m] (m + 1)
  direct := fun _ _ _ => none
  slow := fun _ args m => .done args m
  jmpTarget := fun _ _ => 0#32

def sleepEnv : WEnv := countEnv

def sleepState : WSt Unit ℕ where
  locals := fun _ => 0#64
  globals := fun _ => 0#64
  bpLocal := 0
  bpGlobal := 0
  baseZero := false
  top := false
  tmp0 := 0#32
  tbPtr := 0#32
  doInit := true
  doneFlag := false
  unwinding := false
  mem := 0
  log := []
  pending := none

theorem callProg_resumed_agrees :
    ∃ tb tbG, tcgGenCode true callProg.ops = some tb ∧ tcgGenCode false callProg.ops = some tbG ∧
      Lockstep (wasmStep sleepSem (sleepEnv.mode true) tb.body)
        (wasmStep sleepSem (sleepEnv.mode false) tbG.body) Follows.seen Follows.seen
        (start (sleepEnv.mode true) tb sleepState)
        (start (sleepEnv.mode false) tbG sleepState) := by
  have hP : callProg.Disciplined := by
    have hlive : ∀ pc : Fin 6, ∀ r ∈ (callProg.ops.get pc).ins, LiveAt callProg.ops pc r := by
      decide
    intro pc op hop
    obtain ⟨hlt, rfl⟩ := List.getElem?_eq_some_iff.mp hop
    exact hlive ⟨pc, hlt⟩
  have hS : callProg.QuietHelpers sleepSem := by
    intro a o hmem
    simp [callProg] at hmem
  exact ⟨_, _, rfl, rfl, (resumed_function_agrees sleepSem sleepEnv callProg hP hS _ _ rfl rfl
    sleepState sleepState rfl rfl (.inl rfl)).2.1⟩

/-- The block is run a second time: a register that it has not written now, and the block
pointer, are at the end not as if the call had returned at once. -/
theorem callProg_dead_register_differs :
    ∃ tb w₁ w w', tcgGenCode true callProg.ops = some tb ∧
      Reaches (wasmStep sleepSem (sleepEnv.mode true) tb.body)
        (start (sleepEnv.mode true) tb sleepState) w₁ ∧
      (wasmStep sleepSem (sleepEnv.mode true) tb.body w₁).isRight ∧
      Reaches (wasmStep sleepSem (sleepEnv.mode true) tb.body)
        (start (sleepEnv.mode true) tb { w₁.st with doInit := true }) w ∧
      Reaches (wasmStep sleepSem.uninterrupted (sleepEnv.mode true) tb.body)
        (start (sleepEnv.mode true) tb { w₁.st with doInit := true }) w' ∧
      (wasmStep sleepSem (sleepEnv.mode true) tb.body w).isRight ∧
      (wasmStep sleepSem.uninterrupted (sleepEnv.mode true) tb.body w').isRight ∧
      w.st.locals 3 ≠ w'.st.locals 3 ∧ w.st.bpLocal ≠ w'.st.bpLocal := by
  refine ⟨_, _, _, _, rfl, ⟨40, rfl⟩, ?_, ⟨40, rfl⟩, ⟨22, rfl⟩, ?_⟩
  all_goals decide

end Bootbox.Tcg.Blocks
