import Bootbox.Tcg.BlockSim

/-!
Calls in the wasm function, and the function as a whole.

A call is made in a block of its own. If the helper unwinds, the function returns,
and is later called again: its header brings back what was spilled, the block
pointer leads to the block of the call, and the call goes on. So a call is one op of
the list, however often it unwinds.
-/

namespace Bootbox.Tcg.Blocks

open Lib FlatControl Machine

variable {α M : Type} {S : OpSem α M} {E : WEnv} {ph : ℕ → List (BitVec 8)} {ops : List (Op α)}
  {live : ℕ → Reg → Prop} {pc : ℕ} {d : Data α M} {st : WSt α M}

/-- What holds in the block of a call, also when the call has unwound and is
resumed: the registers are right but for those the results go to. -/
structure CallRel (E : WEnv) (live : Reg → Prop) (block : ℕ) (d : Data α M) (o : Operands)
    (st : WSt α M) : Prop where
  regs : ∀ r, live r → (∀ s ∈ o.outs, outReg s ≠ r) → st.regs E.regLocals r = d.regs r
  tbPtr : st.tbPtr = E.this
  doInit : st.doInit = false
  resume : st.bpGlobal = block
  bp_le : st.bp E.regLocals ≤ block
  reserved : E.regLocals = true → st.locals 14 = E.env ∧ st.locals 15 = E.stack

theorem regs_spill (regLocals : Bool) (g : GenCtx) (st : WSt α M) :
    (spill (spillRegs regLocals g) st).regs regLocals = st.regs regLocals := by
  cases regLocals with
  | true => rfl
  | false =>
    ext r : 1
    simp [spill, spillRegs, WSt.regs]

/-- The state of a function that is called again after a call in it has unwound. -/
def resumed (E : WEnv) (g : GenCtx) (o : Operands) (junk : List (BitVec 64)) (m : M)
    (log : List (Event α)) (resume : M → Outcome M) (st : WSt α M) : WSt α M :=
  enter E { (spill (spillRegs E.regLocals g) st).put E.regLocals o (junk, m) log with
    pending := some resume, unwinding := true }

variable {g : GenCtx} {o : Operands} {junk : List (BitVec 64)} {m : M} {log : List (Event α)}
  {resume : M → Outcome M} {block : ℕ}

theorem resumed_of_locals (hE : E.regLocals = true) (hinit : st.doInit = false) :
    resumed E g o junk m log resume st
      = { st with
          locals := fun r => if r.val < 14 then (spill (spillRegs true g) st).globals r
            else freshLocals E r
          globals := (spill (spillRegs true g) st).globals
          bpLocal := st.bpGlobal
          baseZero := true, top := false, tmp0 := 0#32
          mem := m, log := log, pending := some resume, unwinding := true } := by
  simp [resumed, enter, hE, WSt.put, WSt.setRegs, spill, hinit]

theorem resumed_of_globals (hE : E.regLocals = false) (hinit : st.doInit = false) :
    resumed E g o junk m log resume st
      = { st with
          globals := writeAll o.outs junk st.globals
          baseZero := true, top := false, tmp0 := 0#32
          mem := m, log := log, pending := some resume, unwinding := true } := by
  simp [resumed, enter, hE, WSt.put, WSt.setRegs, spill, spillRegs, WSt.regs, hinit]

theorem attempt_resumed (hinit : st.doInit = false) (a : α) (args : List (BitVec 64))
    (begin : M → Outcome M) :
    attempt (resumed E g o junk m log resume st) a args begin = (resume m, log) := by
  cases hE : E.regLocals with
  | true =>
    rw [resumed_of_locals hE hinit]
    rfl
  | false =>
    rw [resumed_of_globals hE hinit]
    rfl

/-- Nothing that is needed is lost when a call unwinds: it has been spilled. -/
theorem CallRel.resumed (junk : List (BitVec 64)) (m : M) (log : List (Event α))
    (resume : M → Outcome M) (h : CallRel E (live pc) block d o st)
    (hspilled : E.regLocals = true → ∀ r, live pc r → r.val < 14 →
      ∃ s ∈ spillRegs true g, outReg s = r) :
    CallRel E (live pc) block d o (resumed E g o junk m log resume st) ∧
      (Blocks.resumed E g o junk m log resume st).bp E.regLocals = block := by
  cases hE : E.regLocals with
  | true =>
    rw [resumed_of_locals hE h.doInit]
    refine ⟨⟨?_, h.tbPtr, h.doInit, h.resume, ?_, fun _ => ⟨rfl, rfl⟩⟩, ?_⟩
    · intro r hr hnot
      have hregs := h.regs r hr hnot
      simp only [WSt.regs, hE, if_true] at hregs ⊢
      by_cases hlt : r.val < 14
      · rw [if_pos hlt, ← hregs]
        exact if_pos (hspilled hE r hr hlt)
      · rw [if_neg hlt, ← hregs]
        obtain ⟨h14, h15⟩ := h.reserved hE
        obtain rfl | rfl : r = 14 ∨ r = 15 := by
          have := r.isLt
          rcases (show r.val = 14 ∨ r.val = 15 by omega) with hv | hv
          · exact .inl (Fin.ext hv)
          · exact .inr (Fin.ext hv)
        · exact h14.symm
        · exact h15.symm
    · simp [WSt.bp, hE, h.resume]
    · simp [WSt.bp, h.resume]
  | false =>
    rw [resumed_of_globals hE h.doInit]
    refine ⟨⟨?_, h.tbPtr, h.doInit, h.resume, ?_, fun htrue => by simp [hE] at htrue⟩, ?_⟩
    · intro r hr hnot
      have hregs := h.regs r hr hnot
      simp only [WSt.regs, hE] at hregs ⊢
      exact (writeAll_of_not_mem hnot _ _).trans hregs
    · simp [WSt.bp, hE, h.resume]
    · simp [WSt.bp, h.resume]

/-- Every register that is needed after a call is spilled before it, if the call
may unwind. -/
def Spilled (E : WEnv) (g : GenCtx) (live : Reg → Prop) (out : Outcome M) : Prop :=
  out.isDone = true ∨
    (E.regLocals = true → ∀ r, live r → r.val < 14 → ∃ s ∈ spillRegs true g, outReg s = r)

abbrev Calling (E : WEnv) (ops : List (Op α)) (live : ℕ → Reg → Prop) (pc : ℕ) (d : Data α M)
    (o : Operands) (st : WSt α M) : Prop :=
  CallRel E (live pc) ((ctxAt E.regLocals ops pc).blockIdx + 1) d o st

abbrev tries (E : WEnv) (st : WSt α M) (a : α) (o : Operands)
    (begin : α → List (BitVec 64) → M → Outcome M) : Outcome M × List (Event α) :=
  attempt st a (readAll o.ins (st.regs E.regLocals))
    (begin a (readAll o.ins (st.regs E.regLocals)))

theorem inBlock_eq {op : Op α} (hop : ops[pc]? = some op) :
    inBlock E ph ops pc op st
      = ⟨innerOut E.regLocals (ctxAt E.regLocals ops pc) op ++ opCode E ph ops (pc + 1),
        [opEnd E ph ops (pc + 1), loopCode E ph ops], st⟩ := by
  rw [inBlock, blockCode, opCode, ctxAt_succ hop]

/-- A return with a helper pending: the function is called again. -/
theorem wasmStep_unwind {ret : BitVec 32} {k body : List (WTok α)} {ls : List (List (WTok α))}
    (h : st.pending = some resume) :
    wasmStep S E body ⟨.ret ret :: k, ls, st⟩ = .inl ⟨body, [], enter E st⟩ := by
  simp [wasmStep, h]

theorem callHelper_attempt {a : α} {res : Outcome M × List (Event α)} (g : GenCtx)
    (h : tries E st a o S.helper = res) :
    wasmAct S E.regLocals (.callHelper a o)
        (spill (spillRegs E.regLocals g) { st with unwinding := false })
      = settle E.regLocals (spill (spillRegs E.regLocals g) { st with unwinding := false }) o
        res := by
  simp only [wasmAct, regs_spill]
  exact congrArg _ h

variable (L : Liveness S E.regLocals ops live) {a : α}

include L in
theorem CallRel.done {op : Op α} {results : List (BitVec 64)} (g : GenCtx)
    (hop : ops[pc]? = some op) (houts : op.outs = o.outs)
    (hopens : op.opensBlock E.regLocals = true)
    (h : Calling E ops live pc d o st) :
    Agrees E ops live (pc + 1) (d.put a o (results, m))
      (settle E.regLocals (spill (spillRegs E.regLocals g) st) o
        (.done results m, d.logged a o.ins)) := by
  have hregs : (spill (spillRegs E.regLocals g) st).regs E.regLocals = st.regs E.regLocals :=
    regs_spill ..
  refine StRel.put L hop houts ?_
    (WSt.regs_put o (results, m) (d.logged a o.ins)) rfl rfl rfl ?_ ?_ ?_
    h.reserved
  · rw [hregs]
    exact h.regs
  · exact (WSt.tbPtr_put o (results, m) d.log).trans h.tbPtr
  · exact (WSt.doInit_put o (results, m) d.log).trans h.doInit
  · rw [ctxAt_succ hop, blockIdx_after_of_opensBlock hopens]
    exact Nat.le_trans (Nat.le_of_eq (WSt.bp_put o (results, m) d.log)) h.bp_le

theorem CallRel.ready {live : Reg → Prop} (h : CallRel E live block d o st) :
    CallRel E live block d o { st with unwinding := false } :=
  { h with }

include L in
theorem reaches_after_call {noSideEffects : Bool}
    (hop : ops[pc]? = some (.call a o noSideEffects))
    (hopens : (Op.call a o noSideEffects).opensBlock E.regLocals = true)
    (out : Outcome M) (hspilled : Spilled E (ctxAt E.regLocals ops pc) (live pc) out)
    (hrel : Calling E ops live pc d o st)
    (hout : tries E st a o S.helper = (out, d.logged a o.ins)) :
    ∃ st', Reaches (wasmStep S E (loopCode E ph ops))
        (inBlock E ph ops pc (.call a o noSideEffects) st) (atOp E ph ops (pc + 1) st') ∧
      Agrees E ops live (pc + 1) (d.put a o out.finish) st' := by
  -- by induction on how often the helper unwinds before it returns
  induction out generalizing st with
  | done results m =>
    refine ⟨_, ?_, hrel.ready.done L (ctxAt E.regLocals ops pc) hop rfl hopens⟩
    rw [inBlock_eq hop]
    refine reaches_of_step (step_act _) (reaches_of_step (step_act _) ?_)
    refine reaches_of_step (step_act_of_eq (callHelper_attempt _ hout)) ?_
    refine reaches_of_step (step_ifT_false rfl ?_) (Reaches.refl _ _)
    exact WSt.unwinding_put o (results, m) d.log
  | unwind junk m resume ih =>
    have hkept := hspilled.resolve_left Bool.false_ne_true
    obtain ⟨hrel₂, hbp⟩ := hrel.ready.resumed junk m (d.logged a o.ins) resume
      hkept
    obtain ⟨st', hreach, hagree⟩ := ih m (.inr hkept) hrel₂ (attempt_resumed hrel.ready.doInit ..)
    refine ⟨st', ?_, hagree⟩
    refine Reaches.trans ?_ ((reaches_inBlock_of_top hop hopens hbp).trans hreach)
    rw [inBlock_eq hop]
    refine reaches_of_step (step_act _) (reaches_of_step (step_act _) ?_)
    refine reaches_of_step (step_act_of_eq (callHelper_attempt _ hout)) ?_
    refine reaches_of_step (step_ifT_true rfl rfl) ?_
    exact .of_step (wasmStep_unwind rfl) (Reaches.refl _ _)

/-- The slow path in a block: what it does to the state, and that its flag tells
whether the helper has returned. -/
theorem callSlow_attempt {res : Outcome M × List (Event α)} (g : GenCtx)
    (hflag : st.doneFlag = false)
    (h : tries E st a o S.slow = res) :
    wasmAct S E.regLocals (.callSlow a o) (spill (spillRegs E.regLocals g) st)
      = { settle E.regLocals (spill (spillRegs E.regLocals g) st) o res with
          doneFlag := res.1.isDone } := by
  have hatt : attempt (spill (spillRegs E.regLocals g) st) a
      (readAll o.ins (st.regs E.regLocals)) (S.slow a (readAll o.ins (st.regs E.regLocals)))
        = res := h
  have hspill : (spill (spillRegs E.regLocals g) st).doneFlag = false := hflag
  simp only [wasmAct, regs_spill, hatt, hspill, Bool.false_or]

theorem settle_unwind_doneFlag (hflag : st.doneFlag = false) :
    { settle E.regLocals st o (.unwind junk m resume, log) with doneFlag := false }
      = settle E.regLocals st o (.unwind junk m resume, log) := by
  have hput : (st.put E.regLocals o (junk, m) log).doneFlag = false :=
    (WSt.doneFlag_put ..).trans hflag
  rw [settle, ← hput]

theorem Agrees.setDoneFlag (doneFlag : Bool) (h : Agrees E ops live pc d st) :
    Agrees E ops live pc d { st with doneFlag := doneFlag } :=
  { h with }

theorem resumed_flags (hinit : st.doInit = false) :
    (resumed E g o junk m log resume st).baseZero = true ∧
      (resumed E g o junk m log resume st).doneFlag = st.doneFlag := by
  cases hE : E.regLocals with
  | true =>
    rw [resumed_of_locals hE hinit]
    exact ⟨rfl, rfl⟩
  | false =>
    rw [resumed_of_globals hE hinit]
    exact ⟨rfl, rfl⟩

include L in
/-- The slow path of a guest access is taken once, however often its helper
unwinds: a resumed function starts with the host address zero, as on a miss. -/
theorem reaches_after_slow (hop : ops[pc]? = some (.qemuLdst a o)) (out : Outcome M)
    (hspilled : Spilled E ((ctxAt E.regLocals ops pc).wrote o.outs) (live pc) out)
    (hrel : Calling E ops live pc d o st)
    (hbase : st.baseZero = true) (hflag : st.doneFlag = false)
    (hout : tries E st a o S.slow = (out, d.logged a o.ins)) :
    ∃ st', Reaches (wasmStep S E (loopCode E ph ops))
        (inBlock E ph ops pc (.qemuLdst a o) st) (atOp E ph ops (pc + 1) st') ∧
      Agrees E ops live (pc + 1) (d.put a o out.finish) st' := by
  induction out generalizing st with
  | done results m =>
    refine ⟨_, ?_, (hrel.done L ((ctxAt E.regLocals ops pc).wrote o.outs) hop rfl rfl).setDoneFlag
      true⟩
    rw [inBlock_eq hop]
    refine reaches_of_step (step_ifT_true rfl hbase) (reaches_of_step (step_act _) ?_)
    refine reaches_of_step (step_act_of_eq (callSlow_attempt _ hflag hout)) ?_
    refine reaches_of_step (step_ifT_false rfl rfl) ?_
    exact reaches_of_step step_fin (Reaches.refl _ _)
  | unwind junk m resume ih =>
    have hkept := hspilled.resolve_left Bool.false_ne_true
    obtain ⟨hrel₂, hbp⟩ := hrel.resumed junk m (d.logged a o.ins) resume
      hkept
    obtain ⟨hbase₂, hflag₂⟩ := resumed_flags hrel.doInit
    obtain ⟨st', hreach, hagree⟩ := ih m (.inr hkept) hrel₂ hbase₂ (hflag₂.trans hflag)
      (attempt_resumed hrel.doInit ..)
    refine ⟨st', ?_, hagree⟩
    refine Reaches.trans ?_ ((reaches_inBlock_of_top hop rfl hbp).trans hreach)
    rw [inBlock_eq hop]
    refine reaches_of_step (step_ifT_true rfl hbase) (reaches_of_step (step_act _) ?_)
    refine reaches_of_step (step_act_of_eq (callSlow_attempt _ hflag hout)) ?_
    refine reaches_of_step (step_ifT_true rfl rfl) (.of_step (wasmStep_unwind rfl) ?_)
    have hflag₁ : (spill (spillRegs E.regLocals ((ctxAt E.regLocals ops pc).wrote o.outs))
        st).doneFlag = false := hflag
    rw [Outcome.isDone, settle_unwind_doneFlag hflag₁]
    exact Reaches.refl _ _

theorem bp_setResume_le {regLocals : Bool} (h : st.bp regLocals ≤ block) :
    { st with bpGlobal := block + 1 }.bp regLocals ≤ block + 1 := by
  cases regLocals with
  | true => exact Nat.le_succ_of_le h
  | false => exact Nat.le_refl _

theorem Agrees.setResume (o : Operands) (h : Agrees E ops live pc d st) :
    Calling E ops live pc d o { st with bpGlobal := (ctxAt E.regLocals ops pc).blockIdx + 1 } where
  regs := fun r hr _ => h.regs r hr
  tbPtr := h.tbPtr
  doInit := h.doInit
  resume := rfl
  bp_le := bp_setResume_le h.bp_le
  reserved := h.reserved

section Calls

variable (h : Agrees E ops live pc d st)

include L

theorem spilled_of_steady {op : Op α} {out : Outcome M} (hop : ops[pc]? = some op)
    (hsub : ∀ s ∈ (ctxAt E.regLocals ops pc).regsWritten, s ∈ g.regsWritten)
    (hdone : op.Steady S → out.isDone = true) : Spilled E g (live pc) out := by
  by_cases hE : E.regLocals = true
  · rcases L.spilled hop hE with hsteady | hkept
    · exact .inl (hdone hsteady)
    · refine .inr fun _ r hr hlt => ?_
      obtain ⟨s, hs, heq⟩ := hkept r hr hlt
      exact ⟨s, List.mem_filter.mpr ⟨List.mem_finRange s, decide_eq_true (hsub s hs)⟩, heq⟩
  · exact .inr fun htrue => absurd htrue hE

include h

theorem Agrees.tries (hop : ops[pc]? = some op) (hins : op.ins = o.ins)
    (begin : α → List (BitVec 64) → M → Outcome M) :
    readAll o.ins (st.regs E.regLocals) = readAll o.ins d.regs ∧
      tries E st a o begin = (begin a (readAll o.ins d.regs) d.mem, d.logged a o.ins) := by
  have hargs := readAll_of_live L h hop
  rw [hins] at hargs
  exact ⟨hargs, by rw [Blocks.tries, attempt, h.pending, hargs, h.mem, h.log]⟩

theorem moves_call {noSideEffects : Bool} (hop : ops[pc]? = some (.call a o noSideEffects)) :
    ∃ st', Moves S E ph ops pc (pc + 1) st st' ∧ Agrees E ops live (pc + 1)
      (d.put a o (S.helper a (readAll o.ins d.regs) d.mem).finish) st' := by
  obtain ⟨hargs, hatt⟩ := h.tries L hop rfl S.helper
  cases hopens : (Op.call a o noSideEffects).opensBlock E.regLocals with
  | true =>
    have hspilled : Spilled E (ctxAt E.regLocals ops pc) (live pc)
        (S.helper a (readAll o.ins d.regs) d.mem) :=
      spilled_of_steady L hop (fun _ => id) fun hsteady => by
        obtain ⟨results, m', hdone⟩ := hsteady (readAll o.ins d.regs) d.mem
        rw [hdone]
        rfl
    obtain ⟨st', hreach, hagree⟩ := reaches_after_call L hop hopens _ hspilled (h.setResume o)
      hatt
    refine ⟨st', ?_, hagree⟩
    rw [Moves, atOp_of_opensBlock hop hopens]
    refine .of_step (wasmStep_inl (step_act _)) ?_
    exact (reaches_next_block hop (h.setResume o).bp_le).reaches.trans hreach
  | false =>
    obtain ⟨results, m', hdone⟩ := L.inPlace hop hopens (readAll o.ins d.regs) d.mem
    have hcall : wasmAct S E.regLocals (.callHelper a o) st
        = settle E.regLocals st o
          (.done results m', d.logged a o.ins) := by
      rw [← hdone, ← hatt]
      rfl
    have hput : Agrees E ops live (pc + 1) (d.put a o (results, m'))
        (settle E.regLocals st o (.done results m', d.logged a o.ins)) := by
      exact { h.put L a o (results, m') hop rfl with mem := rfl, log := rfl, pending := rfl }
    rw [hdone]
    refine ⟨_, ?_, hput⟩
    have hflag : (E.regLocals && noSideEffects) = true := (Bool.not_eq_false' _).mp hopens
    rw [Moves, atOp_of_not_opensBlock hop hopens, wasmOut, tcgWasmOutCall, if_pos hflag]
    exact .of_step (wasmStep_inl (step_act_of_eq hcall)) (Reaches.refl _ _)

theorem moves_qemuLdst (hop : ops[pc]? = some (.qemuLdst a o)) :
    ∃ st', Moves S E ph ops pc (pc + 1) st st' ∧ Agrees E ops live (pc + 1)
      (d.put a o ((S.direct a (readAll o.ins d.regs) d.mem).getD
        (S.slow a (readAll o.ins d.regs) d.mem).finish)) st' := by
  obtain ⟨hargs, hatt⟩ := h.tries L hop rfl S.slow
  cases hdirect : S.direct a (readAll o.ins d.regs) d.mem with
  | some res =>
    have hprobe : wasmAct S E.regLocals (.probe a o) st
        = { st.put E.regLocals o res (d.logged a o.ins) with
            baseZero := false } := by
      simp only [wasmAct, hargs, h.mem, h.log, hdirect]
    have hput := h.put L a o res hop rfl
    have hle : ({ st.put E.regLocals o res (d.logged a o.ins) with
        baseZero := false } : WSt α M).bp E.regLocals ≤ (ctxAt E.regLocals ops pc).blockIdx :=
      Nat.le_trans (Nat.le_of_eq (WSt.bp_put o res d.log)) h.bp_le
    refine ⟨{ st.put E.regLocals o res (d.logged a o.ins) with
        baseZero := false, bpGlobal := (ctxAt E.regLocals ops pc).blockIdx + 1 }, ?_,
      { hput with bp_le := ?_ }⟩
    · rw [Moves, atOp_of_opensBlock hop rfl]
      refine .of_step (wasmStep_inl (step_act_of_eq hprobe)) (reaches_of_step (step_act _) ?_)
      refine (reaches_next_block hop (bp_setResume_le hle)).reaches.trans ?_
      rw [inBlock_eq hop]
      exact reaches_of_step (step_ifT_false rfl rfl) (Reaches.refl _ _)
    · rw [ctxAt_succ hop, blockIdx_after_of_opensBlock rfl]
      exact bp_setResume_le hle
  | none =>
    have hprobe : wasmAct S E.regLocals (.probe a o) st
        = { st with baseZero := true, doneFlag := false } := by
      simp only [wasmAct, hargs, h.mem, hdirect]
    have hmiss : Agrees E ops live pc d { st with baseZero := true, doneFlag := false } :=
      { h with }
    have hspilled : Spilled E ((ctxAt E.regLocals ops pc).wrote o.outs) (live pc)
        (S.slow a (readAll o.ins d.regs) d.mem) :=
      spilled_of_steady L hop (fun _ => List.mem_append_left _) fun hsteady => by
        obtain ⟨results, m', hdone⟩ := hsteady (readAll o.ins d.regs) d.mem
        rw [hdone]
        rfl
    obtain ⟨st', hreach, hagree⟩ :=
      reaches_after_slow L hop _ hspilled (hmiss.setResume o) rfl rfl hatt
    refine ⟨st', ?_, hagree⟩
    rw [Moves, atOp_of_opensBlock hop rfl]
    refine .of_step (wasmStep_inl (step_act_of_eq hprobe)) (reaches_of_step (step_act _) ?_)
    exact (reaches_next_block hop (hmiss.setResume o).bp_le).reaches.trans hreach

end Calls

/-! The whole function. -/

def FunctionAt (E : WEnv) (ph : ℕ → List (BitVec 8)) (ops : List (Op α)) (live : ℕ → Reg → Prop)
    (c : OpCfg α M) (w : WCfg α M) : Prop :=
  ∃ st, w = atOp E ph ops c.pc st ∧ Agrees E ops live c.pc c.data st

theorem ends_of_none (hop : ops[pc]? = none) :
    Ends (wasmStep S E (loopCode E ph ops)) (atOp E ph ops pc st) none := by
  have hdrop : ops.drop pc = [] := List.drop_eq_nil_of_le (List.getElem?_eq_none_iff.mp hop)
  rw [atOp, opCode, opEnd, hdrop]
  refine ends_of_step step_fin (ends_of_step step_fin (Ends.of_step ?_))
  simp [wasmStep]

include L in
/-- The wasm function does what the ops say. -/
theorem simulates_function (hlab : Labelled E.regLocals ops ph) :
    Simulates (opStep S E.this ops) (wasmStep S E (loopCode E ph ops))
      (FunctionAt E ph ops live) (fun _ => 0) where
  step := by
    rintro ⟨pc, d⟩ c' w ⟨st, rfl, h⟩ hstep
    left
    suffices ∃ st', Moves S E ph ops pc c'.pc st st' ∧ Agrees E ops live c'.pc c'.data st' by
      obtain ⟨st', hmoves, hagree⟩ := this
      exact ⟨_, hmoves, st', rfl, hagree⟩
    revert hstep
    fun_cases opStep S E.this ops ⟨pc, d⟩ with
    | case2 _ a o parts hop =>
      rintro ⟨⟩
      exact moves_plain L h hop
    | case3 _ l hop =>
      rintro ⟨⟩
      exact ⟨st, moves_setLabel L h hop⟩
    | case4 _ l hop =>
      obtain ⟨p, hl, hjump⟩ := hlab.jumpTo_eq hop (List.mem_singleton.mpr rfl) d
      rw [hjump]
      rintro ⟨⟩
      exact moves_br L h hlab hop hl
    | case5 _ a ins l hop _ hc =>
      obtain ⟨p, hl, hjump⟩ := hlab.jumpTo_eq hop (List.mem_singleton.mpr rfl) _
      rw [hjump]
      rintro ⟨⟩
      exact moves_brcond_taken L h hlab hop hl hc
    | case6 _ a ins l hop _ hc =>
      rintro ⟨⟩
      exact moves_brcond_not_taken L h hop (Bool.eq_false_iff.mpr hc)
    | case7 _ a o noSideEffects hop =>
      rintro ⟨⟩
      exact moves_call L h hop
    | case8 _ a o hop =>
      rintro ⟨⟩
      exact moves_qemuLdst L h hop
    | case10 _ which hop _ hzero =>
      rintro ⟨⟩
      exact moves_gotoTb_empty L h hop hzero
    | case11 _ which hop _ hzero =>
      rw [handOver]
      split
      case isTrue hthis =>
        rintro ⟨⟩
        exact moves_gotoTb L h hop hzero hthis
      case isFalse => nofun
    | case12 _ r hop =>
      rw [handOver]
      split
      case isTrue hthis =>
        rintro ⟨⟩
        exact moves_gotoPtr L h hop hthis
      case isFalse => nofun
    | _ => nofun
  ends := by
    rintro ⟨pc, d⟩ w r ⟨st, rfl, h⟩
    fun_cases opStep S E.this ops ⟨pc, d⟩ with
    | case1 hop =>
      rintro ⟨⟩
      exact ends_of_none hop
    | case4 _ l hop | case5 _ _ _ l hop =>
      obtain ⟨p, hl, hjump⟩ := hlab.jumpTo_eq hop (List.mem_singleton.mpr rfl) _
      rw [hjump]
      nofun
    | case9 _ arg hop =>
      rintro ⟨⟩
      rw [atOp_of_not_opensBlock hop rfl, ← h.mem, ← h.log]
      exact ends_of_step (step_act _) (ends_ret h.pending)
    | case11 _ which hop _ hzero =>
      rw [handOver]
      split
      case isTrue => nofun
      case isFalse hthis =>
        rintro ⟨⟩
        exact ends_gotoTb h hop hzero hthis
    | case12 _ r hop =>
      rw [handOver]
      split
      case isTrue => nofun
      case isFalse hthis =>
        rintro ⟨⟩
        exact ends_gotoPtr L h hop hthis
    | _ => nofun

end Bootbox.Tcg.Blocks
