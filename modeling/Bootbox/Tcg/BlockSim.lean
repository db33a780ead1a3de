import Bootbox.Tcg.BlockFlow

/-!
The wasm function does what the op list says, op by op: here plain ops, labels,
branches and exits.

The registers are compared where they matter: `live pc` are the registers that must
be right before the `pc`-th op. With all registers live this is equality; with fewer
it allows for calls that unwind, since a resumed function only has the registers
that were spilled before the call.
-/

namespace Bootbox.Tcg.Blocks

open Lib FlatControl Machine List Function

variable {α M : Type}

/-! The registers that results are written to. -/

theorem outReg_val (s : Fin 14) : (outReg s).val < 14 := s.isLt

theorem writeAll_of_not_mem {outs : List (Fin 14)} {r : Reg} (h : ∀ s ∈ outs, outReg s ≠ r)
    (vs : List (BitVec 64)) (regs : RegFile) : writeAll outs vs regs r = regs r := by
  induction outs generalizing vs regs with
  | nil => rfl
  | cons s outs ih =>
    rw [writeAll, ih (fun s' hs' => h s' (mem_cons_of_mem _ hs')),
      update_of_ne (h s (mem_cons_self ..)).symm]

theorem writeAll_congr {outs : List (Fin 14)} {r : Reg} {regs regs' : RegFile}
    (h : (∀ s ∈ outs, outReg s ≠ r) → regs r = regs' r) (vs : List (BitVec 64)) :
    writeAll outs vs regs r = writeAll outs vs regs' r := by
  induction outs generalizing vs regs regs' with
  | nil => exact h (by simp)
  | cons s outs ih =>
    refine ih (fun hnot => ?_) vs.tail
    by_cases hs : outReg s = r
    · subst hs
      simp
    · rw [update_of_ne (Ne.symm hs), update_of_ne (Ne.symm hs)]
      exact h (by simpa [hs] using hnot)

/-! Which registers are live. -/

def Op.ins : Op α → List Reg
  | .plain _ o _ => o.ins
  | .brcond _ ins _ => ins
  | .call _ o _ => o.ins
  | .qemuLdst _ o => o.ins
  | .gotoPtr r => [r]
  | _ => []

/-- The helper an op calls, if it calls one, never unwinds. -/
def Op.Steady (S : OpSem α M) : Op α → Prop
  | .call a _ _ => ∀ args m, ∃ results m', S.helper a args m = .done results m'
  | .qemuLdst a _ => ∀ args m, ∃ results m', S.slow a args m = .done results m'
  | _ => True

/-- `live pc` holds the registers that are still read after the `pc`-th op is
reached, and before a call that may unwind only such as are spilled there. -/
structure Liveness (S : OpSem α M) (regLocals : Bool) (ops : List (Op α))
    (live : ℕ → Reg → Prop) : Prop where
  ins : ∀ {pc op r}, ops[pc]? = some op → r ∈ op.ins → live pc r
  next : ∀ {pc op r}, ops[pc]? = some op → live (pc + 1) r →
    live pc r ∨ ∃ s ∈ op.outs, outReg s = r
  jump : ∀ {pc op i l p r}, ops[pc]? = some op → (i, l) ∈ tciRelocs op →
    labelAt ops l = some p → live (p + 1) r → live pc r
  restart : ∀ {pc r}, live 0 r → live pc r
  inPlace : ∀ {pc : ℕ} {op : Op α}, ops[pc]? = some op → op.opensBlock regLocals = false →
    op.Steady S
  spilled : ∀ {pc : ℕ} {op : Op α}, ops[pc]? = some op → regLocals = true → op.Steady S ∨
    ∀ r, live pc r → r.val < 14 → ∃ s ∈ (ctxAt regLocals ops pc).regsWritten, outReg s = r

abbrev Data.logged (d : Data α M) (a : α) (ins : List Reg) : List (Event α) :=
  d.log ++ [⟨a, readAll ins d.regs⟩]

/-! Registers and block pointer of a function's state. -/

namespace WSt

variable {regLocals : Bool} {st : WSt α M}

variable (o : Operands) (res : List (BitVec 64) × M) (log : List (Event α))

@[simp] theorem regs_put :
    (st.put regLocals o res log).regs regLocals
      = writeAll o.outs res.1 (st.regs regLocals) := by
  cases regLocals <;> rfl

@[simp] theorem bp_put : (st.put regLocals o res log).bp regLocals = st.bp regLocals := by
  cases regLocals <;> rfl

@[simp] theorem tbPtr_put : (st.put regLocals o res log).tbPtr = st.tbPtr := by
  cases regLocals <;> rfl

@[simp] theorem doInit_put : (st.put regLocals o res log).doInit = st.doInit := by
  cases regLocals <;> rfl

@[simp] theorem pending_put : (st.put regLocals o res log).pending = st.pending := by
  cases regLocals <;> rfl

@[simp] theorem unwinding_put : (st.put regLocals o res log).unwinding = st.unwinding := by
  cases regLocals <;> rfl

@[simp] theorem doneFlag_put : (st.put regLocals o res log).doneFlag = st.doneFlag := by
  cases regLocals <;> rfl

@[simp] theorem bp_setBp (block : ℕ) : (st.setBp regLocals block).bp regLocals = block := by
  cases regLocals <;> rfl

@[simp] theorem setBp_fields (block : ℕ) : (st.setBp regLocals block).mem = st.mem ∧
    (st.setBp regLocals block).log = st.log ∧ (st.setBp regLocals block).pending = st.pending ∧
    (st.setBp regLocals block).tbPtr = st.tbPtr ∧
    (st.setBp regLocals block).doInit = st.doInit ∧
    (st.setBp regLocals block).locals = st.locals ∧
    (st.setBp regLocals block).regs regLocals = st.regs regLocals := by
  cases regLocals <;> exact ⟨rfl, rfl, rfl, rfl, rfl, rfl, rfl⟩

end WSt

/-- The function's state agrees with that of the ops, in the block `block`. -/
structure StRel (E : WEnv) (live : Reg → Prop) (block : ℕ) (d : Data α M) (st : WSt α M) :
    Prop where
  regs : ∀ r, live r → st.regs E.regLocals r = d.regs r
  mem : st.mem = d.mem
  log : st.log = d.log
  pending : st.pending = none
  tbPtr : st.tbPtr = E.this
  doInit : st.doInit = false
  bp_le : st.bp E.regLocals ≤ block
  reserved : E.regLocals = true → st.locals 14 = E.env ∧ st.locals 15 = E.stack

section Function

variable {S : OpSem α M} {E : WEnv} {ph : ℕ → List (BitVec 8)} {ops : List (Op α)}
  {live : ℕ → Reg → Prop} {pc : ℕ} {d : Data α M} {st : WSt α M}

/-- The state agrees with that of the ops where the `pc`-th op was emitted. -/
abbrev Agrees (E : WEnv) (ops : List (Op α)) (live : ℕ → Reg → Prop) (pc : ℕ) (d : Data α M)
    (st : WSt α M) : Prop :=
  StRel E (live pc) (ctxAt E.regLocals ops pc).blockIdx d st

abbrev Moves (S : OpSem α M) (E : WEnv) (ph : ℕ → List (BitVec 8)) (ops : List (Op α))
    (pc pc' : ℕ) (st st' : WSt α M) : Prop :=
  ReachesPlus (wasmStep S E (loopCode E ph ops)) (atOp E ph ops pc st) (atOp E ph ops pc' st')

theorem blockIdx_le_ctxAt_succ {op : Op α} (hop : ops[pc]? = some op) :
    (ctxAt E.regLocals ops pc).blockIdx ≤ (ctxAt E.regLocals ops (pc + 1)).blockIdx := by
  rw [ctxAt_succ hop]
  exact Nat.le_add_right _ _

section Ops

variable (L : Liveness S E.regLocals ops live) (h : Agrees E ops live pc d st)

include L

/-- An op has written its results. The registers it writes need not have been right. -/
theorem StRel.put {op : Op α} {a : α} {o : Operands} {st' : WSt α M} {block : ℕ}
    {res : List (BitVec 64) × M} (hop : ops[pc]? = some op) (houts : op.outs = o.outs)
    (hregs : ∀ r, live pc r → (∀ s ∈ o.outs, outReg s ≠ r) →
      st.regs E.regLocals r = d.regs r)
    (hregs' : st'.regs E.regLocals = writeAll o.outs res.1 (st.regs E.regLocals))
    (hmem : st'.mem = res.2) (hlog : st'.log = d.logged a o.ins)
    (hpending : st'.pending = none) (htb : st'.tbPtr = E.this) (hinit : st'.doInit = false)
    (hbp : st'.bp E.regLocals ≤ block)
    (hres : E.regLocals = true → st.locals 14 = E.env ∧ st.locals 15 = E.stack) :
    StRel E (live (pc + 1)) block (d.put a o res) st' where
  regs := by
    intro r hr
    rw [hregs']
    refine writeAll_congr (fun hnot => ?_) res.1
    rcases L.next hop hr with hlive | ⟨s, hs, heq⟩
    · exact hregs r hlive hnot
    · rw [houts] at hs
      exact absurd heq (hnot s hs)
  mem := hmem
  log := hlog
  pending := hpending
  tbPtr := htb
  doInit := hinit
  bp_le := hbp
  reserved := by
    intro hE
    have hkeep : ∀ r : Reg, 14 ≤ r.val → st'.locals r = st.locals r := by
      intro r hr
      have hr' := congrFun hregs' r
      rw [writeAll_of_not_mem (fun s _ heq => ?_)] at hr'
      · simpa [WSt.regs, hE] using hr'
      · have := outReg_val s
        rw [heq] at this
        omega
    rw [hkeep 14 (by decide), hkeep 15 (by decide)]
    exact hres hE

include h

theorem readAll_of_live {op : Op α} (hop : ops[pc]? = some op) :
    readAll op.ins (st.regs E.regLocals) = readAll op.ins d.regs :=
  map_congr_left fun r hr => h.regs r (L.ins hop hr)

theorem Agrees.put {op : Op α} (a : α) (o : Operands) (res : List (BitVec 64) × M)
    (hop : ops[pc]? = some op) (houts : op.outs = o.outs) :
    Agrees E ops live (pc + 1) (d.put a o res) (st.put E.regLocals o res (d.logged a o.ins)) := by
  refine StRel.put L hop houts (fun r hr _ => h.regs r hr) (WSt.regs_put ..) rfl rfl
    ?_ ?_ ?_ ?_ h.reserved
  · rw [WSt.pending_put, h.pending]
  · rw [WSt.tbPtr_put, h.tbPtr]
  · rw [WSt.doInit_put, h.doInit]
  · rw [WSt.bp_put]
    exact Nat.le_trans h.bp_le (blockIdx_le_ctxAt_succ hop)

theorem moves_plain {a : α} {o : Operands} {parts : ℕ}
    (hop : ops[pc]? = some (.plain a o parts)) :
    ∃ st', Moves S E ph ops pc (pc + 1) st st' ∧
      Agrees E ops live (pc + 1) (d.put a o (S.plain a (readAll o.ins d.regs) d.mem)) st' := by
  have hargs : readAll o.ins (st.regs E.regLocals) = readAll o.ins d.regs :=
    readAll_of_live L h hop
  have hact : wasmAct S E.regLocals (.plain a o) st
      = st.put E.regLocals o (S.plain a (readAll o.ins d.regs) d.mem) (d.logged a o.ins) := by
    simp only [wasmAct, hargs, h.mem, h.log, Data.logged]
  refine ⟨_, ?_, h.put L a o _ hop rfl⟩
  rw [Moves, atOp_of_not_opensBlock hop rfl, ← hact]
  exact .of_step (wasmStep_inl (step_act _)) (Reaches.refl _ _)

theorem Agrees.fallThrough {op : Op α} (hop : ops[pc]? = some op) (houts : op.outs = []) :
    Agrees E ops live (pc + 1) d st := by
  refine { h with
    regs := fun r hr => h.regs r ?_
    bp_le := Nat.le_trans h.bp_le (blockIdx_le_ctxAt_succ hop) }
  rcases L.next hop hr with hlive | ⟨s, hs, -⟩
  · exact hlive
  · rw [houts] at hs
    cases hs

theorem moves_setLabel {l : ℕ} (hop : ops[pc]? = some (.setLabel l)) :
    Moves S E ph ops pc (pc + 1) st st ∧ Agrees E ops live (pc + 1) d st := by
  refine ⟨?_, h.fallThrough L hop rfl⟩
  rw [Moves, atOp_of_opensBlock hop rfl, ← inBlock_setLabel hop]
  exact reaches_next_block hop (Nat.le_succ_of_le h.bp_le)

end Ops

/-! Branches. -/

/-- The label of each branch, where it stands and how its block is numbered. -/
structure Labelled (regLocals : Bool) (ops : List (Op α)) (ph : ℕ → List (BitVec 8)) : Prop where
  defined : ∀ {pc i l : ℕ} {op : Op α}, ops[pc]? = some op → (i, l) ∈ tciRelocs op →
    ∃ p, labelAt ops l = some p
  setLabel : ∀ {l p}, labelAt ops l = some p → ops[p]? = some (.setLabel l)
  blockOf : ∀ {l p}, labelAt ops l = some p →
    blockOf (ph l) = (ctxAt regLocals ops p).blockIdx + 1

theorem Labelled.jumpTo_eq {M : Type} (h : Labelled regLocals ops ph) {op : Op α}
    (hop : ops[pc]? = some op) {i l : ℕ} (hl : (i, l) ∈ tciRelocs op) (d : Data α M) :
    ∃ p, labelAt ops l = some p ∧ jumpTo ops l d = .inl ⟨p + 1, d⟩ := by
  obtain ⟨p, hp⟩ := h.defined hop hl
  exact ⟨p, hp, by rw [jumpTo, hp]⟩

theorem currentLabel_ctxAt (regLocals : Bool) (ops : List (Op α)) (pc : ℕ) :
    (ctxAt regLocals ops pc).currentLabel = (ops.take pc).flatMap Op.labels := by
  have hgen : ∀ (ops : List (Op α)) (g : GenCtx),
      (g.afterAll regLocals ops).currentLabel = g.currentLabel ++ ops.flatMap Op.labels := by
    intro ops
    induction ops with
    | nil => exact fun g => (append_nil _).symm
    | cons op ops ih =>
      intro g
      rw [GenCtx.afterAll, foldl_cons]
      refine (ih (g.after regLocals op)).trans ?_
      simp [GenCtx.after]
  rw [ctxAt, hgen]
  rfl

theorem le_of_not_mem_currentLabel {l p : ℕ} (hl : ops[p]? = some (.setLabel l))
    (hnot : l ∉ (ctxAt E.regLocals ops pc).currentLabel) : pc ≤ p := by
  by_contra hlt
  refine hnot ?_
  rw [currentLabel_ctxAt]
  refine List.mem_flatMap.mpr ⟨.setLabel l, ?_, by simp [Op.labels]⟩
  obtain ⟨hp, heq⟩ := List.getElem?_eq_some_iff.mp hl
  exact List.mem_take_iff_getElem.mpr ⟨p, by omega, heq⟩

/-- A branch sets the block pointer and leaves the block, or the loop's scope: it
goes on at the first op after its label. -/
theorem reaches_label (S : OpSem α M) (pc : ℕ) {l p : ℕ} (hlab : Labelled E.regLocals ops ph)
    (hl : labelAt ops l = some p) (st : WSt α M) :
    Reaches (wasmStep S E (loopCode E ph ops))
      (if l ∈ (ctxAt E.regLocals ops pc).currentLabel then
          ⟨loopCode E ph ops, [], st.setBp E.regLocals (blockOf (ph l))⟩
        else ⟨opEnd E ph ops pc, [loopCode E ph ops], st.setBp E.regLocals (blockOf (ph l))⟩)
      (atOp E ph ops (p + 1) (st.setBp E.regLocals (blockOf (ph l)))) := by
  have hset := hlab.setLabel hl
  have hbp : (st.setBp E.regLocals (blockOf (ph l))).bp E.regLocals
      = (ctxAt E.regLocals ops p).blockIdx + 1 := by
    rw [WSt.bp_setBp, hlab.blockOf hl]
  rw [← inBlock_setLabel hset]
  split
  case isTrue => exact reaches_inBlock_of_top hset rfl hbp
  case isFalse hnot =>
    exact reaches_inBlock hset rfl (le_of_not_mem_currentLabel hset hnot) hbp

section Branches

variable (L : Liveness S E.regLocals ops live) (h : Agrees E ops live pc d st)

include h

theorem Agrees.setBp {pc' block : ℕ} (hlive : ∀ r, live pc' r → live pc r)
    (hblock : block ≤ (ctxAt E.regLocals ops pc').blockIdx) :
    Agrees E ops live pc' d (st.setBp E.regLocals block) := by
  obtain ⟨hmem, hlog, hpending, htb, hinit, hlocals, hregs⟩ := st.setBp_fields block
  refine ⟨fun r hr => ?_, hmem.trans h.mem, hlog.trans h.log, hpending.trans h.pending,
    htb.trans h.tbPtr, hinit.trans h.doInit, ?_, hlocals ▸ h.reserved⟩
  · rw [hregs]
    exact h.regs r (hlive r hr)
  · rwa [WSt.bp_setBp]

include L

theorem Agrees.jump {op : Op α} {i l p : ℕ} (hlab : Labelled E.regLocals ops ph)
    (hop : ops[pc]? = some op) (hmem : (i, l) ∈ tciRelocs op) (hl : labelAt ops l = some p) :
    Agrees E ops live (p + 1) d (st.setBp E.regLocals (blockOf (ph l))) := by
  refine h.setBp (fun r hr => L.jump hop hmem hl hr) ?_
  rw [hlab.blockOf hl, ctxAt_succ (hlab.setLabel hl), blockIdx_after_of_opensBlock rfl]

theorem moves_br {l p : ℕ} (hlab : Labelled E.regLocals ops ph) (hop : ops[pc]? = some (.br l))
    (hl : labelAt ops l = some p) :
    ∃ st', Moves S E ph ops pc (p + 1) st st' ∧ Agrees E ops live (p + 1) d st' := by
  refine ⟨st.setBp E.regLocals (blockOf (ph l)), ?_,
    h.jump L hlab hop (mem_singleton.mpr rfl) hl⟩
  rw [Moves, atOp_of_not_opensBlock hop rfl, ← opEnd_eq hop rfl]
  refine .of_step (wasmStep_inl (step_act _)) (reaches_of_step ?_ (reaches_label S pc hlab hl st))
  split
  case isTrue hseen => exact step_br (d := 1) rfl
  case isFalse hseen => exact step_br (d := 0) rfl

theorem Agrees.cond {a : α} {ins : List Reg} {l : ℕ}
    (hop : ops[pc]? = some (.brcond a ins l)) :
    (wasmAct S E.regLocals (.cond a ins) st).top = S.cond a (readAll ins d.regs) ∧
      Agrees E ops live pc { d with log := d.logged a ins }
        (wasmAct S E.regLocals (.cond a ins) st) := by
  have hargs : readAll ins (st.regs E.regLocals) = readAll ins d.regs := readAll_of_live L h hop
  have hact : wasmAct S E.regLocals (.cond a ins) st
      = { st with top := S.cond a (readAll ins d.regs), log := d.logged a ins } := by
    simp only [wasmAct, hargs, h.log, Data.logged]
  rw [hact]
  exact ⟨rfl, { h with log := rfl }⟩

theorem moves_brcond_taken {a : α} {ins : List Reg} {l p : ℕ} (hlab : Labelled E.regLocals ops ph)
    (hop : ops[pc]? = some (.brcond a ins l)) (hl : labelAt ops l = some p)
    (hc : S.cond a (readAll ins d.regs) = true) :
    ∃ st', Moves S E ph ops pc (p + 1) st st' ∧
      Agrees E ops live (p + 1) { d with log := d.logged a ins } st' := by
  obtain ⟨htop, hagree⟩ := h.cond L hop
  refine ⟨_, ?_, hagree.jump L hlab hop (mem_singleton.mpr rfl) hl⟩
  rw [Moves, atOp_of_not_opensBlock hop rfl, ← opEnd_eq hop rfl]
  refine .of_step (wasmStep_inl (step_act _)) ?_
  refine reaches_of_step (step_ifT_true rfl (htop.trans hc)) (reaches_of_step (step_act _) ?_)
  refine reaches_of_step ?_ (reaches_label S pc hlab hl _)
  split
  case isTrue hseen => exact step_br (d := 2) rfl
  case isFalse hseen => exact step_br (d := 1) rfl

theorem moves_brcond_not_taken {a : α} {ins : List Reg} {l : ℕ}
    (hop : ops[pc]? = some (.brcond a ins l)) (hc : S.cond a (readAll ins d.regs) = false) :
    ∃ st', Moves S E ph ops pc (pc + 1) st st' ∧
      Agrees E ops live (pc + 1) { d with log := d.logged a ins } st' := by
  obtain ⟨htop, hagree⟩ := h.cond L hop
  refine ⟨wasmAct S E.regLocals (.cond a ins) st, ?_, hagree.fallThrough L hop rfl⟩
  rw [Moves, atOp_of_not_opensBlock hop rfl]
  refine .of_step (wasmStep_inl (step_act _)) ?_
  exact reaches_of_step (step_ifT_false rfl (htop.trans hc)) (Reaches.refl _ _)

end Branches

/-! Exits. -/

theorem ends_of_step {c c' : WCfg α M} {body : List (WTok α)} {r : Option (Final α M)}
    (h : step (wasmSem S E.regLocals) c = .inl c') (h' : Ends (wasmStep S E body) c' r) :
    Ends (wasmStep S E body) c r :=
  (reaches_of_step h (Reaches.refl _ _)).ends h'

theorem ends_ret {ret : BitVec 32} {k : List (WTok α)} {ls : List (List (WTok α))}
    {body : List (WTok α)} (h : st.pending = none) :
    Ends (wasmStep S E body) ⟨.ret ret :: k, ls, st⟩
      (some ⟨⟨st.tbPtr, ret⟩, st.mem, st.log⟩) :=
  Ends.of_step (by simp [wasmStep, h])

section Exits

variable (L : Liveness S E.regLocals ops live) (h : Agrees E ops live pc d st)

include h

theorem Agrees.loadJmpTarget (S : OpSem α M) (which : Fin 2) :
    Agrees E ops live pc d (wasmAct S E.regLocals (.loadJmpTarget which) st) :=
  { h with }

theorem ends_gotoTb {which : Fin 2} (hop : ops[pc]? = some (.gotoTb which))
    (hzero : S.jmpTarget which d.mem ≠ 0#32) (hthis : S.jmpTarget which d.mem ≠ E.this) :
    Ends (wasmStep S E (loopCode E ph ops)) (atOp E ph ops pc st)
      (some ⟨⟨S.jmpTarget which d.mem, 0#32⟩, d.mem, d.log⟩) := by
  rw [← h.mem] at hzero hthis ⊢
  rw [atOp_of_not_opensBlock hop rfl, ← h.log]
  have hnot : S.jmpTarget which st.mem ≠ st.tbPtr := by
    rw [h.tbPtr]
    exact hthis
  refine ends_of_step (step_act _) ?_
  refine ends_of_step (step_ifT_true rfl (decide_eq_true hzero)) ?_
  refine ends_of_step (step_ifT_false rfl (decide_eq_false hnot)) ?_
  exact ends_of_step (step_act _) (ends_of_step (step_act _) (ends_ret h.pending))

include L

theorem Agrees.restart : Agrees E ops live 0 d (st.setBp E.regLocals 0) :=
  h.setBp (fun _ hr => L.restart hr) (Nat.zero_le _)

/-- A jump through a register to this block itself starts over. -/
theorem moves_gotoPtr {r : Reg} (hop : ops[pc]? = some (.gotoPtr r))
    (hthis : lo (d.regs r) = E.this) :
    ∃ st', Moves S E ph ops pc 0 st st' ∧ Agrees E ops live 0 d st' := by
  have hr : st.regs E.regLocals r = d.regs r := h.regs r (L.ins hop (mem_singleton.mpr rfl))
  have htest : wasmTest E.regLocals (.ptrIsTb r) st = true :=
    decide_eq_true (by rw [hr, hthis, h.tbPtr])
  refine ⟨_, ?_, h.restart L⟩
  rw [Moves, atOp_of_not_opensBlock hop rfl]
  refine .of_step (wasmStep_inl (step_ifT_true rfl htest)) ?_
  refine reaches_of_step (step_act _) (reaches_of_step (step_br rfl) ?_)
  exact reaches_start (WSt.bp_setBp 0)

theorem ends_gotoPtr {r : Reg} (hop : ops[pc]? = some (.gotoPtr r))
    (hthis : lo (d.regs r) ≠ E.this) :
    Ends (wasmStep S E (loopCode E ph ops)) (atOp E ph ops pc st)
      (some ⟨⟨lo (d.regs r), 0#32⟩, d.mem, d.log⟩) := by
  have hr : st.regs E.regLocals r = d.regs r := h.regs r (L.ins hop (mem_singleton.mpr rfl))
  have htest : wasmTest E.regLocals (.ptrIsTb r) st = false :=
    decide_eq_false (by rw [hr, h.tbPtr]; exact hthis)
  rw [atOp_of_not_opensBlock hop rfl, ← hr, ← h.mem, ← h.log]
  refine ends_of_step (step_ifT_false rfl htest) ?_
  exact ends_of_step (step_act _) (ends_of_step (step_act _) (ends_ret h.pending))

theorem moves_gotoTb {which : Fin 2} (hop : ops[pc]? = some (.gotoTb which))
    (hzero : S.jmpTarget which d.mem ≠ 0#32) (hthis : S.jmpTarget which d.mem = E.this) :
    ∃ st', Moves S E ph ops pc 0 st st' ∧ Agrees E ops live 0 d st' := by
  rw [← h.mem] at hzero hthis
  refine ⟨_, ?_, (h.loadJmpTarget S which).restart L⟩
  rw [Moves, atOp_of_not_opensBlock hop rfl]
  refine .of_step (wasmStep_inl (step_act _)) ?_
  refine reaches_of_step (step_ifT_true rfl (decide_eq_true hzero)) ?_
  refine reaches_of_step (step_ifT_true rfl (decide_eq_true (hthis.trans h.tbPtr.symm))) ?_
  refine reaches_of_step (step_act _) (reaches_of_step (step_br rfl) ?_)
  exact reaches_start (WSt.bp_setBp 0)

/-- The slot is empty: the exit that follows is taken. -/
theorem moves_gotoTb_empty {which : Fin 2} (hop : ops[pc]? = some (.gotoTb which))
    (hzero : S.jmpTarget which d.mem = 0#32) :
    ∃ st', Moves S E ph ops pc (pc + 1) st st' ∧ Agrees E ops live (pc + 1) d st' := by
  rw [← h.mem] at hzero
  refine ⟨_, ?_, (h.loadJmpTarget S which).fallThrough L hop rfl⟩
  rw [Moves, atOp_of_not_opensBlock hop rfl]
  refine .of_step (wasmStep_inl (step_act _)) ?_
  exact reaches_of_step (step_ifT_false rfl (decide_eq_false (not_not.mpr hzero)))
    (Reaches.refl _ _)

end Exits

end Function

end Bootbox.Tcg.Blocks
