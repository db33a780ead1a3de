import Bootbox.Tcg.BlockLayout

/-!
How control moves through the chain of guarded blocks, whatever the ops do.

At every op the function is in the block the op was emitted into, two scopes deep:
leaving the block goes to the guard of the next one, leaving the loop's scope to its
head. From any guard, a block pointer that names a later block skips the blocks
before it and enters that one.
-/

namespace Bootbox.Tcg.Blocks

open Lib FlatControl Machine

variable {α M : Type} {regLocals : Bool} {ph : ℕ → List (BitVec 8)}

variable {g : GenCtx}

/-! The shape of an op's code: it closes what it opens, or it ends the current block
and opens the next one in between. -/

def leadOut (g : GenCtx) : Op α → List (WTok α)
  | .call _ _ _ => [.act (.setResume (g.blockIdx + 1))]
  | .qemuLdst a o => [.act (.probe a o), .act (.setResume (g.blockIdx + 1))]
  | _ => []

def innerOut (regLocals : Bool) (g : GenCtx) : Op α → List (WTok α)
  | .call a o _ => callBlock regLocals g a o
  | .qemuLdst a o => slowBlock regLocals g a o
  | _ => []

variable {op : Op α}

theorem wasmOut_of_opensBlock (h : op.opensBlock regLocals = true) :
    wasmOut regLocals ph g op
      = leadOut g op ++ .fin :: .ifT (.bpLe (g.blockIdx + 1)) :: innerOut regLocals g op := by
  cases op with
  | setLabel l => rfl
  | call a o noSideEffects =>
    have hflag : (regLocals && noSideEffects) = false := (Bool.not_eq_true' _).mp h
    simp [wasmOut, tcgWasmOutCall, hflag, leadOut, innerOut, openBlock]
  | qemuLdst a o => rfl
  | _ => cases h

theorem balanced_leadOut (g : GenCtx) (op : Op α) : Balanced (leadOut g op) := by
  cases op with
  | call a o noSideEffects => exact .act _ .nil
  | qemuLdst a o => exact .act _ (.act _ .nil)
  | _ => exact .nil

theorem balanced_innerOut (g : GenCtx) (op : Op α) : Balanced (innerOut regLocals g op) := by
  cases op with
  | call a o noSideEffects => exact .act _ (.act _ (.act _ (.ifT _ (.ret _ .nil) .nil)))
  | qemuLdst a o =>
    exact .ifT .baseEqz (l := [_, _, _, _, _]) (.act _ (.act _ (.ifT _ (.ret _ .nil) .nil))) .nil
  | _ => exact .nil

theorem balanced_brToLabel (g : GenCtx) (l : ℕ) (brIf : Bool) :
    Balanced (tcgWasmOutOpBrToLabel ph g l brIf : List (WTok α)) := by
  cases brIf with
  | false => exact .act _ (.br _ .nil)
  | true => exact .ifT _ (.act _ (.br _ .nil)) .nil

theorem balanced_wasmOut (h : op.opensBlock regLocals = false) :
    Balanced (wasmOut regLocals ph g op) := by
  cases op with
  | plain a o parts => exact .act _ .nil
  | setLabel l => cases h
  | br l => exact balanced_brToLabel g l false
  | brcond a ins l => exact .act _ (balanced_brToLabel g l true)
  | call a o noSideEffects =>
    have hflag : (regLocals && noSideEffects) = true := (Bool.not_eq_false' _).mp h
    simp only [wasmOut, tcgWasmOutCall, hflag, if_true]
    exact .act _ .nil
  | qemuLdst a o => cases h
  | exitTb arg => exact .act _ (.ret _ .nil)
  | gotoTb which =>
    refine .act _ (.ifT .targetNeZero (l := [_, _, _, _, _, _, _])
      (.ifT .targetIsTb (l := [_, _]) ?_ ?_) .nil)
    · exact .act _ (.br _ .nil)
    · exact .act _ (.act _ (.ret _ .nil))
  | gotoPtr r =>
    exact .ifT _ (l := [_, _]) (.act _ (.br _ .nil)) (.act _ (.act _ (.ret _ .nil)))

/-! Block ends and guards. -/

def restCode (regLocals : Bool) (ph : ℕ → List (BitVec 8)) (g : GenCtx) (ops : List (Op α)) :
    List (WTok α) :=
  codeFrom regLocals ph g ops ++ funcTail

def blockCode (regLocals : Bool) (ph : ℕ → List (BitVec 8)) (g : GenCtx) (op : Op α)
    (ops : List (Op α)) : List (WTok α) :=
  innerOut regLocals g op ++ restCode regLocals ph (g.after regLocals op) ops

/-- What follows the end of the current block: the guard of the block that the next
op to open one opens, or the end of the loop. -/
def boundary (regLocals : Bool) (ph : ℕ → List (BitVec 8)) : GenCtx → List (Op α) → List (WTok α)
  | _, [] => [.fin, .unreachable, .fin]
  | g, op :: ops =>
    if op.opensBlock regLocals then
      .ifT (.bpLe (g.blockIdx + 1)) :: blockCode regLocals ph g op ops
    else boundary regLocals ph (g.after regLocals op) ops

variable {ops : List (Op α)}

theorem restCode_of_opensBlock (h : op.opensBlock regLocals = true) :
    restCode regLocals ph g (op :: ops)
      = leadOut g op ++ .fin :: .ifT (.bpLe (g.blockIdx + 1)) ::
        blockCode regLocals ph g op ops := by
  simp [restCode, codeFrom, wasmOut_of_opensBlock h, blockCode]

theorem restCode_cons (g : GenCtx) (op : Op α) (ops : List (Op α)) :
    restCode regLocals ph g (op :: ops)
      = wasmOut regLocals ph g op ++ restCode regLocals ph (g.after regLocals op) ops := by
  simp [restCode, codeFrom]

theorem boundary_of_opensBlock (h : op.opensBlock regLocals = true) :
    boundary regLocals ph g (op :: ops)
      = .ifT (.bpLe (g.blockIdx + 1)) :: blockCode regLocals ph g op ops := by
  simp [boundary, h]

theorem boundary_of_not_opensBlock (h : op.opensBlock regLocals = false) :
    boundary regLocals ph g (op :: ops) = boundary regLocals ph (g.after regLocals op) ops := by
  simp [boundary, h]

theorem skip_restCode (g : GenCtx) (ops : List (Op α)) :
    skip 0 (restCode regLocals ph g ops) = some (boundary regLocals ph g ops) := by
  induction ops generalizing g with
  | nil => rfl
  | cons op ops ih =>
    cases h : op.opensBlock regLocals with
    | true =>
      rw [restCode_of_opensBlock h, boundary_of_opensBlock h, balanced_leadOut]
      rfl
    | false =>
      rw [restCode_cons, balanced_wasmOut h, ih, boundary_of_not_opensBlock h]

theorem skip_blockCode (g : GenCtx) (op : Op α) (ops : List (Op α)) :
    skip 0 (blockCode regLocals ph g op ops)
      = some (boundary regLocals ph (g.after regLocals op) ops) := by
  rw [blockCode, balanced_innerOut, skip_restCode]

theorem blockIdx_after_of_opensBlock (h : op.opensBlock regLocals = true) :
    (g.after regLocals op).blockIdx = g.blockIdx + 1 := by
  simp [GenCtx.after, h]

/-! Steps of the function. -/

section Steps

variable {S : OpSem α M} {E : WEnv} {body : List (WTok α)} {st : WSt α M}
  {ls : List (List (WTok α))}

theorem wasmStep_inl {c c' : WCfg α M} (h : step (wasmSem S E.regLocals) c = .inl c') :
    wasmStep S E body c = .inl c' := by
  rw [wasmStep, h]

theorem reaches_of_step {c c' c'' : WCfg α M} (h : step (wasmSem S E.regLocals) c = .inl c')
    (h' : Reaches (wasmStep S E body) c' c'') : Reaches (wasmStep S E body) c c'' :=
  Reaches.of_step (wasmStep_inl h) h'

theorem reaches_block (pre post : List (Op α)) (g : GenCtx) (hop : op.opensBlock E.regLocals = true)
    (hbp : st.bp E.regLocals = (g.afterAll E.regLocals pre).blockIdx + 1) :
    Reaches (wasmStep S E body)
      ⟨boundary E.regLocals ph g (pre ++ op :: post), ls, st⟩
      ⟨blockCode E.regLocals ph (g.afterAll E.regLocals pre) op post,
        boundary E.regLocals ph ((g.afterAll E.regLocals pre).after E.regLocals op) post :: ls,
        st⟩ := by
  induction pre generalizing g with
  | nil =>
    have hguard : wasmTest E.regLocals (.bpLe (g.blockIdx + 1)) st = true :=
      decide_eq_true (Nat.le_of_eq hbp)
    rw [List.nil_append, boundary_of_opensBlock hop]
    exact reaches_of_step (step_ifT_true (skip_blockCode g op post) hguard) (Reaches.refl _ _)
  | cons op' pre ih =>
    have hrest := ih (g.after E.regLocals op') hbp
    cases hop' : op'.opensBlock E.regLocals with
    | true =>
      -- the block pointer is beyond this block: its guard fails
      have hle := blockIdx_afterAll E.regLocals (g.after E.regLocals op') pre
      rw [blockIdx_after_of_opensBlock hop'] at hle
      have hbp' : st.bp E.regLocals
          = ((g.after E.regLocals op').afterAll E.regLocals pre).blockIdx + 1 := hbp
      have hguard : wasmTest E.regLocals (.bpLe (g.blockIdx + 1)) st = false :=
        decide_eq_false (by omega)
      rw [List.cons_append, boundary_of_opensBlock hop']
      exact reaches_of_step (step_ifT_false (skip_blockCode g op' _) hguard) hrest
    | false =>
      rw [List.cons_append, boundary_of_not_opensBlock hop']
      exact hrest

/-! Where the function is when it is about to execute an op. -/

/-- The code from the `pc`-th op on. -/
def opCode (E : WEnv) (ph : ℕ → List (BitVec 8)) (ops : List (Op α)) (pc : ℕ) : List (WTok α) :=
  restCode E.regLocals ph (ctxAt E.regLocals ops pc) (ops.drop pc)

/-- What follows the block that the `pc`-th op was emitted into. -/
def opEnd (E : WEnv) (ph : ℕ → List (BitVec 8)) (ops : List (Op α)) (pc : ℕ) : List (WTok α) :=
  boundary E.regLocals ph (ctxAt E.regLocals ops pc) (ops.drop pc)

def loopCode (E : WEnv) (ph : ℕ → List (BitVec 8)) (ops : List (Op α)) : List (WTok α) :=
  .loop :: .ifT .bpEqz :: restCode E.regLocals ph .init ops

/-- About to execute the `pc`-th op. -/
def atOp (E : WEnv) (ph : ℕ → List (BitVec 8)) (ops : List (Op α)) (pc : ℕ) (st : WSt α M) :
    WCfg α M :=
  ⟨opCode E ph ops pc, [opEnd E ph ops pc, loopCode E ph ops], st⟩

/-- In the block that the `pc`-th op has opened. -/
def inBlock (E : WEnv) (ph : ℕ → List (BitVec 8)) (ops : List (Op α)) (pc : ℕ) (op : Op α)
    (st : WSt α M) : WCfg α M :=
  ⟨blockCode E.regLocals ph (ctxAt E.regLocals ops pc) op (ops.drop (pc + 1)),
    [opEnd E ph ops (pc + 1), loopCode E ph ops], st⟩

variable {ops : List (Op α)} {pc p : ℕ} {op : Op α}

theorem opCode_eq (hop : ops[pc]? = some op) :
    opCode E ph ops pc
      = wasmOut E.regLocals ph (ctxAt E.regLocals ops pc) op ++ opCode E ph ops (pc + 1) := by
  rw [opCode, drop_eq_cons hop, restCode_cons, opCode, ctxAt_succ hop]

theorem opEnd_eq (hop : ops[pc]? = some op) (h : op.opensBlock E.regLocals = false) :
    opEnd E ph ops pc = opEnd E ph ops (pc + 1) := by
  rw [opEnd, drop_eq_cons hop, boundary_of_not_opensBlock h, opEnd, ctxAt_succ hop]

theorem atOp_of_opensBlock (hop : ops[pc]? = some op) (h : op.opensBlock E.regLocals = true) :
    atOp E ph ops pc st
      = ⟨leadOut (ctxAt E.regLocals ops pc) op ++
          .fin :: .ifT (.bpLe ((ctxAt E.regLocals ops pc).blockIdx + 1)) ::
            blockCode E.regLocals ph (ctxAt E.regLocals ops pc) op (ops.drop (pc + 1)),
        [opEnd E ph ops pc, loopCode E ph ops], st⟩ := by
  rw [atOp, opCode, drop_eq_cons hop, restCode_of_opensBlock h]

theorem atOp_of_not_opensBlock (hop : ops[pc]? = some op)
    (h : op.opensBlock E.regLocals = false) :
    atOp E ph ops pc st
      = ⟨wasmOut E.regLocals ph (ctxAt E.regLocals ops pc) op ++ opCode E ph ops (pc + 1),
        [opEnd E ph ops (pc + 1), loopCode E ph ops], st⟩ := by
  rw [atOp, opCode_eq hop, opEnd_eq hop h]

theorem reaches_inBlock (hop : ops[p]? = some op) (h : op.opensBlock E.regLocals = true)
    (hle : pc ≤ p) (hbp : st.bp E.regLocals = (ctxAt E.regLocals ops p).blockIdx + 1) :
    Reaches (wasmStep S E body) ⟨opEnd E ph ops pc, [loopCode E ph ops], st⟩
      (inBlock E ph ops p op st) := by
  have hsplit : ops.drop pc = (ops.drop pc).take (p - pc) ++ op :: ops.drop (p + 1) := by
    rw [← drop_eq_cons hop]
    conv_lhs => rw [← List.take_append_drop (p - pc) (ops.drop pc)]
    rw [List.drop_drop, Nat.add_sub_cancel' hle]
  have hctx : (ctxAt E.regLocals ops pc).afterAll E.regLocals ((ops.drop pc).take (p - pc))
      = ctxAt E.regLocals ops p := by
    rw [ctxAt, ctxAt, GenCtx.afterAll, GenCtx.afterAll, GenCtx.afterAll, ← List.foldl_append,
      ← List.take_add, Nat.add_sub_cancel' hle]
  rw [← hctx] at hbp
  rw [opEnd, hsplit, inBlock, opEnd, ctxAt_succ hop, ← hctx]
  exact reaches_block _ _ _ h hbp

theorem reaches_inBlock_of_top (hop : ops[p]? = some op) (h : op.opensBlock E.regLocals = true)
    (hbp : st.bp E.regLocals = (ctxAt E.regLocals ops p).blockIdx + 1) :
    Reaches (wasmStep S E body) ⟨loopCode E ph ops, [], st⟩ (inBlock E ph ops p op st) := by
  have hguard : wasmTest E.regLocals .bpEqz st = false := decide_eq_false (by omega)
  refine reaches_of_step step_loop ?_
  refine reaches_of_step (step_ifT_false (skip_restCode _ _) hguard) ?_
  exact reaches_inBlock hop h (Nat.zero_le p) hbp

theorem reaches_start (hbp : st.bp E.regLocals = 0) :
    Reaches (wasmStep S E body) ⟨loopCode E ph ops, [], st⟩ (atOp E ph ops 0 st) := by
  have hguard : wasmTest E.regLocals .bpEqz st = true := decide_eq_true hbp
  refine reaches_of_step step_loop ?_
  exact reaches_of_step (step_ifT_true (skip_restCode _ _) hguard) (Reaches.refl _ _)

theorem inBlock_setLabel {l : ℕ} (hop : ops[p]? = some (.setLabel l)) :
    inBlock E ph ops p (.setLabel l) st = atOp E ph ops (p + 1) st := by
  rw [inBlock, atOp, opCode, ctxAt_succ hop]
  rfl

theorem reaches_next_block (hop : ops[pc]? = some op)
    (hbp : st.bp E.regLocals ≤ (ctxAt E.regLocals ops pc).blockIdx + 1) :
    ReachesPlus (wasmStep S E body)
      ⟨.fin :: .ifT (.bpLe ((ctxAt E.regLocals ops pc).blockIdx + 1)) ::
          blockCode E.regLocals ph (ctxAt E.regLocals ops pc) op (ops.drop (pc + 1)),
        [opEnd E ph ops pc, loopCode E ph ops], st⟩
      (inBlock E ph ops pc op st) := by
  have hguard : wasmTest E.regLocals (.bpLe ((ctxAt E.regLocals ops pc).blockIdx + 1)) st = true :=
    decide_eq_true hbp
  refine .of_step (wasmStep_inl step_fin) ?_
  refine reaches_of_step (step_ifT_true (skip_blockCode _ _ _) hguard) ?_
  rw [inBlock, opEnd, ctxAt_succ hop]
  exact Reaches.refl _ _

end Steps

end Bootbox.Tcg.Blocks
