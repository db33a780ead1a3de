import Bootbox.Tcg.BlockCalls

/-!
The wasm function executes the same ops as the bytecode.

Both machines simulate the op list: a branch goes on at the first op after its
label, and falling off a block goes on with the next op. So they run in lockstep:
their registers, memory and logs of executed ops agree again and again, and they
leave the block alike.
-/

namespace Bootbox.Tcg.Blocks

open Lib FlatControl Machine List

variable {α M : Type}

/-! The bytecode. -/

section Bytecode

variable {regLocals : Bool} {ops : List (Op α)} {tb : TbCode α} {ph : ℕ → List (BitVec 8)}
  {disp : ℕ → ℕ → BitVec 20} {S : OpSem α M} {this : BitVec 32} {pc : ℕ}

/-- The interpreter is about to execute the op, with the right values. -/
def BytecodeAt (ops : List (Op α)) (c : OpCfg α M) (t : TciCfg α M) : Prop :=
  t.pc = wordPos ops c.pc ∧ t.data = c.data

theorem Layout.word_at (lay : Layout regLocals ops tb ph disp) {op : Op α}
    (hop : ops[pc]? = some op) (i : ℕ) (hi : i < tciLen op) :
    tb.words[wordPos ops pc + i]? = (tciOut (fun j => disp (wordPos ops pc + j)) op)[i]? := by
  have hlen : (wordsFrom disp 0 (ops.take pc)).length = wordPos ops pc := length_wordsFrom ..
  have hsplit : wordsFrom disp 0 ops = wordsFrom disp 0 (ops.take pc)
      ++ wordsFrom disp (wordPos ops pc) (ops.drop pc) := by
    conv_lhs => rw [← take_append_drop pc ops]
    rw [wordsFrom_append, Nat.zero_add, wordPos]
  rw [lay.words_eq, hsplit, getElem?_append_right (by omega), hlen, Nat.add_sub_cancel_left,
    drop_eq_cons hop, wordsFrom, getElem?_append_left (by rw [length_tciOut]; exact hi)]

theorem Layout.first_word (lay : Layout regLocals ops tb ph disp) {op : Op α}
    (hop : ops[pc]? = some op) (hlen : 0 < tciLen op) :
    tb.words[wordPos ops pc]? = (tciOut (fun j => disp (wordPos ops pc + j)) op)[0]? :=
  lay.word_at hop 0 hlen

theorem Layout.word_at_end (lay : Layout regLocals ops tb ph disp) (hop : ops[pc]? = none) :
    tb.words[wordPos ops pc]? = none := by
  rw [lay.words_eq, getElem?_eq_none_iff, length_wordsFrom, wordPos,
    take_of_length_le (getElem?_eq_none_iff.mp hop)]

theorem reaches_parts (lay : Layout regLocals ops tb ph disp) {a : α} {o : Operands} {parts : ℕ}
    (hop : ops[pc]? = some (.plain a o parts)) (tmp : Bool) (d : Data α M) :
    Reaches (tciStep S this tb.words) ⟨wordPos ops pc, tmp, d⟩
      ⟨wordPos ops pc + parts, tmp, d⟩ := by
  have hlen : tciLen (.plain a o parts) = parts + 1 := by simp [tciLen, tciOut]
  have hgen : ∀ k, k ≤ parts → Reaches (tciStep S this tb.words) ⟨wordPos ops pc, tmp, d⟩
      ⟨wordPos ops pc + k, tmp, d⟩ := by
    intro k hk
    induction k with
    | zero => exact Reaches.refl _ _
    | succ k ih =>
      have hword : tb.words[wordPos ops pc + k]? = some .part := by
        rw [lay.word_at hop k (by omega), tciOut,
          getElem?_append_left (by rw [length_replicate]; omega), getElem?_replicate,
          if_pos (by omega)]
      refine (ih (by omega)).trans (.of_step ?_ (Reaches.refl _ _))
      simp [tciStep, hword, Nat.add_assoc]
  exact hgen parts (Nat.le_refl _)

theorem moves_word {c : OpCfg α M} {tmp : Bool} {d : Data α M} (tmp' : Bool)
    (hstep : tciStep S this tb.words ⟨wordPos ops pc, tmp, d⟩
      = .inl ⟨wordPos ops c.pc, tmp', c.data⟩) :
    ∃ t, ReachesPlus (tciStep S this tb.words) ⟨wordPos ops pc, tmp, d⟩ t ∧ BytecodeAt ops c t :=
  ⟨_, .of_step hstep (Reaches.refl _ _), rfl, rfl⟩

/-- The bytecode does what the ops say. Only a label takes no word. -/
theorem simulates_bytecode (S : OpSem α M) (hnull : this ≠ 0#32)
    (lay : Layout regLocals ops tb ph disp) (hlab : Labelled regLocals ops ph) :
    Simulates (opStep S this ops) (tciStep S this tb.words) (BytecodeAt ops)
      (fun c => ops.length - c.pc) where
  step := by
    rintro ⟨pc, d⟩ c' ⟨tpc, tmp, td⟩ ⟨hpc, hdata⟩
    obtain rfl : tpc = wordPos ops pc := hpc
    obtain rfl : d = td := hdata.symm
    have htarget {op : Op α} {i l p : ℕ} (hop : ops[pc]? = some op) (hmem : (i, l) ∈ tciRelocs op)
        (hl : labelAt ops l = some p) :
        tciTarget (wordPos ops pc + i) (disp (wordPos ops pc + i) l) = wordPos ops (p + 1) :=
      (lay.target_label hop hmem hl).trans (wordPos_succ (hlab.setLabel hl)).symm
    have hset {a : α} {ins : List Reg} {l : ℕ} (hop : ops[pc]? = some (.brcond a ins l)) :
        tciStep S this tb.words ⟨wordPos ops pc, tmp, d⟩
          = .inl ⟨wordPos ops pc + 1, S.cond a (readAll ins d.regs),
            { d with log := d.log ++ [⟨a, readAll ins d.regs⟩] }⟩ := by
      simp [tciStep, lay.first_word hop Nat.two_pos, tciOut]
    fun_cases opStep S this ops ⟨pc, d⟩ with
    | case2 _ a o parts hop =>
      rintro ⟨⟩
      refine .inl ⟨⟨wordPos ops (pc + 1), tmp, _⟩, ?_, rfl, rfl⟩
      have hlen : tciLen (.plain a o parts) = parts + 1 := by simp [tciLen, tciOut]
      have hword : tb.words[wordPos ops pc + parts]? = some (.plain a o) := by
        rw [lay.word_at hop parts (by omega)]
        simp [tciOut]
      refine (reaches_parts lay hop tmp d).then_step ?_
      simp [tciStep, hword, wordPos_succ hop, hlen, Nat.add_assoc]
      rfl
    | case3 _ l hop =>
      rintro ⟨⟩
      have hlt : pc < ops.length := (List.getElem?_eq_some_iff.mp hop).1
      exact .inr ⟨⟨(wordPos_succ hop).symm, rfl⟩, by simp only; omega⟩
    | case4 _ l hop =>
      have hmem : (0, l) ∈ tciRelocs (.br l : Op α) := List.mem_singleton.mpr rfl
      obtain ⟨p, hl, hjump⟩ := hlab.jumpTo_eq hop hmem d
      rw [hjump]
      rintro ⟨⟩
      refine .inl (moves_word tmp ?_)
      have hpos := htarget hop hmem hl
      rw [Nat.add_zero] at hpos
      simp [tciStep, lay.first_word hop Nat.one_pos, tciOut, hpos]
    | case5 _ a ins l hop d' hc =>
      replace hc : S.cond a (readAll ins d.regs) = true := hc
      have hmem : (1, l) ∈ tciRelocs (.brcond a ins l) := List.mem_singleton.mpr rfl
      obtain ⟨p, hl, hjump⟩ := hlab.jumpTo_eq hop hmem d'
      rw [hjump]
      rintro ⟨⟩
      refine .inl ⟨⟨wordPos ops (p + 1), S.cond a (readAll ins d.regs), d'⟩,
        .of_step (hset hop) (.of_step ?_ (Reaches.refl _ _)), rfl, rfl⟩
      simp [tciStep, lay.word_at hop 1 Nat.one_lt_two, tciOut, hc, htarget hop hmem hl]
      rfl
    | case6 _ a ins l hop d' hc =>
      replace hc : ¬ S.cond a (readAll ins d.regs) = true := hc
      rintro ⟨⟩
      refine .inl ⟨⟨wordPos ops (pc + 1), S.cond a (readAll ins d.regs), d'⟩,
        .of_step (hset hop) (.of_step ?_ (Reaches.refl _ _)), rfl, rfl⟩
      simp [tciStep, lay.word_at hop 1 Nat.one_lt_two, tciOut, hc, wordPos_succ hop, tciLen]
      rfl
    | case7 _ a o _ hop | case8 _ a o hop =>
      rintro ⟨⟩
      refine .inl (moves_word tmp ?_)
      simp [tciStep, lay.first_word hop Nat.one_pos, tciOut, wordPos_succ hop]
      exact ⟨rfl, rfl⟩
    | case10 _ which hop _ hzero =>
      rintro ⟨⟩
      refine .inl (moves_word tmp ?_)
      simp only [tciStep, lay.first_word hop Nat.one_pos, tciOut, List.getElem?_cons_zero]
      rw [if_pos hzero, wordPos_succ hop]
      rfl
    | case11 _ which hop _ hzero =>
      rw [handOver]
      split
      case isTrue hthis =>
        rintro ⟨⟩
        refine .inl (moves_word tmp ?_)
        simp only [tciStep, lay.first_word hop Nat.one_pos, tciOut, List.getElem?_cons_zero,
          tciHandOver]
        rw [if_neg hzero, if_pos hthis]
        rfl
      case isFalse => rintro ⟨⟩
    | case12 _ r hop =>
      rw [handOver]
      split
      case isTrue hthis =>
        rintro ⟨⟩
        refine .inl (moves_word tmp ?_)
        simp only [tciStep, lay.first_word hop Nat.one_pos, tciOut, List.getElem?_cons_zero,
          tciHandOver]
        rw [hthis, if_neg hnull, if_pos rfl]
        rfl
      case isFalse => rintro ⟨⟩
    | _ => rintro ⟨⟩
  ends := by
    rintro ⟨pc, d⟩ ⟨tpc, tmp, td⟩ r ⟨hpc, hdata⟩ hstep
    obtain rfl : tpc = wordPos ops pc := hpc
    obtain rfl : d = td := hdata.symm
    refine Ends.of_step ?_
    revert hstep
    fun_cases opStep S this ops ⟨pc, d⟩ with
    | case1 hop =>
      rintro ⟨⟩
      simp [tciStep, lay.word_at_end hop]
    | case4 _ l hop | case5 _ _ _ l hop =>
      obtain ⟨p, hl, hjump⟩ := hlab.jumpTo_eq hop (List.mem_singleton.mpr rfl) _
      rw [hjump]
      rintro ⟨⟩
    | case9 _ arg hop =>
      rintro ⟨⟩
      simp [tciStep, lay.first_word hop Nat.one_pos, tciOut]
      exact ⟨rfl, rfl⟩
    | case11 _ which hop _ hzero =>
      simp only [tciStep, lay.first_word hop Nat.one_pos, tciOut, List.getElem?_cons_zero,
        tciHandOver, handOver]
      rw [if_neg hzero]
      split
      · rintro ⟨⟩
      · rintro ⟨⟩
        rfl
    | case12 _ r hop =>
      simp only [tciStep, lay.first_word hop Nat.one_pos, tciOut, List.getElem?_cons_zero,
        tciHandOver, handOver]
      split
      · rintro ⟨⟩
      · rintro ⟨⟩
        split
        case isTrue hzero => rw [hzero]
        case isFalse => rfl
    | _ => rintro ⟨⟩

end Bytecode

/-! Both together. -/

/-- What is compared of a function's state with that of the interpreter. -/
def WSt.data (regLocals : Bool) (st : WSt α M) : Data α M := ⟨st.regs regLocals, st.mem, st.log⟩

def called (E : WEnv) (st : WSt α M) : WSt α M :=
  enter E { st with tbPtr := E.this, doInit := true, pending := none }

def OpSem.Returns (S : OpSem α M) : Prop :=
  ∀ a args m, (∃ results m', S.helper a args m = .done results m') ∧
    ∃ results m', S.slow a args m = .done results m'

theorem OpSem.Returns.steady {S : OpSem α M} (h : S.Returns) (op : Op α) : op.Steady S := by
  cases op with
  | call a o noSideEffects => exact fun args m => (h a args m).1
  | qemuLdst a o => exact fun args m => (h a args m).2
  | _ => exact trivial

/-- All registers may be live if no call unwinds, or if they are globals anyway. -/
theorem liveness_all {S : OpSem α M} {regLocals : Bool} (h : regLocals = true → S.Returns)
    (ops : List (Op α)) : Liveness S regLocals ops fun _ _ => True where
  ins := fun _ _ => trivial
  next := fun _ _ => .inl trivial
  jump := fun _ _ _ _ => trivial
  restart := fun _ => trivial
  inPlace := by
    intro pc op _ hopens
    cases regLocals with
    | true => exact (h rfl).steady op
    | false =>
      cases op with
      | call a o noSideEffects => cases hopens
      | qemuLdst a o => cases hopens
      | _ => exact trivial
  spilled := fun {_ op} _ hE => .inl ((h hE).steady op)

theorem agrees_called (E : WEnv) (ops : List (Op α)) (live : ℕ → Reg → Prop) (st : WSt α M) :
    Agrees E ops live 0 ((called E st).data E.regLocals) (called E st) ∧
      (called E st).bp E.regLocals = 0 := by
  have henter : (called E st).bp E.regLocals = 0 ∧ (called E st).pending = none ∧
      (called E st).tbPtr = E.this ∧ (called E st).doInit = false ∧
      (E.regLocals = true → (called E st).locals = freshLocals E) := by
    cases hE : E.regLocals <;> simp [called, enter, hE, WSt.bp]
  obtain ⟨hbp, hpending, htb, hinit, hlocals⟩ := henter
  refine ⟨⟨fun _ _ => rfl, rfl, rfl, hpending, htb, hinit, by omega, fun hE => ?_⟩, hbp⟩
  rw [hlocals hE]
  exact ⟨rfl, rfl⟩

theorem Layout.labelled {P : Prog α} {regLocals : Bool} {tb : TbCode α}
    {ph : ℕ → List (BitVec 8)} {disp : ℕ → ℕ → BitVec 20}
    (lay : Layout regLocals P.ops tb ph disp) : Labelled regLocals P.ops ph :=
  ⟨P.exists_labelAt, fun h => (Prog.labelAt_spec h).1, lay.blockOf_label⟩

/-- The wasm function of a block and its bytecode execute the same ops: they run in
lockstep, and whenever the op list has come to an op, with what its branches say, so
have both of them. -/
theorem function_executes_bytecode_ops (S : OpSem α M) (E : WEnv) (P : Prog α) (tb : TbCode α)
    (hgen : tcgGenCode E.regLocals P.ops = some tb) (hret : E.regLocals = true → S.Returns)
    (st : WSt α M) (tmp : Bool) :
    Lockstep (tciStep S E.this tb.words) (wasmStep S E tb.body) TciCfg.data
        (fun w => w.st.data E.regLocals)
        ⟨0, tmp, (called E st).data E.regLocals⟩ ⟨tb.body, [], called E st⟩ ∧
      ∃ ph, ∀ c, Reaches (opStep S E.this P.ops) ⟨0, (called E st).data E.regLocals⟩ c →
        (∃ t, Reaches (tciStep S E.this tb.words) ⟨0, tmp, (called E st).data E.regLocals⟩ t ∧
          t.pc = wordPos P.ops c.pc ∧ t.data = c.data) ∧
        ∃ w, Reaches (wasmStep S E tb.body) ⟨tb.body, [], called E st⟩ w ∧
          w.code = opCode E ph P.ops c.pc ∧ w.st.data E.regLocals = c.data := by
  obtain ⟨ph, disp, lay⟩ := P.layout hgen
  have hbody : tb.body = loopCode E ph P.ops := lay.body_eq
  have hlive := liveness_all hret P.ops
  obtain ⟨hagree, hbp⟩ := agrees_called E P.ops (fun _ _ => True) st
  have simT := simulates_bytecode S E.this_ne_zero lay lay.labelled
  have simW := simulates_function hlive lay.labelled
  have hstart : Reaches (wasmStep S E (loopCode E ph P.ops))
      ⟨loopCode E ph P.ops, [], called E st⟩ (atOp E ph P.ops 0 (called E st)) :=
    reaches_start hbp
  have hrelT : BytecodeAt P.ops ⟨0, (called E st).data E.regLocals⟩
      (⟨0, tmp, (called E st).data E.regLocals⟩ : TciCfg α M) := ⟨rfl, rfl⟩
  have hrelW : FunctionAt E ph P.ops (fun _ _ => True) ⟨0, (called E st).data E.regLocals⟩
      (atOp E ph P.ops 0 (called E st)) := ⟨_, rfl, hagree⟩
  have hseeW : ∀ {c : OpCfg α M} {w : WCfg α M}, FunctionAt E ph P.ops (fun _ _ => True) c w →
      w.st.data E.regLocals = c.data := by
    rintro c w ⟨st', rfl, h⟩
    have hregs : st'.regs E.regLocals = c.data.regs := funext fun r => h.regs r trivial
    change (⟨st'.regs E.regLocals, st'.mem, st'.log⟩ : Data α M) = c.data
    rw [hregs, h.mem, h.log]
  rw [hbody]
  refine ⟨(simT.lockstep simW (fun h => h.2) hseeW hrelT hrelW).of_reaches hstart, ph, ?_⟩
  rintro c ⟨n, hn⟩
  obtain ⟨t, ht, hpc, hdata⟩ := simT.run_inl hrelT hn
  obtain ⟨w, hw, st', rfl, h⟩ := simW.run_inl hrelW hn
  exact ⟨⟨t, ht, hpc, hdata⟩, _, hstart.trans hw, rfl, hseeW ⟨st', rfl, h⟩⟩

/-- A loop with a way out: `0: op; if cond goto 1; goto 0; 1: exit`. -/
def loopProg : Prog Bool where
  ops := [.setLabel 0, .plain true ⟨[0], [0]⟩ 0, .brcond false [0] 1, .br 0, .setLabel 1,
    .exitTb 0#32]
  labels_nodup := by decide
  targets_set := by decide

def countSem : OpSem Bool Unit where
  plain := fun _ args m => (args.map (· + 1#64), m)
  cond := fun _ args => decide (args = [3#64])
  helper := fun _ args m => .done args m
  direct := fun _ _ _ => none
  slow := fun _ args m => .done args m
  jmpTarget := fun _ _ => 0#32

def countEnv : WEnv := ⟨true, 4#32, by decide, 0#64, 0#64⟩

def countState : WSt Bool Unit :=
  ⟨fun _ => 0#64, fun _ => 0#64, 0, 0, false, false, 0#32, 0#32, true, false, false, (), [], none⟩

theorem loopProg_lockstep :
    ∃ tb, tcgGenCode countEnv.regLocals loopProg.ops = some tb ∧
      Lockstep (tciStep countSem countEnv.this tb.words) (wasmStep countSem countEnv tb.body)
        TciCfg.data (fun w => w.st.data countEnv.regLocals)
        ⟨0, false, (called countEnv countState).data countEnv.regLocals⟩
        ⟨tb.body, [], called countEnv countState⟩ := by
  have hret : countSem.Returns := fun _ args m => ⟨⟨args, m, rfl⟩, args, m, rfl⟩
  exact ⟨_, rfl, (function_executes_bytecode_ops countSem countEnv loopProg _ rfl
    (fun _ => hret) countState false).1⟩

end Bootbox.Tcg.Blocks
