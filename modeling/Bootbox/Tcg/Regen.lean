import Bootbox.Tcg.GenFrame

/-!
Lazy modules: `bb_tb_regen_wasm` translates a live block a second time, into a scratch
buffer of the thread, to get the module that was not kept with it.

The translator is given by what it reads of the guest: for every instruction its length,
whether it reaches into a second page and whether it ends the block, and the ops that come
out. It may be left with `siglongjmp` at every instruction, and the generation at every
word, and what is left behind then is the scratch buffer and the pointers into it.

One read of code is made past the translator's own: `advance_pc` reads the page on which an
instruction becomes too long, so that a page fault wins over the exception for the length.
That fault is raised with `siglongjmp` to `cpu->jmp_env`, and nothing is put back then.
`regen_restores_iff` says that this is the only way to leave that does not restore.
-/

namespace Bootbox.Tcg.GenCode

open Lib ByteMemory Escape Function

variable {first last tb : ℕ}

/-- What the code page behind the first one turns out to be: device memory, or a page whose
lock may have to be taken again in the other order. -/
inductive SecondPage
  | mmio
  | page (addr : ℕ) (relock : Bool)

structure GuestInsn where
  len : ℕ
  crosses : Option SecondPage
  /-- The instruction ends the block, or the buffer for ops is full. -/
  stop : Bool
  /-- More temporaries than there are. -/
  overflow : Bool

/-- The guest's code from the block's start on, and the ops of its first instructions;
the instruction that reaches the limit is translated with I/O allowed. -/
structure Guest where
  insn : ℕ → GuestInsn
  /-- The first instruction is longer than 15 bytes, the part read last reaches into the next
  page, and that page cannot be read. Later instructions are given up before that. -/
  overlongFaults : Bool
  ops : (numInsns maxInsns : ℕ) → Ops

def updateTb (tb : ℕ) (f : Tb → Tb) : Gen Unit :=
  modify fun s => { s with tbs := update s.tbs tb (f (s.tbs tb)) }

/-- `translator_access` for code on a second page. -/
def secondPage (tb : ℕ) : SecondPage → Gen Unit
  | .mmio => updateTb tb fun t => { t with pageAddr0 := none }
  | .page addr relock => do
      let s ← get
      if (s.tbs tb).pageAddr1 = some addr then pure ()
      else
        updateTb tb fun t => { t with pageAddr1 := some addr }
        if relock then throw .pageLock else pure ()

/-- `translator_access`: a re-translation does not look at a second page. -/
def translatorAccess (tb : ℕ) : Option SecondPage → Gen Unit
  | none => pure ()
  | some p => do
      let s ← get
      if s.regenBuf.isSome then throw .twoPages else secondPage tb p

def translateInsn (tb : ℕ) (i : GuestInsn) : Gen Unit := do
  translatorAccess tb i.crosses
  if i.overflow then throw .tbOverflow else pure ()

/-- The loop of `translator_loop`, with `left` instructions allowed after this one: how many
were translated, and their length. -/
def translatorLoop (tb : ℕ) (insn : ℕ → GuestInsn) : ℕ → ℕ → ℕ → Gen (ℕ × ℕ)
  | 0, num, size => do
      translateInsn tb (insn num)
      pure (num + 1, size + (insn num).len)
  | left + 1, num, size => do
      translateInsn tb (insn num)
      if (insn num).stop then pure (num + 1, size + (insn num).len)
      else translatorLoop tb insn left (num + 1) (size + (insn num).len)

def genIntermediateCode (G : Guest) (tb maxInsns : ℕ) : Gen Ops := do
  let (num, size) ← translatorLoop tb G.insn (maxInsns - 1) 0 0
  updateTb tb fun t => { t with size := size % 2 ^ 16, icount := num % 2 ^ 16 }
  pure (G.ops num maxInsns)

def setjmpGenCode (T : Target) (G : Guest) (tb maxInsns : ℕ) : Gen ℕ := do
  tcgFuncStart
  let b ← genIntermediateCode G tb maxInsns
  tcgGenCode T tb b

/-! ### Regeneration -/

/-- `BB_REGEN_SCRATCH`. -/
def regenScratchSize : ℕ := 512 * 1024

/-- Why there is no module; the index counts it in `bb_regen_stats`. -/
inductive Why
  | notTranslatable
  | cpuState
  | probe
  | translation
  | mismatch
  deriving DecidableEq

def Why.stat : Why → ℕ
  | .notTranslatable => 5
  | .cpuState => 6
  | .probe => 7
  | .translation => 8
  | .mismatch => 9

/-- How a re-translation ends: with the live code, without it, or not at all. -/
inductive Tried
  | same
  | failed (why : Why)
  | left

def State.enterRegen (s : State) (scratch tb tcPtr buf : ℕ) : State :=
  { s with
    genTb := some tb
    codeGenHighwater := scratch + (regenScratchSize - 4096)
    regenBuf := some buf
    codeBias := BitVec.ofNat 32 tcPtr - BitVec.ofNat 32 buf }

/-- What is put back after it, with the values saved from `s`. -/
def State.leaveRegen (s s' : State) (tb : ℕ) : State :=
  { s' with
    regenBuf := none
    codeBias := 0#32
    codeGenHighwater := s.codeGenHighwater
    genTb := none
    tbs := update s'.tbs tb
      { s'.tbs tb with size := (s.tbs tb).size, icount := (s.tbs tb).icount } }

/-- The offset of the code behind the header at `a`, and its length. -/
def codeOff (m : Bytes) (a : ℕ) : ℕ := (word32 m a).toNat

def codeLen (m : Bytes) (a : ℕ) : ℕ := (word32 m (a + codeOff m a - 4)).toNat

/-- The comparison of two copies of a block's interpreter code. -/
def SameCode (m : Bytes) (a b : ℕ) : Prop :=
  codeOff m a = codeOff m b ∧ codeLen m a = codeLen m b ∧
    load m (a + codeOff m a) (codeLen m a) = load m (b + codeOff m b) (codeLen m b)

instance (m : Bytes) (a b : ℕ) : Decidable (SameCode m a b) := inferInstanceAs (Decidable (_ ∧ _))

/-- `bb_regen_once`. The fault comes before anything is generated, and for it
`cpu_exec_longjmp_cleanup` clears `gen_tb` and nothing else. -/
def regenOnce (T : Target) (G : Guest) (scratch tb tcPtr buf maxInsns : ℕ) (s : State) :
    Tried × State :=
  let s₁ := s.enterRegen scratch tb tcPtr buf
  if G.overlongFaults then (.left, { s₁.funcStart with genTb := none })
  else
    match (setjmpGenCode T G tb maxInsns).run s₁ with
    | .error _ s' => (.failed .translation, s.leaveRegen s' tb)
    | .ok _ s' =>
      if SameCode (s.leaveRegen s' tb).mem buf tcPtr then (.same, s.leaveRegen s' tb)
      else (.failed .mismatch, s.leaveRegen s' tb)

/-- A vCPU thread's part: the TCG context, the scratch buffer and the counters. -/
structure Thread where
  ctx : State
  regenScratch : Option ℕ
  regenStats : ℕ → ℕ

/-- What `bb_tb_regen_wasm` finds outside: the block at an address, the CPU state, the RAM
behind the program counter, fresh memory, the hint for the block's length, and the guest's
code at each of the two translations. -/
structure Surroundings where
  lookup : Option ℕ
  flushCount : ℕ
  codeSizeKb : ℕ
  pc : BitVec 64
  csBase : BitVec 64
  flags : BitVec 32
  probe : Option ℕ
  alloc : Option ℕ
  splitHint : ℕ → ℤ
  guest₁ : Guest
  guest₂ : Guest

def cfCountMask : BitVec 32 := 0x1ff#32
def cfInvalid : BitVec 32 := 0x4000#32
def cfPcrel : BitVec 32 := 0x20000#32
def tcgMaxInsns : ℕ := 512

/-- The instruction limit of the first try: that of `tb_gen_code`. -/
def maxInsns (E : Surroundings) (t : Tb) : ℕ :=
  if t.cflags &&& cfCountMask ≠ 0 then (t.cflags &&& cfCountMask).toNat
  else
    match t.pageAddr0 with
    | none => tcgMaxInsns
    | some a =>
      if 0 < E.splitHint a ∧ E.splitHint a < tcgMaxInsns then (E.splitHint a).toNat
      else tcgMaxInsns

def regenRefused (E : Surroundings) (tcPtr : ℕ) (t : Tb) : Option Why :=
  if t.tcPtr ≠ tcPtr ∨ t.cflags &&& cfInvalid ≠ 0 ∨ t.pageAddr0 = none ∨ t.pageAddr1 ≠ none ∨
      t.icount = 0 then some .notTranslatable
  else if E.csBase ≠ t.csBase ∨ E.flags ≠ t.flags ∨ (t.cflags &&& cfPcrel = 0 ∧ E.pc ≠ t.pc) then
    some .cpuState
  else if E.probe ≠ t.pageAddr0 then some .probe
  else none

def regenTries (T : Target) (E : Surroundings) (scratch tb tcPtr buf : ℕ) (s : State) :
    Tried × State :=
  let max := maxInsns E (s.tbs tb)
  match regenOnce T E.guest₁ scratch tb tcPtr buf max s with
  | (.failed why, s₁) =>
    if max = (s₁.tbs tb).icount then (.failed why, s₁)
    else regenOnce T E.guest₂ scratch tb tcPtr buf (s₁.tbs tb).icount s₁
  | r => r

def Thread.count (th : Thread) (i : ℕ) : Thread :=
  { th with regenStats := update th.regenStats i (th.regenStats i + 1) }

/-- What `bb_tb_regen_wasm` returns, if it does. -/
inductive Regen
  | module (buf : ℕ)
  | null
  | left
  deriving DecidableEq

def Thread.fail (th : Thread) (why : Why) : Regen × Thread := (.null, th.count why.stat)

/-- The re-translation into the scratch buffer, at the live code's offset in its page. -/
def regenInto (T : Target) (E : Surroundings) (scratch tb tcPtr : ℕ) (th : Thread) :
    Regen × Thread :=
  match regenTries T E scratch tb tcPtr (scratch + tcPtr % 4096) th.ctx with
  | (.same, s) => (.module (scratch + tcPtr % 4096), { th with ctx := s }.count 4)
  | (.failed why, s) => { th with ctx := s }.fail why
  | (.left, s) => (.left, { th with ctx := s })

/-- `bb_tb_regen_wasm`. -/
def tbRegenWasm (T : Target) (E : Surroundings) (tcPtr : ℕ) (th : Thread) : Regen × Thread :=
  let stats := update (update th.regenStats 10 E.flushCount) 11 E.codeSizeKb
  let th := { th with regenStats := stats }
  match E.lookup with
  | none => th.fail .notTranslatable
  | some tb =>
    match regenRefused E tcPtr (th.ctx.tbs tb) with
    | some why => th.fail why
    | none =>
      match th.regenScratch.or E.alloc with
      | none => th.fail .notTranslatable
      | some scratch => regenInto T E scratch tb tcPtr { th with regenScratch := some scratch }

/-! ### What is left behind -/

structure Idle (s : State) : Prop where
  genTb : s.genTb = none
  regenBuf : s.regenBuf = none
  codeBias : s.codeBias = 0#32

/-- A re-translation is over: memory outside of a range and the context are what they were,
apart from the buffer pointers, which the next block sets before it reads them. -/
structure Restored (s : State) (first last : ℕ) (s' : State) : Prop where
  mem : ∀ i, i < first ∨ last ≤ i → s'.mem i = s.mem i
  tbs : s'.tbs = s.tbs
  codeGenPtr : s'.codeGenPtr = s.codeGenPtr
  highwater : s'.codeGenHighwater = s.codeGenHighwater
  genTb : s'.genTb = s.genTb
  regenBuf : s'.regenBuf = s.regenBuf
  codeBias : s'.codeBias = s.codeBias
  pointers : ∀ T tb, (startCode T tb).run s' =
    (startCode T tb).run { s' with codeBuf := s.codeBuf, codePtr := s.codePtr }

theorem startCode_pointers (T : Target) (tb : ℕ) (s : State) (a p : ℕ) :
    (startCode T tb).run s = (startCode T tb).run { s with codeBuf := a, codePtr := p } := by
  obtain ⟨_, _, _, _, _, _, _, _, _, _, _, _, regenBuf, _⟩ := s
  cases regenBuf with
  | none => rfl
  | some buf => rfl

theorem Restored.trans {s₀ s₁ s₂ : State} (h₁ : Restored s₀ first last s₁)
    (h₂ : Restored s₁ first last s₂) : Restored s₀ first last s₂ where
  mem i hi := (h₂.mem i hi).trans (h₁.mem i hi)
  tbs := h₂.tbs.trans h₁.tbs
  codeGenPtr := h₂.codeGenPtr.trans h₁.codeGenPtr
  highwater := h₂.highwater.trans h₁.highwater
  genTb := h₂.genTb.trans h₁.genTb
  regenBuf := h₂.regenBuf.trans h₁.regenBuf
  codeBias := h₂.codeBias.trans h₁.codeBias
  pointers T tb := startCode_pointers T tb s₂ _ _

variable {s : State}

theorem Restored.idle {s' : State} (h : Restored s first last s') (hs : Idle s) : Idle s' :=
  ⟨h.genTb.trans hs.genTb, h.regenBuf.trans hs.regenBuf, h.codeBias.trans hs.codeBias⟩

theorem holds_translateInsn (hs : s.regenBuf.isSome) (i : GuestInsn) :
    Holds (fun s' => s' = s) (translateInsn tb i) (fun _ s' => s' = s) fun _ s' => s' = s := by
  have haccess : Holds (fun s' => s' = s) (translatorAccess tb i.crosses) (fun _ s' => s' = s)
      fun _ s' => s' = s := by
    cases i.crosses with
    | none => exact holds_pure fun _ h => h
    | some p =>
      refine holds_get_bind fun s₁ hs₁ => holds_ite (fun _ => ?_) fun hnone => ?_
      · exact holds_throw fun _ h => h.trans hs₁
      · exact absurd (hs₁ ▸ hs) hnone
  exact haccess.bind fun _ => holds_ite (fun _ => holds_throw fun _ h => h)
    fun _ => holds_pure fun _ h => h

theorem holds_translatorLoop (tb : ℕ) (hs : s.regenBuf.isSome) (insn : ℕ → GuestInsn)
    (left num size : ℕ) :
    Holds (fun s' => s' = s) (translatorLoop tb insn left num size) (fun _ s' => s' = s)
      fun _ s' => s' = s := by
  induction left generalizing num size with
  | zero => exact (holds_translateInsn hs _).bind fun _ => holds_pure fun _ h => h
  | succ left ih =>
    refine (holds_translateInsn hs _).bind fun _ => holds_ite (fun _ => ?_) fun _ => ?_
    · exact holds_pure fun _ h => h
    · exact ih _ _

/-- In a re-translation only the size and the instruction count of the block change, and
the buffer. -/
structure Regenerated (s : State) (tb first last : ℕ) (s' : State) : Prop where
  mem : ∀ i, i < first ∨ last ≤ i → s'.mem i = s.mem i
  tbs : ∃ size icount,
    s'.tbs = update s.tbs tb { s.tbs tb with size := size, icount := icount }
  codeGenPtr : s'.codeGenPtr = s.codeGenPtr

/-- The state in which the generation starts, once the block's length is known. -/
def State.translated (s : State) (tb size icount : ℕ) : State :=
  { s with
    relocs := []
    labelValue := fun _ => 0
    tbs := update s.tbs tb { s.tbs tb with size := size, icount := icount } }

theorem holds_setjmpGenCode {T : Target} {G : Guest} {max buf : ℕ} (hs : s.regenBuf = some buf)
    (hroom : buf + T.headerSize ≤ s.codeGenHighwater) (hlast : s.codeGenHighwater + 4096 ≤ last) :
    Holds (fun s' => s' = s) (setjmpGenCode T G tb max) (fun _ => Regenerated s tb buf last)
      fun _ => Regenerated s tb buf last := by
  have hstart : Holds (fun s' => s' = s) tcgFuncStart
      (fun _ s' => s' = s.funcStart)
      fun _ => Regenerated s tb buf last :=
    holds_modify fun _ h => h ▸ rfl
  have hsome : s.regenBuf.isSome := by rw [hs]; rfl
  have hgen : Holds (fun s' => s' = s.funcStart)
      (genIntermediateCode G tb max) (fun _ s' => ∃ size icount, s' = s.translated tb size icount)
      fun _ => Regenerated s tb buf last := by
    have hloop := holds_translatorLoop (s := s.funcStart) tb hsome G.insn (max - 1) 0 0
    refine (hloop.mono (fun _ h => h) (fun _ _ h => h) ?_).bind fun r => ?_
    · rintro _ _ rfl
      exact ⟨fun _ _ => rfl, ⟨_, _, (update_eq_self tb s.tbs).symm⟩, rfl⟩
    · refine Holds.bind (holds_modify ?_) fun _ => holds_pure fun _ h => h
      rintro _ rfl
      exact ⟨_, _, rfl⟩
  refine hstart.bind fun _ => hgen.bind fun b => holds_of_forall ?_
  rintro _ ⟨size, icount, rfl⟩
  have hbuf : (s.translated tb size icount).regenBuf.getD
      ((s.translated tb size icount).tbs tb).tcPtr = buf := by
    simp [State.translated, hs]
  refine (keeps_tcgGenCode b hbuf rfl hroom hlast).mono (fun _ h => h)
    (fun _ s' h => ?_) fun _ s' h => ?_
  · exact ⟨h.mem, ⟨size, icount, h.tbs hsome⟩, h.codeGenPtr⟩
  · exact ⟨h.mem, ⟨size, icount, h.tbs hsome⟩, h.codeGenPtr⟩

theorem Regenerated.restored {s' : State} {scratch tcPtr buf : ℕ} (hs : Idle s)
    (h : Regenerated (s.enterRegen scratch tb tcPtr buf) tb first last s') :
    Restored s first last (s.leaveRegen s' tb) := by
  obtain ⟨hmem, ⟨size, icount, htbs⟩, hptr⟩ := h
  have hback : (s.leaveRegen s' tb).tbs = s.tbs := by
    simp only [State.leaveRegen, htbs, State.enterRegen, update_idem, update_self]
    exact update_eq_self tb s.tbs
  dsimp only [State.enterRegen] at hmem hptr
  exact ⟨hmem, hback, hptr, rfl, hs.genTb.symm, hs.regenBuf.symm, hs.codeBias.symm,
    fun T tb' => startCode_pointers T tb' _ _ _⟩

/-- One try that does not fault restores the context, and succeeds only with the live code. -/
theorem regenOnce_spec (T : Target) {G : Guest} (scratch tb tcPtr max : ℕ) (hs : Idle s)
    (hG : G.overlongFaults = false) :
    Restored s scratch (scratch + regenScratchSize)
      (regenOnce T G scratch tb tcPtr (scratch + tcPtr % 4096) max s).2 ∧
    ((regenOnce T G scratch tb tcPtr (scratch + tcPtr % 4096) max s).1 = .same →
      SameCode (regenOnce T G scratch tb tcPtr (scratch + tcPtr % 4096) max s).2.mem
        (scratch + tcPtr % 4096) tcPtr) := by
  have hcores := T.cores_le
  have hpage := Nat.mod_lt tcPtr (show 0 < 4096 by decide)
  have hbuf : scratch ≤ scratch + tcPtr % 4096 := Nat.le_add_right _ _
  have hgen : Holds (fun s' => s' = s.enterRegen scratch tb tcPtr (scratch + tcPtr % 4096))
      (setjmpGenCode T G tb max) (fun _ => Regenerated _ tb _ (scratch + regenScratchSize))
      fun _ => Regenerated _ tb _ (scratch + regenScratchSize) :=
    holds_setjmpGenCode rfl
      (by simp only [State.enterRegen, Target.headerSize, regenScratchSize]; omega)
      (by simp only [State.enterRegen, regenScratchSize]; omega)
  have hrestored : ∀ s', Regenerated (s.enterRegen scratch tb tcPtr (scratch + tcPtr % 4096)) tb
      (scratch + tcPtr % 4096) (scratch + regenScratchSize) s' →
      Restored s scratch (scratch + regenScratchSize) (s.leaveRegen s' tb) := by
    intro s' h
    have hwide := h.restored hs
    exact { hwide with mem := fun i hi => hwide.mem i (by omega) }
  unfold regenOnce
  rw [hG, if_neg Bool.false_ne_true]
  cases hr : (setjmpGenCode T G tb max).run
      (s.enterRegen scratch tb tcPtr (scratch + tcPtr % 4096)) with
  | error e s' => exact ⟨hrestored s' (hgen.of_error rfl hr), nofun⟩
  | ok n s' =>
    have hs' := hrestored s' (hgen.of_ok rfl hr)
    dsimp only
    split
    case isTrue hsame => exact ⟨hs', fun _ => hsame⟩
    case isFalse => exact ⟨hs', nofun⟩

/-- A try that faults leaves the buffer set. -/
theorem regenOnce_left (T : Target) {G : Guest} (scratch tb tcPtr buf max : ℕ) (s : State)
    (hG : G.overlongFaults = true) :
    ∃ s', regenOnce T G scratch tb tcPtr buf max s = (.left, s') ∧ s'.regenBuf = some buf := by
  rw [regenOnce, hG]
  exact ⟨_, rfl, rfl⟩

/-- One of the translations that are made faults: the first, or the second if the first fails
and the limits differ. -/
def TriesFault (T : Target) (E : Surroundings) (scratch tb tcPtr : ℕ) (s : State) : Prop :=
  E.guest₁.overlongFaults = true ∨
    (∃ why s₁, regenOnce T E.guest₁ scratch tb tcPtr (scratch + tcPtr % 4096)
      (maxInsns E (s.tbs tb)) s = (.failed why, s₁)) ∧
    maxInsns E (s.tbs tb) ≠ (s.tbs tb).icount ∧ E.guest₂.overlongFaults = true

theorem regenTries_spec (T : Target) (E : Surroundings) (scratch tb tcPtr : ℕ) (hs : Idle s) :
    (TriesFault T E scratch tb tcPtr s → ∃ s',
      regenTries T E scratch tb tcPtr (scratch + tcPtr % 4096) s = (.left, s') ∧
        s'.regenBuf = some (scratch + tcPtr % 4096)) ∧
    (¬ TriesFault T E scratch tb tcPtr s →
      Restored s scratch (scratch + regenScratchSize)
        (regenTries T E scratch tb tcPtr (scratch + tcPtr % 4096) s).2 ∧
      ((regenTries T E scratch tb tcPtr (scratch + tcPtr % 4096) s).1 = .same →
        SameCode (regenTries T E scratch tb tcPtr (scratch + tcPtr % 4096) s).2.mem
          (scratch + tcPtr % 4096) tcPtr)) := by
  rw [TriesFault, regenTries]
  cases hG : E.guest₁.overlongFaults with
  | true =>
    obtain ⟨s', heq, hbuf⟩ :=
      regenOnce_left T scratch tb tcPtr (scratch + tcPtr % 4096) (maxInsns E (s.tbs tb)) s hG
    rw [heq]
    exact ⟨fun _ => ⟨s', rfl, hbuf⟩, fun h => absurd (.inl rfl) h⟩
  | false =>
    have hfirst := regenOnce_spec T scratch tb tcPtr (maxInsns E (s.tbs tb)) hs hG
    generalize regenOnce T E.guest₁ scratch tb tcPtr (scratch + tcPtr % 4096)
      (maxInsns E (s.tbs tb)) s = r at hfirst
    obtain ⟨_ | why | _, s₁⟩ := r
    · simpa using hfirst
    · dsimp only at hfirst ⊢
      rw [hfirst.1.tbs]
      by_cases hmax : maxInsns E (s.tbs tb) = (s.tbs tb).icount
      · simpa [hmax] using hfirst.1
      · rw [if_neg hmax]
        cases hG' : E.guest₂.overlongFaults with
        | true =>
          refine ⟨fun _ => regenOnce_left T scratch tb tcPtr _ _ s₁ hG', fun h => ?_⟩
          exact absurd (.inr ⟨⟨why, s₁, rfl⟩, hmax, rfl⟩) h
        | false =>
          obtain ⟨hrest, hsame⟩ :=
            regenOnce_spec T scratch tb tcPtr (s.tbs tb).icount (hfirst.1.idle hs) hG'
          exact ⟨by simp, fun _ => ⟨hfirst.1.trans hrest, hsame⟩⟩
    · simpa using hfirst

def Thread.Outside (th : Thread) (i : ℕ) : Prop :=
  ∀ scratch, th.regenScratch = some scratch → i < scratch ∨ scratch + regenScratchSize ≤ i

/-- What a thread's regenerations leave: only its scratch buffer was written. -/
structure Intact (th th' : Thread) : Prop where
  mem : ∀ i, th'.Outside i → th'.ctx.mem i = th.ctx.mem i
  tbs : th'.ctx.tbs = th.ctx.tbs
  codeGenPtr : th'.ctx.codeGenPtr = th.ctx.codeGenPtr
  highwater : th'.ctx.codeGenHighwater = th.ctx.codeGenHighwater
  genTb : th'.ctx.genTb = th.ctx.genTb
  regenBuf : th'.ctx.regenBuf = th.ctx.regenBuf
  codeBias : th'.ctx.codeBias = th.ctx.codeBias
  pointers : ∀ T tb, (startCode T tb).run th'.ctx =
    (startCode T tb).run { th'.ctx with codeBuf := th.ctx.codeBuf, codePtr := th.ctx.codePtr }
  regenScratch : ∀ scratch, th.regenScratch = some scratch → th'.regenScratch = some scratch

variable {th th' : Thread}

theorem Intact.of_ctx_eq (h : th'.ctx = th.ctx)
    (hs : ∀ scratch, th.regenScratch = some scratch → th'.regenScratch = some scratch) :
    Intact th th' :=
  ⟨fun _ _ => by rw [h], by rw [h], by rw [h], by rw [h], by rw [h], by rw [h], by rw [h],
    fun T tb => startCode_pointers T tb _ _ _, hs⟩

theorem Intact.of_restored {scratch : ℕ}
    (h : Restored th.ctx scratch (scratch + regenScratchSize) th'.ctx)
    (hs : th'.regenScratch = some scratch) (hkeep : ∀ a, th.regenScratch = some a → a = scratch) :
    Intact th th' :=
  { h with
    mem := fun i hi => h.mem i (hi scratch hs)
    regenScratch := fun a ha => hkeep a ha ▸ hs }

theorem Intact.idle (h : Intact th th') (hs : Idle th.ctx) : Idle th'.ctx :=
  ⟨h.genTb.trans hs.genTb, h.regenBuf.trans hs.regenBuf, h.codeBias.trans hs.codeBias⟩

/-- A regeneration that leaves everything but the scratch buffer as it was, and returns a
module only with code equal to the live code. -/
def RegenOk (T : Target) (E : Surroundings) (tcPtr : ℕ) (th : Thread) : Prop :=
  Intact th (tbRegenWasm T E tcPtr th).2 ∧
    ∀ buf, (tbRegenWasm T E tcPtr th).1 = .module buf →
      SameCode (tbRegenWasm T E tcPtr th).2.ctx.mem buf tcPtr

/-- A regeneration that gets as far as translating, and faults. -/
def RegenFaults (T : Target) (E : Surroundings) (tcPtr : ℕ) (th : Thread) : Prop :=
  ∃ tb scratch, E.lookup = some tb ∧ regenRefused E tcPtr (th.ctx.tbs tb) = none ∧
    th.regenScratch.or E.alloc = some scratch ∧ TriesFault T E scratch tb tcPtr th.ctx

theorem regenOk_iff (T : Target) (E : Surroundings) (tcPtr : ℕ) (hidle : Idle th.ctx) :
    RegenOk T E tcPtr th ↔ ¬ RegenFaults T E tcPtr th := by
  rw [RegenOk, RegenFaults, tbRegenWasm]
  dsimp only
  -- what is refused before a translation changes nothing
  have hrefused (why : Why) (stats : ℕ → ℕ) :
      Intact th ({ th with regenStats := stats }.fail why).2 ∧
        ∀ buf, ({ th with regenStats := stats }.fail why).1 = .module buf →
          SameCode ({ th with regenStats := stats }.fail why).2.ctx.mem buf tcPtr :=
    ⟨.of_ctx_eq rfl fun _ h => h, nofun⟩
  cases E.lookup with
  | none => simpa using hrefused ..
  | some tb =>
    dsimp only
    cases hrefuse : regenRefused E tcPtr (th.ctx.tbs tb) with
    | some why => simpa [hrefuse] using hrefused ..
    | none =>
      dsimp only
      cases hscratch : th.regenScratch.or E.alloc with
      | none => simpa using hrefused ..
      | some scratch =>
        have hkeep : ∀ a, th.regenScratch = some a → a = scratch := by
          intro a ha
          rw [ha] at hscratch
          exact Option.some.inj hscratch
        obtain ⟨hfaults, hspec⟩ := regenTries_spec T E scratch tb tcPtr hidle
        have hiff : (∃ tb' scratch', some tb = some tb' ∧
            regenRefused E tcPtr (th.ctx.tbs tb') = none ∧ some scratch = some scratch' ∧
            TriesFault T E scratch' tb' tcPtr th.ctx) ↔ TriesFault T E scratch tb tcPtr th.ctx := by
          simp [hrefuse]
        rw [hiff]
        unfold regenInto
        dsimp only
        constructor
        · rintro ⟨hintact, -⟩ hfault
          obtain ⟨s', heq, hbuf⟩ := hfaults hfault
          rw [heq] at hintact
          have := hbuf.symm.trans (hintact.regenBuf.trans hidle.regenBuf)
          cases this
        · intro hno
          obtain ⟨hrest, hsame⟩ := hspec hno
          generalize regenTries T E scratch tb tcPtr (scratch + tcPtr % 4096) th.ctx = r
            at hrest hsame
          obtain ⟨_ | why | _, s⟩ := r
          · refine ⟨.of_restored hrest rfl hkeep, fun buf hbuf => ?_⟩
            cases hbuf
            exact hsame rfl
          · exact ⟨.of_restored hrest rfl hkeep, nofun⟩
          · exact ⟨.of_restored hrest rfl hkeep, nofun⟩

/-! ### Runs -/

/-- Something is said of each of a thread's regenerations, one after the other. -/
def Along (T : Target) (P : Surroundings → ℕ → Thread → Prop) :
    List (Surroundings × ℕ) → Thread → Prop
  | [], _ => True
  | (E, tcPtr) :: rs, th => P E tcPtr th ∧ Along T P rs (tbRegenWasm T E tcPtr th).2

/-- Whatever the regenerations of a thread come to, each of them leaves the live block, the
memory outside of the scratch buffer and the context as they were, with the buffer pointers
set before the next block reads them, and returns a module only with code equal to the live
code, exactly if none of them faults. -/
theorem regen_restores_iff (T : Target) (th : Thread) (hidle : Idle th.ctx)
    (rs : List (Surroundings × ℕ)) :
    Along T (RegenOk T) rs th ↔ Along T (fun E tcPtr th => ¬ RegenFaults T E tcPtr th) rs th := by
  induction rs generalizing th with
  | nil => exact .rfl
  | cons r rs ih =>
    obtain ⟨E, tcPtr⟩ := r
    rw [Along, Along, regenOk_iff T E tcPtr hidle]
    refine and_congr_right fun hno => ih _ ?_
    exact ((regenOk_iff T E tcPtr hidle).mpr hno).1.idle hidle

/-! A block of one instruction, which is regenerated, and one whose first instruction faults. -/

/-- `exit_tb` with no result. -/
def exitOps : Ops where
  ops := [[⟨[.exitTb none], fun _ => some []⟩]]
  nbLabels := 0
  fpLocals := false
  labels_lt := by simp [Call.labels]
  short := by simp [Call.items, opMaxWords]
  leaves := by simp [Call.Leaves]

def exitGuest (overlongFaults : Bool) : Guest :=
  ⟨fun _ => ⟨1, none, true, false⟩, overlongFaults, fun _ _ => exitOps⟩

def liveTb : Tb where
  pc := 0x400000#64
  csBase := 0#64
  flags := 0#32
  cflags := 0#32
  size := 1
  icount := 1
  tcPtr := 0x10040
  pageAddr0 := some 0x5000
  pageAddr1 := none
  jmpResetOffset _ := 0xffff
  jmpInsnOffset _ := 0xffff

/-- The live code: the offset of the code, its length, and one word. -/
def liveThread : Thread where
  ctx :=
    { mem := store (store (store (fun _ => 0) 0x10040 (wordBytes smallTarget.headerSize))
        0x10054 (wordBytes 4)) 0x10058 (wordBytes (Tci.outOpP Tci.opExitTb 0#32).toNat)
      tbs := fun _ => liveTb
      codeBuf := 0x10040
      codePtr := 0x10100
      codeGenPtr := 0x10140
      codeGenHighwater := 0x20000
      dataGenPtr := none
      genTb := none
      poolLabels := []
      relocs := []
      labelValue := fun _ => 0
      tables := .init
      regenBuf := none
      codeBias := 0#32 }
  regenScratch := none
  regenStats _ := 0

def liveSurroundings (overlongFaults : Bool) : Surroundings where
  lookup := some 0x10000
  flushCount := 0
  codeSizeKb := 0
  pc := 0x400000#64
  csBase := 0#64
  flags := 0#32
  probe := some 0x5000
  alloc := some 0x200000
  splitHint _ := 0
  guest₁ := exitGuest overlongFaults
  guest₂ := exitGuest overlongFaults

theorem idle_liveThread : Idle liveThread.ctx := ⟨rfl, rfl, rfl⟩

theorem regen_restores_liveThread :
    (tbRegenWasm smallTarget (liveSurroundings false) 0x10040 liveThread).1 = .module 0x200040 ∧
      RegenOk smallTarget (liveSurroundings false) 0x10040 liveThread := by
  have hmodule : (tbRegenWasm smallTarget (liveSurroundings false) 0x10040 liveThread).1 =
      .module 0x200040 := by decide +kernel
  refine ⟨hmodule, ((regen_restores_iff smallTarget liveThread idle_liveThread
    [(liveSurroundings false, 0x10040)]).mpr ⟨?_, trivial⟩).1⟩
  rintro ⟨tb, scratch, -, -, -, h | ⟨-, -, h⟩⟩ <;> cases h

/-- After the fault the regen buffer, the bias and the high-water mark stay those of the scratch
buffer. -/
theorem fault_leaves_regen_buffer :
    Idle liveThread.ctx ∧
    (tbRegenWasm smallTarget (liveSurroundings true) 0x10040 liveThread).1 = .left ∧
    (tbRegenWasm smallTarget (liveSurroundings true) 0x10040 liveThread).2.ctx.regenBuf =
      some 0x200040 ∧
    (tbRegenWasm smallTarget (liveSurroundings true) 0x10040 liveThread).2.ctx.codeBias =
      0xffe10000#32 ∧
    (tbRegenWasm smallTarget (liveSurroundings true) 0x10040 liveThread).2.ctx.codeGenHighwater =
      0x27f000 ∧
    liveThread.ctx.codeGenHighwater = 0x20000 :=
  ⟨idle_liveThread, rfl, rfl, rfl, rfl, rfl⟩

end Bootbox.Tcg.GenCode
