import Bootbox.Dex.Instructions

/-!
A run of the DEX interpreter (`run` of `runtime/dex.js`): the activations of `exec` as a stack of
frames, and all that the run executes and prints, in order.

A report of an unsupported opcode or of the step limit is a `return` from one activation. The
caller goes on, and the outermost activation is followed by `[done]`.
-/

namespace Bootbox.Dex

open Lib Value List

/-- What `onOut` is called with. -/
inductive Output
  | dexError (e : Fault)
  | noMethod
  | running (m : Method)
  | text (s : String)
  | unsupported (op : ℕ) (offset : ℤ)
  | stepLimit
  | done
  | runtimeError
deriving DecidableEq

inductive Event
  /-- An instruction at this `pc`. -/
  | insn (pc : ℤ)
  | out (o : Output)
deriving DecidableEq

namespace Event

def isInsn : Event → Bool
  | insn _ => true
  | out _ => false

def isReport : Event → Bool
  | out (.unsupported _ _) => true
  | out .stepLimit => true
  | _ => false

end Event

structure Frame where
  code : Code
  reg : ℕ → Value
  pc : ℤ

def Frame.end (f : Frame) : ℤ := f.code.insnsOff + f.code.insnsSize * 2

/-- A new activation: the arguments are in the last registers. -/
def Frame.enter (code : Code) (args : List Value) : Frame where
  code := code
  reg r :=
    let i : ℤ := r - (code.regs - code.ins)
    match if 0 ≤ i then args[i.toNat]? else none with
    | some v => v
    | none => if r < code.regs then int 0 else undefined
  pc := code.insnsOff

structure State where
  /-- The activations, the innermost first; none once the run has ended. -/
  frames : Option (List Frame)
  retval : Value
  steps : ℕ
  events : List Event

namespace State

def emit (s : State) (e : Event) : State := { s with events := s.events ++ [e] }

def finish (s : State) (o : Output) : State :=
  { s.emit (.out o) with frames := none }

end State

section Exec

variable (dex : DexFile) (tooDeep : ℕ → Bool)

/-- What an instruction of the innermost activation `f` does to the run. -/
def perform (f : Frame) (rest : List Frame) (s : State) (effect : Effect) : State :=
  let s' := s.emit (.insn f.pc)
  match effect with
  | .next reg pc none => { s' with frames := some ({ f with reg := reg, pc := pc } :: rest) }
  | .next reg pc (some t) =>
    { s'.emit (.out (.text t)) with frames := some ({ f with reg := reg, pc := pc } :: rest) }
  | .call code args pc =>
    if tooDeep (rest.length + 1) then s'.finish .runtimeError
    else { s' with frames := some (.enter code args :: { f with pc := pc } :: rest) }
  | .leave none => { s' with frames := some rest }
  | .leave (some v) => { s' with frames := some rest, retval := v }
  | .unsupported =>
    { s.emit (.out (.unsupported (op16 dex.bytes f.pc % 2 ^ 8) (f.pc - f.code.insnsOff))) with
      frames := some rest }
  | .throws => s'.finish .runtimeError

/-- One round of the innermost loop, or the end of an activation. -/
def step (limit : ℕ) (s : State) : State :=
  match s.frames with
  | none => s
  | some [] => s.finish .done
  | some (f :: rest) =>
    if f.pc < f.end then
      let s := { s with steps := s.steps + 1 }
      if s.steps > limit then { s.emit (.out .stepLimit) with frames := some rest }
      else perform dex tooDeep f rest s (insn dex s.steps s.retval f.reg f.pc)
    else { s with frames := some rest }

def stepN (limit : ℕ) : ℕ → State → State
  | 0, s => s
  | n + 1, s => if s.frames.isNone then s else stepN limit n (step dex tooDeep limit s)

/-- The first of `Object.keys`: array indices come first, in ascending order. -/
def firstKey (codes : List (ℕ × Code)) : Option ℕ :=
  match (codes.map Prod.fst).filter (· < 2 ^ 32 - 1) with
  | k :: ks => some (ks.foldl min k)
  | [] => (codes.map Prod.fst).head?

def entry : Option ℕ :=
  match (range dex.methods.length).find? fun i =>
      (dex.methods[i]?.bind Method.name) = some "main" ∧ (codeOf dex i).isSome with
  | some i => some i
  | none => firstKey dex.codeByMethod

end Exec

def execEntry (dex : DexFile) (tooDeep : ℕ → Bool) (limit : ℕ) (m : Method) (code : Code) :
    List Event :=
  (stepN dex tooDeep limit (2 * limit + 2)
    ⟨some [.enter code [null]], int 0, 0, [.out (.running m)]⟩).events

def stepLimit : ℕ := 2000000

def runDex (tooDeep : ℕ → Bool) (dex : DexFile) : List Event :=
  match entry dex with
  | none => [.out .noMethod]
  | some i =>
    match dex.methods[i]?, codeOf dex i with
    | some m, some code => execEntry dex tooDeep stepLimit m code
    -- `methods[entry].cls` throws; a key of `codeByMethod` always has code
    | _, _ => []

/-- All that a run executes and prints. A parser that does not end prints nothing. -/
def run (tooDeep : ℕ → Bool) (bytes : List UInt8) : List Event :=
  match parse bytes (bound bytes) with
  | .error none => []
  | .error (some e) => [.out (.dexError e)]
  | .ok (dex, _) => runDex tooDeep dex

/-! ### What a round adds to the run -/

section Rounds

variable {dex : DexFile} {tooDeep : ℕ → Bool} {limit : ℕ} {s : State}

def State.left (limit : ℕ) (s : State) : ℕ :=
  match s.frames with
  | none => 0
  | some frames => 2 * (limit - s.steps) + frames.length + 1

theorem State.left_of_frames {frames : List Frame} (h : s.frames = some frames) :
    s.left limit = 2 * (limit - s.steps) + frames.length + 1 := by
  rw [left, h]

theorem State.left_of_end (h : s.frames = none) : s.left limit = 0 := by
  rw [left, h]

/-- What one round does: an instruction is executed within the limit only, the limit is reported
beyond it only, and the last event of a run is no report. -/
structure Adds (limit : ℕ) (s s' : State) (new : List Event) : Prop where
  events : s'.events = s.events ++ new
  insns : new.countP Event.isInsn + s.steps ≤ s'.steps
  within : ∀ e ∈ new, e.isInsn → s'.steps ≤ limit
  beyond : .out .stepLimit ∈ new → limit < s'.steps
  last : s'.frames = none → ∃ e ∈ new.getLast?, e.isReport = false
  left : s'.left limit < s.left limit

theorem Adds.executed {s' : State} {f : Frame} {rest : List Frame} {new : List Event}
    (hf : s.frames = some (f :: rest)) (h : s.steps < limit) (hsteps : s'.steps = s.steps + 1)
    (hevents : s'.events = s.events ++ new) (hinsns : new.countP Event.isInsn ≤ 1)
    (hbeyond : .out .stepLimit ∉ new)
    (hframes : (s'.frames = none ∧ ∃ e ∈ new.getLast?, e.isReport = false) ∨
      ∃ frames, s'.frames = some frames ∧ frames.length ≤ rest.length + 2) :
    Adds limit s s' new where
  events := hevents
  insns := by omega
  within := fun _ _ _ => by omega
  beyond := fun hmem => absurd hmem hbeyond
  last := by
    intro hnone
    rcases hframes with ⟨-, hlast⟩ | ⟨frames, hsome, -⟩
    · exact hlast
    · rw [hnone] at hsome
      cases hsome
  left := by
    rw [State.left_of_frames hf]
    rcases hframes with ⟨hnone, -⟩ | ⟨frames, hsome, hle⟩
    · rw [State.left_of_end hnone]
      omega
    · rw [State.left_of_frames hsome, length_cons, hsteps]
      omega

theorem perform_adds {f : Frame} {rest : List Frame} (hf : s.frames = some (f :: rest))
    (h : s.steps < limit) (effect : Effect) :
    ∃ new,
      Adds limit s (perform dex tooDeep f rest { s with steps := s.steps + 1 } effect) new := by
  have htwo : ∀ e e', s.events ++ [e] ++ [e'] = s.events ++ [e, e'] := by simp
  rcases effect with ⟨reg, pc, _ | t⟩ | ⟨code, args, pc⟩ | ⟨_ | v⟩ | _ | _
  · exact ⟨_, .executed hf h rfl rfl (by simp [Event.isInsn]) (by simp) (.inr ⟨_, rfl, by simp⟩)⟩
  · exact ⟨_, .executed hf h rfl (htwo _ _) (Nat.le_refl _) (by simp) (.inr ⟨_, rfl, by simp⟩)⟩
  · simp only [perform]
    split
    · exact ⟨_, .executed hf h rfl (htwo _ _) (Nat.le_refl _) (by simp) (.inl ⟨rfl, _, rfl, rfl⟩)⟩
    · exact ⟨_, .executed hf h rfl rfl (by simp [Event.isInsn]) (by simp) (.inr ⟨_, rfl, by simp⟩)⟩
  · exact ⟨_, .executed hf h rfl rfl (by simp [Event.isInsn]) (by simp) (.inr ⟨_, rfl, by omega⟩)⟩
  · exact ⟨_, .executed hf h rfl rfl (by simp [Event.isInsn]) (by simp) (.inr ⟨_, rfl, by omega⟩)⟩
  · exact ⟨_, .executed hf h rfl rfl (by simp [Event.isInsn]) (by simp)
      (.inr ⟨_, rfl, by omega⟩)⟩
  · exact ⟨_, .executed hf h rfl (htwo _ _) (Nat.le_refl _) (by simp) (.inl ⟨rfl, _, rfl, rfl⟩)⟩

theorem step_adds (dex : DexFile) (tooDeep : ℕ → Bool) (limit : ℕ) (hrunning : s.frames ≠ none) :
    ∃ new, Adds limit s (step dex tooDeep limit s) new := by
  unfold step
  split
  case h_1 hnone => exact absurd hnone hrunning
  case h_2 hf =>
    refine ⟨[.out .done], rfl, by simp [State.finish, State.emit, Event.isInsn],
      by simp [Event.isInsn], by simp, fun _ => ⟨_, rfl, rfl⟩, ?_⟩
    rw [State.left_of_frames hf, State.left_of_end rfl]
    omega
  case h_3 f rest hf =>
    split
    case isTrue =>
      dsimp only
      split
      case isTrue hlimit =>
        refine ⟨[.out .stepLimit], rfl, by simp [State.emit, Event.isInsn], by simp [Event.isInsn],
          fun _ => hlimit, (fun hnone => nomatch hnone), ?_⟩
        rw [State.left_of_frames hf, State.left_of_frames rfl, length_cons]
        simp only [State.emit]
        omega
      case isFalse hlimit => exact perform_adds hf (by omega) _
    case isFalse =>
      refine ⟨[], (append_nil _).symm, by simp, by simp, by simp, (fun hnone => nomatch hnone), ?_⟩
      rw [State.left_of_frames hf, State.left_of_frames rfl, length_cons]
      simp only
      omega

end Rounds

/-! ### The whole run -/

/-- What holds of all that has been executed and printed. -/
structure Inv (limit : ℕ) (s : State) : Prop where
  insns : s.events.countP Event.isInsn ≤ min s.steps limit
  beyond : .out .stepLimit ∈ s.events → limit < s.steps
  after : s.events.Pairwise fun e e' => e = .out .stepLimit → e'.isInsn = false
  last : s.frames = none → ∃ e ∈ s.events.getLast?, e.isReport = false

theorem Inv.step {limit : ℕ} {s s' : State} {new : List Event} (h : Inv limit s)
    (hadds : Adds limit s s' new) : Inv limit s' := by
  have hnone : s'.steps > limit → ∀ e ∈ new, e.isInsn = false := by
    intro hlimit e he
    by_contra hinsn
    have hle := hadds.within e he (by simpa using hinsn)
    omega
  refine ⟨?_, ?_, ?_, ?_⟩
  · have hcount := h.insns
    have hnew := hadds.insns
    rw [hadds.events, countP_append]
    by_cases hlimit : s'.steps > limit
    · have hzero : new.countP Event.isInsn = 0 :=
        countP_eq_zero.mpr fun e he => by simp [hnone hlimit e he]
      omega
    · omega
  · intro hmem
    rw [hadds.events, mem_append] at hmem
    rcases hmem with hmem | hmem
    · have hlt := h.beyond hmem
      have hle := hadds.insns
      omega
    · exact hadds.beyond hmem
  · rw [hadds.events, pairwise_append]
    refine ⟨h.after, List.Pairwise.imp_of_mem ?_ (pairwise_of_forall (R := fun _ _ => True)
      fun _ _ => trivial), ?_⟩
    · rintro e e' he he' - rfl
      exact hnone (hadds.beyond he) e' he'
    · rintro e he e' he' rfl
      have hlt := h.beyond he
      have hle := hadds.insns
      exact hnone (by omega) e' he'
  · intro hend
    obtain ⟨e, he, hreport⟩ := hadds.last hend
    refine ⟨e, ?_, hreport⟩
    rw [Option.mem_def] at he
    rw [hadds.events, getLast?_append, he]
    rfl

theorem stepN_spec (dex : DexFile) (tooDeep : ℕ → Bool) {limit : ℕ} (n : ℕ) {s : State}
    (h : Inv limit s) (hn : s.left limit ≤ n) :
    Inv limit (stepN dex tooDeep limit n s) ∧ (stepN dex tooDeep limit n s).frames = none := by
  induction n generalizing s with
  | zero =>
    refine ⟨h, ?_⟩
    cases hf : s.frames with
    | none => exact hf
    | some frames =>
      rw [State.left_of_frames hf] at hn
      omega
  | succ n ih =>
    cases hf : s.frames with
    | none =>
      rw [stepN, if_pos (by rw [hf]; rfl)]
      exact ⟨h, hf⟩
    | some frames =>
      obtain ⟨new, hadds⟩ := step_adds dex tooDeep limit (s := s) (by simp [hf])
      have hleft := hadds.left
      rw [stepN, if_neg (by simp [hf])]
      exact ih (h.step hadds) (by omega)

/-- Nothing is executed or printed after a report. -/
def Stops (events : List Event) : Prop := events.Pairwise fun e _ => e.isReport = false

theorem stops_iff {events : List Event} (h : ∃ e ∈ events.getLast?, e.isReport = false) :
    Stops events ↔ ∀ e ∈ events, e.isReport = false := by
  constructor
  · intro hstops e he
    obtain ⟨last, hlast, hreport⟩ := h
    obtain ⟨ini, rfl⟩ := getLast?_eq_some_iff.mp hlast
    rw [Stops, pairwise_append] at hstops
    rcases mem_append.mp he with he | he
    · exact hstops.2.2 e he last (by simp)
    · rwa [mem_singleton.mp he]
  · intro hall
    exact List.Pairwise.imp_of_mem (fun he _ _ => hall _ he)
      (pairwise_of_forall (R := fun _ _ => True) fun _ _ => trivial)

/-- A run executes at most as many instructions as the limit, and none once it has reported the
limit; but it stops after a report only if there is no report: the outermost activation is
followed by `[done]` even so. -/
structure StopsIf (limit : ℕ) (events : List Event) : Prop where
  insns : events.countP Event.isInsn ≤ limit
  after : events.Pairwise fun e e' => e = .out .stepLimit → e'.isInsn = false
  stops : Stops events ↔ ∀ e ∈ events, e.isReport = false

theorem StopsIf.nil (limit : ℕ) : StopsIf limit [] := ⟨Nat.zero_le _, .nil, by simp [Stops]⟩

theorem StopsIf.single (limit : ℕ) {o : Output} (h : (Event.out o).isReport = false) :
    StopsIf limit [.out o] :=
  ⟨Nat.zero_le _, by simp, stops_iff ⟨_, rfl, h⟩⟩

theorem stopsIf_execEntry (dex : DexFile) (tooDeep : ℕ → Bool) (limit : ℕ) (m : Method)
    (code : Code) : StopsIf limit (execEntry dex tooDeep limit m code) := by
  have hinit : Inv limit ⟨some [.enter code [null]], int 0, 0, [.out (.running m)]⟩ :=
    ⟨Nat.zero_le _, by simp, by simp, fun hnone => nomatch hnone⟩
  obtain ⟨hinv, hend⟩ := stepN_spec dex tooDeep (2 * limit + 2) hinit
    (by rw [State.left_of_frames rfl]; simp)
  exact ⟨Nat.le_trans hinv.insns (Nat.min_le_right _ _), hinv.after, stops_iff (hinv.last hend)⟩

theorem stops_iff_no_report (tooDeep : ℕ → Bool) (bytes : List UInt8) :
    StopsIf stepLimit (run tooDeep bytes) := by
  unfold run
  split
  · exact .nil _
  · exact .single _ rfl
  · unfold runDex
    split
    · exact .single _ rfl
    · split
      · exact stopsIf_execEntry ..
      · exact .nil _

def callsUnsupported : List UInt8 :=
  -- one class; two methods, whose ids are the zeros after the version
  [0x64, 0x65, 0x78] ++ replicate 85 0 ++ [2, 0, 0, 0, 8, 0, 0, 0, 1, 0, 0, 0, 80, 0, 0, 0]
  -- the class's data
    ++ [108, 0, 0, 0, 0, 0, 2, 0, 0, 0, 119, 1, 0, 143, 1]
  -- `invoke-static {}` of the second method, `return-void`
    ++ replicate 12 0 ++ [4, 0, 0, 0, 0x71, 0, 1, 0, 0, 0, 0x0e, 0]
  -- an opcode that is not in the `switch`
    ++ replicate 12 0 ++ [1, 0, 0, 0, 0x03, 0]

theorem run_callsUnsupported_goes_on :
    run (fun _ => false) callsUnsupported =
      [.out (.running ⟨none, none⟩), .insn 135, .out (.unsupported 3 0), .insn 141, .out .done] ∧
    ¬ Stops (run (fun _ => false) callsUnsupported) := by
  have hrun : run (fun _ => false) callsUnsupported =
      [.out (.running ⟨none, none⟩), .insn 135, .out (.unsupported 3 0), .insn 141,
        .out .done] := by
    decide +kernel
  refine ⟨hrun, ?_⟩
  rw [hrun, Stops]
  decide

end Bootbox.Dex
