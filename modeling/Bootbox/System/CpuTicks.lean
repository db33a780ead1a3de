import Bootbox.Lib.Trace
import Mathlib.Algebra.Order.Ring.Int

/-!
The guest's tick counter, read by any number of vCPU threads (`system/cpu-timers.c`).

A lock-free read is cut into its atomic steps: the two flags, the highest tick
handed out so far, the offset, the thread's own host clock, and each attempt to
raise the highest tick. The threads' clocks are independent: an event says what a
clock shows, which is never less than what it has shown its thread before.

Ticks are signed 64-bit numbers, and a sum that leaves their range wraps around (the
code is built with `-fwrapv`). The counter does not go back then either, but it may
stand still: that two reads of a thread differ by what its clock has advanced is said
of runs in which the thread's own sums are exact.
-/

namespace Bootbox.System

open Lib.Trace List

variable {m host v : Int64}

/-- `timers_state`, as far as the ticks go, with the lock-free counter's shared
`ticks_max`. -/
structure Timers where
  cpuTicksPrev : Int64
  cpuTicksOffset : Int64
  cpuTicksEnabled : Bool
  ticksMax : Int64
  deriving DecidableEq

/-- `cpu_get_ticks_locked`, given what `cpu_get_host_ticks` returns. -/
def cpuGetTicksLocked (T : Timers) (host : Int64) : Int64 × Timers :=
  let ticks := if T.cpuTicksEnabled then T.cpuTicksOffset + host else T.cpuTicksOffset
  if ticks < T.cpuTicksPrev then
    (T.cpuTicksPrev,
      { T with cpuTicksOffset := T.cpuTicksOffset + (T.cpuTicksPrev - ticks) })
  else (ticks, { T with cpuTicksPrev := ticks })

def cpuEnableTicks (T : Timers) (host : Int64) : Timers :=
  if T.cpuTicksEnabled then T
  else { T with cpuTicksOffset := T.cpuTicksOffset - host, cpuTicksEnabled := true }

def cpuDisableTicks (T : Timers) (host : Int64) : Timers :=
  if T.cpuTicksEnabled then
    { T with cpuTicksOffset := T.cpuTicksOffset + host, cpuTicksEnabled := false }
  else T

/-- How far a thread is in `cpu_get_ticks`. -/
inductive Pc
  | idle
  /-- `bootbox_tsc_lockfree` was set. -/
  | lockfree
  /-- So was `cpu_ticks_enabled`. -/
  | enabled
  /-- One of them was not. -/
  | locked
  | gotMax (prev : Int64)
  | gotOffset (prev offset : Int64)
  /-- About to compare and exchange. -/
  | storing (prev ticks : Int64)
  | returning (ticks : Int64)
  deriving DecidableEq

/-- A thread: its `skew`, and what its host clock has shown last. -/
structure Thread where
  pc : Pc
  skew : Int64
  clock : Int64
  deriving DecidableEq

inductive Action
  /-- `cpu_get_ticks` is called and reads `bootbox_tsc_lockfree`. -/
  | enter
  | readEnabled
  | loadMax
  | loadOffset
  /-- `cpu_get_host_ticks` returns, and the thread corrects its skew. -/
  | hostTicks (host : Int64)
  /-- `__atomic_compare_exchange_n`, the weak one: it may fail for no reason. -/
  | exchange (spurious : Bool)
  | ret (ticks : Int64)
  /-- The critical section of the locked read, and its return. -/
  | retLocked (host ticks : Int64)
  | enable (host : Int64)
  | disable (host : Int64)
  deriving DecidableEq

/-- The test of the loop: try to store, or return. -/
def tryStore (prev ticks : Int64) : Pc :=
  if prev < ticks then .storing prev ticks else .returning ticks

/-- The sum is in; a thread that is behind moves its clock forward. -/
def correctSkew (th : Thread) (prev offset host : Int64) : Thread :=
  let ticks := offset + host + th.skew
  if ticks < prev then ⟨tryStore prev prev, th.skew + (prev - ticks), host⟩
  else ⟨tryStore prev ticks, th.skew, host⟩

/-- One atomic step of a thread, where it is possible. -/
def threadStep (tscLockfree : Bool) (T : Timers) (th : Thread) :
    Action → Option (Thread × Timers)
  | .enter =>
    match th.pc with
    | .idle => some ({ th with pc := if tscLockfree then .lockfree else .locked }, T)
    | _ => none
  | .readEnabled =>
    match th.pc with
    | .lockfree => some ({ th with pc := if T.cpuTicksEnabled then .enabled else .locked }, T)
    | _ => none
  | .loadMax =>
    match th.pc with
    | .enabled => some ({ th with pc := .gotMax T.ticksMax }, T)
    | _ => none
  | .loadOffset =>
    match th.pc with
    | .gotMax prev => some ({ th with pc := .gotOffset prev T.cpuTicksOffset }, T)
    | _ => none
  | .hostTicks host =>
    match th.pc with
    | .gotOffset prev offset =>
      if th.clock ≤ host then some (correctSkew th prev offset host, T) else none
    | _ => none
  | .exchange spurious =>
    match th.pc with
    | .storing prev ticks =>
      if T.ticksMax = prev ∧ spurious = false then
        some ({ th with pc := .returning ticks }, { T with ticksMax := ticks })
      else some ({ th with pc := tryStore T.ticksMax ticks }, T)
    | _ => none
  | .ret ticks => if th.pc = .returning ticks then some ({ th with pc := .idle }, T) else none
  | .retLocked host ticks =>
    if th.pc = .locked ∧ th.clock ≤ host ∧ (cpuGetTicksLocked T host).1 = ticks then
      some ({ th with pc := .idle, clock := host }, (cpuGetTicksLocked T host).2)
    else none
  | .enable host =>
    if th.pc = .idle ∧ th.clock ≤ host then
      some ({ th with clock := host }, cpuEnableTicks T host)
    else none
  | .disable host =>
    if th.pc = .idle ∧ th.clock ≤ host then
      some ({ th with clock := host }, cpuDisableTicks T host)
    else none

/-- The whole system; `ι` are the threads. -/
structure State (ι : Type) where
  tscLockfree : Bool
  timers : Timers
  threads : ι → Thread

structure Event (ι : Type) where
  thread : ι
  act : Action
  deriving DecidableEq

variable {ι : Type} [DecidableEq ι]

/-- One step of the system: any thread may take it. -/
def step (s : State ι) (e : Event ι) : Option (State ι) := do
  let (th, T) ← threadStep s.tscLockfree s.timers (s.threads e.thread) e.act
  some { s with timers := T, threads := Function.update s.threads e.thread th }

def Steps (s : State ι) (e : Event ι) (s' : State ι) : Prop := step s e = some s'

/-! While the VM runs. -/

def Event.KeepsRunning (e : Event ι) : Prop := ∀ host, e.act ≠ .disable host

/-- A thread in a lock-free read, as far as its own steps have brought it: what it is
about to return is its corrected clock, and by then the highest tick is no less. -/
def Thread.Sound (T : Timers) (th : Thread) : Prop :=
  match th.pc with
  | .locked => False
  | .gotMax prev => prev ≤ T.ticksMax
  | .gotOffset prev offset => prev ≤ T.ticksMax ∧ offset = T.cpuTicksOffset
  | .storing prev ticks => prev < ticks ∧ ticks = T.cpuTicksOffset + th.clock + th.skew
  | .returning ticks => ticks = T.cpuTicksOffset + th.clock + th.skew ∧ ticks ≤ T.ticksMax
  | _ => True

structure State.Running (s : State ι) : Prop where
  tscLockfree : s.tscLockfree = true
  enabled : s.timers.cpuTicksEnabled = true
  threads : ∀ t, (s.threads t).Sound s.timers

/-- What a step can do to the timers while the VM runs: raise the highest tick. -/
structure Timers.Grows (T T' : Timers) : Prop where
  enabled : T'.cpuTicksEnabled = T.cpuTicksEnabled
  offset : T'.cpuTicksOffset = T.cpuTicksOffset
  ticksMax : T.ticksMax ≤ T'.ticksMax

theorem Timers.Grows.refl (T : Timers) : T.Grows T := ⟨rfl, rfl, Int64.le_refl _⟩

variable {T T' : Timers} {th : Thread}

theorem Thread.Sound.grows (h : th.Sound T) (hT : T.Grows T') : th.Sound T' := by
  unfold Thread.Sound at h ⊢
  rw [hT.offset]
  cases hpc : th.pc with
  | gotMax prev =>
    rw [hpc] at h
    exact Int64.le_trans h hT.ticksMax
  | gotOffset prev offset =>
    rw [hpc] at h
    exact ⟨Int64.le_trans h.1 hT.ticksMax, h.2⟩
  | returning ticks =>
    rw [hpc] at h
    exact ⟨h.1, Int64.le_trans h.2 hT.ticksMax⟩
  | _ =>
    rw [hpc] at h
    exact h

inductive Moves (T : Timers) (th : Thread) : Action → Thread × Timers → Prop
  | enter (h : th.pc = .idle) : Moves T th .enter ({ th with pc := .lockfree }, T)
  | readEnabled (h : th.pc = .lockfree) : Moves T th .readEnabled ({ th with pc := .enabled }, T)
  | loadMax (h : th.pc = .enabled) : Moves T th .loadMax ({ th with pc := .gotMax T.ticksMax }, T)
  | loadOffset {prev : Int64} (h : th.pc = .gotMax prev) :
      Moves T th .loadOffset ({ th with pc := .gotOffset prev T.cpuTicksOffset }, T)
  | hostTicks {prev offset host : Int64} (h : th.pc = .gotOffset prev offset)
      (hclock : th.clock ≤ host) :
      Moves T th (.hostTicks host) (correctSkew th prev offset host, T)
  | stored {ticks : Int64} (h : th.pc = .storing T.ticksMax ticks) :
      Moves T th (.exchange false)
        ({ th with pc := .returning ticks }, { T with ticksMax := ticks })
  | failed {prev ticks : Int64} {spurious : Bool} (h : th.pc = .storing prev ticks) :
      Moves T th (.exchange spurious) ({ th with pc := tryStore T.ticksMax ticks }, T)
  | ret {ticks : Int64} (h : th.pc = .returning ticks) :
      Moves T th (.ret ticks) ({ th with pc := .idle }, T)
  | enable {host : Int64} (h : th.pc = .idle) (hclock : th.clock ≤ host) :
      Moves T th (.enable host) ({ th with clock := host }, T)

variable {a : Action} {r : Thread × Timers}

/-- While the VM runs a thread takes no other step: it never goes for the lock, and
enabling the ticks again does nothing. -/
theorem Moves.of_threadStep (hsound : th.Sound T) (henabled : T.cpuTicksEnabled = true)
    (ha : ∀ host, a ≠ .disable host) (h : threadStep true T th a = some r) : Moves T th a r := by
  revert h
  fun_cases threadStep true T th a with
  | case1 hpc =>
    rintro ⟨⟩
    exact .enter hpc
  | case3 hpc =>
    rw [if_pos henabled]
    rintro ⟨⟩
    exact .readEnabled hpc
  | case5 hpc =>
    rintro ⟨⟩
    exact .loadMax hpc
  | case7 prev hpc =>
    rintro ⟨⟩
    exact .loadOffset hpc
  | case9 host prev offset hpc hclock =>
    rintro ⟨⟩
    exact .hostTicks hpc hclock
  | case12 spurious prev ticks hpc hok =>
    rintro ⟨⟩
    obtain ⟨rfl, rfl⟩ := hok
    exact .stored hpc
  | case13 spurious prev ticks hpc =>
    rintro ⟨⟩
    exact .failed hpc
  | case15 ticks hpc =>
    rintro ⟨⟩
    exact .ret hpc
  | case17 host ticks hok =>
    rw [Thread.Sound, hok.1] at hsound
    exact hsound.elim
  | case19 host hok =>
    rw [cpuEnableTicks, if_pos henabled]
    rintro ⟨⟩
    exact .enable hok.1 hok.2
  | case21 host => exact absurd rfl (ha host)
  | _ => nofun

theorem tryStore_cases (prev ticks : Int64) :
    (prev < ticks ∧ tryStore prev ticks = .storing prev ticks) ∨
      (ticks ≤ prev ∧ tryStore prev ticks = .returning ticks) := by
  rw [tryStore]
  split
  case isTrue hlt => exact .inl ⟨hlt, rfl⟩
  case isFalse hge => exact .inr ⟨Int64.not_lt.mp hge, rfl⟩

/-- After the clock has been read the thread goes for a tick that is no less than the
highest it had loaded, and that is its clock with the skew it has then. -/
theorem correctSkew_spec (th : Thread) (prev offset host : Int64) :
    ∃ ticks skew, correctSkew th prev offset host = ⟨tryStore prev ticks, skew, host⟩ ∧
      prev ≤ ticks ∧ ticks = offset + host + skew := by
  simp only [correctSkew]
  split
  case isTrue hlt => exact ⟨prev, _, rfl, Int64.le_refl _, by grind⟩
  case isFalse hge => exact ⟨_, th.skew, rfl, Int64.not_lt.mp hge, rfl⟩

section Running

variable {T : Timers} {th : Thread} {a : Action} {r : Thread × Timers}

theorem Moves.grows (hsound : th.Sound T) (h : Moves T th a r) : T.Grows r.2 := by
  cases h with
  | stored hpc =>
    rw [Thread.Sound, hpc] at hsound
    exact ⟨rfl, rfl, Int64.le_of_lt hsound.1⟩
  | _ => exact .refl T

theorem sound_tryStore {prev ticks skew clock : Int64}
    (hticks : ticks = T.cpuTicksOffset + clock + skew) (hprev : prev ≤ T.ticksMax) :
    Thread.Sound T ⟨tryStore prev ticks, skew, clock⟩ := by
  rcases tryStore_cases prev ticks with ⟨hlt, heq⟩ | ⟨hle, heq⟩
  · rw [heq]
    exact ⟨hlt, hticks⟩
  · rw [heq]
    exact ⟨hticks, Int64.le_trans hle hprev⟩

theorem Moves.sound (hsound : th.Sound T) (h : Moves T th a r) : r.1.Sound r.2 := by
  cases h with
  | enter hpc => exact trivial
  | readEnabled hpc => exact trivial
  | loadMax hpc => exact Int64.le_refl _
  | loadOffset hpc =>
    rw [Thread.Sound, hpc] at hsound
    exact ⟨hsound, rfl⟩
  | @hostTicks prev offset host hpc hclock =>
    rw [Thread.Sound, hpc] at hsound
    obtain ⟨hprev, rfl⟩ := hsound
    obtain ⟨ticks, skew, heq, -, hticks⟩ := correctSkew_spec th prev T.cpuTicksOffset host
    rw [heq]
    exact sound_tryStore hticks hprev
  | stored hpc =>
    rw [Thread.Sound, hpc] at hsound
    exact ⟨hsound.2, Int64.le_refl _⟩
  | failed hpc =>
    rw [Thread.Sound, hpc] at hsound
    exact sound_tryStore hsound.2 (Int64.le_refl _)
  | ret hpc => exact trivial
  | enable hpc hclock =>
    rw [Thread.Sound]
    simp only [hpc]

end Running

structure Advances (s : State ι) (e : Event ι) (s' : State ι) : Prop where
  running : s'.Running
  grows : s.timers.Grows s'.timers
  moves : Moves s.timers (s.threads e.thread) e.act (s'.threads e.thread, s'.timers)
  others : ∀ t, t ≠ e.thread → s'.threads t = s.threads t

variable {s s' : State ι}

theorem State.Running.step {e : Event ι} (hs : s.Running) (he : e.KeepsRunning) (h : Steps s e s') :
    Advances s e s' := by
  obtain ⟨⟨th, T⟩, hth, heq⟩ := Option.bind_eq_some_iff.mp h
  obtain rfl := Option.some.inj heq
  rw [hs.tscLockfree] at hth
  have hmoves : Moves s.timers (s.threads e.thread) e.act (th, T) :=
    .of_threadStep (hs.threads _) hs.enabled he hth
  have hgrows : s.timers.Grows T := hmoves.grows (hs.threads _)
  refine ⟨⟨hs.tscLockfree, hgrows.enabled.trans hs.enabled, fun t => ?_⟩, hgrows, ?_, ?_⟩
  · by_cases ht : t = e.thread
    · subst ht
      simpa using hmoves.sound (hs.threads _)
    · simpa [ht] using (hs.threads t).grows hgrows
  · simpa using hmoves
  · intro t ht
    simp [ht]

variable {es : List (Event ι)} {t : ι}

/-- What a single thread's steps and the growth of the timers keep, a run keeps. `R` may
be narrower than `Steps`. -/
theorem Run.invariant_thread {I : Timers → Thread → Prop} {P : Event ι → Prop}
    {R : State ι → Event ι → State ι → Prop} (hrun : Run R s es s')
    (hR : ∀ {s e s'}, R s e s' → Steps s e s') (hs : s.Running)
    (hes : ∀ e ∈ es, e.KeepsRunning ∧ P e)
    (hgrows : ∀ {T T' th}, T.Grows T' → I T th → I T' th)
    (hmoves : ∀ {s s' a r}, R s ⟨t, a⟩ s' → P ⟨t, a⟩ → I s.timers (s.threads t) →
      Moves s.timers (s.threads t) a r → I r.2 r.1)
    (hI : I s.timers (s.threads t)) : s'.Running ∧ I s'.timers (s'.threads t) := by
  refine hrun.invariant_of (I := fun s => s.Running ∧ I s.timers (s.threads t)) hes ?_ ⟨hs, hI⟩
  rintro s₁ e s₂ ⟨hs₁, hI₁⟩ ⟨hkeep, hP⟩ hstep
  have hadv := hs₁.step hkeep (hR hstep)
  refine ⟨hadv.running, ?_⟩
  by_cases ht : t = e.thread
  · subst ht
    exact hmoves hstep hP hI₁ hadv.moves
  · rw [hadv.others t ht]
    exact hgrows hadv.grows hI₁

/-! Later reads return no less. -/

/-- The highest tick is at least `m`, and a read that has begun since returns that much. -/
def AtLeast (m : Int64) (T : Timers) (th : Thread) : Prop :=
  m ≤ T.ticksMax ∧
    match th.pc with
    | .gotMax prev => m ≤ prev
    | .gotOffset prev _ => m ≤ prev
    | .storing _ ticks => m ≤ ticks
    | .returning ticks => m ≤ ticks
    | _ => True

theorem AtLeast.grows (hT : T.Grows T') (h : AtLeast m T th) : AtLeast m T' th :=
  ⟨Int64.le_trans h.1 hT.ticksMax, h.2⟩

theorem atLeast_tryStore {prev ticks skew clock : Int64} (hmax : m ≤ T.ticksMax)
    (hticks : m ≤ ticks) :
    AtLeast m T ⟨tryStore prev ticks, skew, clock⟩ := by
  refine ⟨hmax, ?_⟩
  rcases tryStore_cases prev ticks with ⟨-, heq⟩ | ⟨-, heq⟩
  · simpa only [heq] using hticks
  · simpa only [heq] using hticks

theorem AtLeast.moves (h : AtLeast m T th) (hmoves : Moves T th a r) : AtLeast m r.2 r.1 := by
  obtain ⟨hmax, hpc'⟩ := h
  cases hmoves with
  | enter hpc => exact ⟨hmax, trivial⟩
  | readEnabled hpc => exact ⟨hmax, trivial⟩
  | loadMax hpc => exact ⟨hmax, hmax⟩
  | loadOffset hpc =>
    rw [hpc] at hpc'
    exact ⟨hmax, hpc'⟩
  | @hostTicks prev offset host hpc hclock =>
    rw [hpc] at hpc'
    obtain ⟨ticks, skew, heq, hle, -⟩ := correctSkew_spec th prev offset host
    rw [heq]
    exact atLeast_tryStore hmax (Int64.le_trans hpc' hle)
  | @stored ticks hpc =>
    rw [hpc] at hpc'
    exact ⟨hpc', hpc'⟩
  | failed hpc =>
    rw [hpc] at hpc'
    exact atLeast_tryStore hmax hpc'
  | ret hpc => exact ⟨hmax, trivial⟩
  | enable hpc hclock =>
    refine ⟨hmax, ?_⟩
    simp only [hpc]

/-! A thread's own clock. -/

def InInt64 (x : ℤ) : Prop := -2 ^ 63 ≤ x ∧ x < 2 ^ 63

theorem toInt_add_add {a b c : Int64} (h : InInt64 (a.toInt + b.toInt + c.toInt)) :
    (a + b + c).toInt = a.toInt + b.toInt + c.toInt := by
  obtain ⟨hlow, hhigh⟩ := h
  rw [Int64.toInt_add, Int64.toInt_add, Int.bmod_add_bmod, Int.bmod_eq_of_le]
  · omega
  · omega

theorem toInt_add_sub {a b c : Int64} (h : InInt64 (a.toInt + (b.toInt - c.toInt))) :
    (a + (b - c)).toInt = a.toInt + (b.toInt - c.toInt) := by
  obtain ⟨hlow, hhigh⟩ := h
  rw [Int64.toInt_add, Int64.toInt_sub, Int.add_bmod_bmod, Int.bmod_eq_of_le]
  · omega
  · omega

/-- Neither the sum of a read nor the corrected skew leaves 64 bits. -/
def Exact (th : Thread) (prev offset host : Int64) : Prop :=
  let ticks := offset.toInt + host.toInt + th.skew.toInt
  InInt64 ticks ∧ (ticks < prev.toInt → InInt64 (th.skew.toInt + (prev.toInt - ticks)))

/-- A step of the system in which the sums of thread `t` are exact. -/
def ExactSteps (t : ι) (s : State ι) (e : Event ι) (s' : State ι) : Prop :=
  Steps s e s' ∧ ∀ host prev offset, e = ⟨t, .hostTicks host⟩ →
    (s.threads t).pc = .gotOffset prev offset → Exact (s.threads t) prev offset host

theorem correctSkew_exact {th : Thread} {prev offset host : Int64}
    (h : Exact th prev offset host) :
    th.skew.toInt ≤ (correctSkew th prev offset host).skew.toInt ∧
      InInt64 (offset.toInt + host.toInt + (correctSkew th prev offset host).skew.toInt) := by
  obtain ⟨hticks, hskew⟩ := h
  have hsum := toInt_add_add hticks
  simp only [correctSkew]
  split
  case isTrue hlt =>
    rw [Int64.lt_iff_toInt_lt, hsum] at hlt
    have hskew := hskew hlt
    rw [← hsum] at hskew
    have hlow := prev.le_toInt
    have hhigh := prev.toInt_lt
    rw [toInt_add_sub hskew, hsum]
    exact ⟨by omega, by omega, by omega⟩
  case isFalse hge => exact ⟨le_refl _, hticks⟩

/-- The thread's skew is at least `k`, with the offset `o`. -/
def SkewFrom (o : Int64) (k : ℤ) (T : Timers) (th : Thread) : Prop :=
  T.cpuTicksOffset = o ∧ k ≤ th.skew.toInt

theorem SkewFrom.moves {o : Int64} {k : ℤ} (h : SkewFrom o k T th)
    (hexact : ∀ host prev offset, a = .hostTicks host → th.pc = .gotOffset prev offset →
      Exact th prev offset host) (hmoves : Moves T th a r) : SkewFrom o k r.2 r.1 := by
  cases hmoves with
  | hostTicks hpc hclock =>
    exact ⟨h.1, le_trans h.2 (correctSkew_exact (hexact _ _ _ rfl hpc)).1⟩
  | _ => exact h

/-- The thread has read its clock, with the result `host`, its sum with the offset `o` is
exact, and it is not done with that read. -/
def Sampled (o host : Int64) (th : Thread) : Prop :=
  th.clock = host ∧ InInt64 (o.toInt + host.toInt + th.skew.toInt) ∧
    ((∃ prev ticks, th.pc = .storing prev ticks) ∨ ∃ ticks, th.pc = .returning ticks)

theorem tryStore_storing_or_returning (prev ticks : Int64) :
    (∃ prev' ticks', tryStore prev ticks = .storing prev' ticks') ∨
      ∃ ticks', tryStore prev ticks = .returning ticks' := by
  rcases tryStore_cases prev ticks with ⟨-, heq⟩ | ⟨-, heq⟩
  · exact .inl ⟨_, _, heq⟩
  · exact .inr ⟨_, heq⟩

theorem Sampled.of_hostTicks {prev offset : Int64} (hexact : Exact th prev offset host) :
    Sampled offset host (correctSkew th prev offset host) := by
  obtain ⟨ticks, skew, heq, -⟩ := correctSkew_spec th prev offset host
  have hin := (correctSkew_exact hexact).2
  rw [heq] at hin ⊢
  exact ⟨rfl, hin, tryStore_storing_or_returning ..⟩

/-- It stays so until the read returns. -/
theorem Sampled.moves {o : Int64} (h : Sampled o host th) (ha : ∀ v, a ≠ .ret v)
    (hmoves : Moves T th a r) : Sampled o host r.1 := by
  obtain ⟨rfl, hin, hpc'⟩ := h
  cases hmoves with
  | stored hpc => exact ⟨rfl, hin, .inr ⟨_, rfl⟩⟩
  | failed hpc => exact ⟨rfl, hin, tryStore_storing_or_returning ..⟩
  | ret hpc => exact absurd rfl (ha _)
  | enter hpc => simp [hpc] at hpc'
  | readEnabled hpc => simp [hpc] at hpc'
  | loadMax hpc => simp [hpc] at hpc'
  | loadOffset hpc => simp [hpc] at hpc'
  | hostTicks hpc hclock => simp [hpc] at hpc'
  | enable hpc hclock => simp [hpc] at hpc'

/-! Whole runs. -/

/-- The VM has been started, and no thread is reading the clock. -/
structure State.Started (s : State ι) : Prop where
  tscLockfree : s.tscLockfree = true
  enabled : s.timers.cpuTicksEnabled = true
  idle : ∀ t, (s.threads t).pc = .idle

omit [DecidableEq ι] in
theorem State.Started.running (hs : s.Started) : s.Running := by
  refine ⟨hs.tscLockfree, hs.enabled, fun t => ?_⟩
  rw [Thread.Sound, hs.idle t]
  trivial

theorem State.Running.run (hs : s.Running) (hkeep : ∀ e ∈ es, e.KeepsRunning)
    (hrun : Run Steps s es s') : s'.Running :=
  hrun.invariant_of hkeep (fun hs he h => (hs.step he h).running) hs

theorem Moves.enter_inv {th' : Thread} (h : Moves T th .enter (th', T')) : th'.pc = .lockfree := by
  cases h with
  | enter hpc => rfl

theorem Moves.ret_inv {th' : Thread} (h : Moves T th (.ret v) (th', T')) :
    th.pc = .returning v ∧ th' = { th with pc := .idle } ∧ T' = T := by
  cases h with
  | ret hpc => exact ⟨hpc, rfl, rfl⟩

/-- What a read returns is the thread's corrected clock, and no more than the highest
tick. -/
theorem State.Running.ret (hs : s.Running) (hkeep : (⟨t, .ret v⟩ : Event ι).KeepsRunning)
    (h : Steps s ⟨t, .ret v⟩ s') :
    (s.threads t).pc = .returning v ∧ v ≤ s'.timers.ticksMax ∧
      v = s'.timers.cpuTicksOffset + (s.threads t).clock + (s'.threads t).skew := by
  obtain ⟨hpc, hth, hT⟩ := (hs.step hkeep h).moves.ret_inv
  have hsound := hs.threads t
  rw [Thread.Sound, hpc] at hsound
  rw [hth, hT]
  exact ⟨hpc, hsound.2, hsound.1⟩

theorem ret_le_ret {t' : ι} {v' : Int64} {es' : List (Event ι)} (hs : s.Running)
    (hrun : Run Steps s (⟨t, .ret v⟩ :: es ++ ⟨t', .enter⟩ :: es' ++ [⟨t', .ret v'⟩]) s')
    (hkeep : ∀ e ∈ ⟨t, .ret v⟩ :: es ++ ⟨t', .enter⟩ :: es' ++ [⟨t', .ret v'⟩], e.KeepsRunning) :
    v ≤ v' := by
  simp only [mem_append, mem_cons, mem_nil_iff, or_false] at hkeep
  simp only [Run.append_iff, Run.cons_iff, Run.nil_iff] at hrun
  obtain ⟨s₄, ⟨s₂, ⟨s₁, hret, hes⟩, s₃, henter, hes'⟩, _, hret', rfl⟩ := hrun
  -- the highest tick is `v` or more from here on
  have hs₁ := (hs.step (hkeep _ (.inl (.inl (.inl rfl)))) hret).running
  have hmax := (hs.ret (hkeep _ (.inl (.inl (.inl rfl)))) hret).2.1
  have hrun₂ := hes.invariant_of (I := fun s => s.Running ∧ v ≤ s.timers.ticksMax)
    (fun e he => hkeep e (.inl (.inl (.inr he))))
    (fun h he hstep =>
      ⟨(h.1.step he hstep).running, Int64.le_trans h.2 (h.1.step he hstep).grows.ticksMax⟩)
    ⟨hs₁, hmax⟩
  have hadv := hrun₂.1.step (hkeep _ (.inl (.inr (.inl rfl)))) henter
  have hbegun : AtLeast v s₃.timers (s₃.threads t') := by
    refine ⟨Int64.le_trans hrun₂.2 hadv.grows.ticksMax, ?_⟩
    rw [hadv.moves.enter_inv]
    trivial
  obtain ⟨hs₄, hend⟩ := Run.invariant_thread (I := AtLeast v) (P := fun _ => True) hes' id
    hadv.running
    (fun e he => ⟨hkeep e (.inl (.inr (.inr he))), trivial⟩) AtLeast.grows
    (fun _ _ h hmoves => h.moves hmoves) hbegun
  have hpc := (hs₄.ret (hkeep _ (.inr rfl)) hret').1
  have hle := hend.2
  rw [hpc] at hle
  exact hle

theorem Moves.hostTicks_inv {th' : Thread} (h : Moves T th (.hostTicks host) (th', T')) :
    ∃ prev offset, th.pc = .gotOffset prev offset ∧ th' = correctSkew th prev offset host ∧
      T' = T := by
  cases h with
  | hostTicks hpc hclock => exact ⟨_, _, hpc, rfl, rfl⟩

theorem read_returns (hs : s.Running)
    (hrun : Run (ExactSteps t) s (⟨t, .hostTicks host⟩ :: es ++ [⟨t, .ret v⟩]) s')
    (hkeep : ∀ e ∈ ⟨t, .hostTicks host⟩ :: es ++ [⟨t, .ret v⟩], e.KeepsRunning)
    (hes : ∀ w, ⟨t, .ret w⟩ ∉ es) :
    v.toInt = s'.timers.cpuTicksOffset.toInt + host.toInt + (s'.threads t).skew.toInt := by
  simp only [mem_append, mem_cons, mem_nil_iff, or_false] at hkeep
  simp only [Run.append_iff, Run.cons_iff, Run.nil_iff] at hrun
  obtain ⟨s₂, ⟨s₁, hhost, hmid⟩, _, hret, rfl⟩ := hrun
  have hadv := hs.step (hkeep _ (.inl (.inl rfl))) hhost.1
  obtain ⟨prev, offset, hpc, hth, hT⟩ := hadv.moves.hostTicks_inv
  have hoffset : s₁.timers.cpuTicksOffset = offset := by
    have hsound := hs.threads t
    rw [Thread.Sound, hpc] at hsound
    rw [hT, hsound.2]
  have hsampled₁ : Sampled offset host (s₁.threads t) := by
    rw [hth]
    exact .of_hostTicks (hhost.2 _ _ _ rfl hpc)
  obtain ⟨hs₂, hoffset₂, hclock, hin, -⟩ := Run.invariant_thread
    (I := fun T th => T.cpuTicksOffset = offset ∧ Sampled offset host th)
    (P := fun e => ∀ w, e ≠ ⟨t, .ret w⟩) hmid And.left hadv.running
    (fun e he => ⟨hkeep e (.inl (.inr he)), fun w heq => hes w (heq ▸ he)⟩)
    (fun hT h => ⟨hT.offset.trans h.1, h.2⟩) (by
      intro _ _ a r _ ha h hmoves
      refine ⟨?_, h.2.moves (fun w hw => ha w (by rw [hw])) hmoves⟩
      cases hmoves <;> exact h.1)
    ⟨hoffset, hsampled₁⟩
  obtain ⟨hpc', hth', hT'⟩ := (hs₂.step (hkeep _ (.inr rfl)) hret.1).moves.ret_inv
  have hval := (hs₂.ret (hkeep _ (.inr rfl)) hret.1).2.2
  rw [hth', hT'] at hval ⊢
  dsimp only at hval ⊢
  rw [hclock, hoffset₂] at hval
  rw [hval, hoffset₂, toInt_add_add hin]

theorem skew_le_of_run (t : ι) (hs : s.Running) (hkeep : ∀ e ∈ es, e.KeepsRunning)
    (hrun : Run (ExactSteps t) s es s') :
    s'.timers.cpuTicksOffset = s.timers.cpuTicksOffset ∧
      (s.threads t).skew.toInt ≤ (s'.threads t).skew.toInt :=
  (Run.invariant_thread (I := SkewFrom s.timers.cpuTicksOffset (s.threads t).skew.toInt)
    (P := fun _ => True) hrun And.left hs (fun e he => ⟨hkeep e he, trivial⟩)
    (fun hT h => ⟨hT.offset.trans h.1, h.2⟩)
    (fun hstep _ h hmoves => h.moves (fun _ _ _ ha => hstep.2 _ _ _ (by rw [ha])) hmoves)
    ⟨rfl, le_refl _⟩).2

def readBy (t : ι) (host : Int64) (es : List (Event ι)) (v : Int64) : List (Event ι) :=
  ⟨t, .hostTicks host⟩ :: es ++ [⟨t, .ret v⟩]

/-- While the VM runs, no thread takes the lock; a read that begins after another has
returned returns no less; and two reads of one thread whose sums are exact differ by at
least what its own clock has advanced from one to the other. -/
theorem lockfree_ticks_advance {s s' : State ι} {es : List (Event ι)} (hs : s.Started)
    (hkeep : ∀ e ∈ es, e.KeepsRunning) (hrun : Run Steps s es s') :
    (∀ t host v, ⟨t, .retLocked host v⟩ ∉ es) ∧
    (∀ t t' v v' es₀ es₁ es₂ es₃,
      es = es₀ ++ (⟨t, .ret v⟩ :: es₁ ++ ⟨t', .enter⟩ :: es₂ ++ [⟨t', .ret v'⟩]) ++ es₃ →
        v ≤ v') ∧
    (∀ t host host' v v' es₀ es₁ es₂ es₃ es₄, Run (ExactSteps t) s es s' →
      es = es₀ ++ readBy t host es₁ v ++ es₂ ++ readBy t host' es₃ v' ++ es₄ →
        (∀ w, ⟨t, .ret w⟩ ∉ es₁) → (∀ w, ⟨t, .ret w⟩ ∉ es₃) →
          host'.toInt - host.toInt ≤ v'.toInt - v.toInt) := by
  refine ⟨?_, ?_, ?_⟩
  · intro t host v hmem
    obtain ⟨es₀, es₁, rfl⟩ := append_of_mem hmem
    obtain ⟨s₁, hrun₁, hrun₂⟩ := Run.append_iff.mp hrun
    obtain ⟨s₂, hlocked, -⟩ := Run.cons_iff.mp hrun₂
    have hs₁ := hs.running.run (fun e he => hkeep e (mem_append_left _ he)) hrun₁
    have hmoves := (hs₁.step (hkeep _ hmem) hlocked).moves
    cases hmoves
  · rintro t t' v v' es₀ es₁ es₂ es₃ rfl
    simp only [forall_mem_append] at hkeep
    obtain ⟨s₂, hrun₂, -⟩ := Run.append_iff.mp hrun
    obtain ⟨s₁, hrun₀, hrun₁⟩ := Run.append_iff.mp hrun₂
    refine ret_le_ret (hs.running.run hkeep.1.1 hrun₀) hrun₁ ?_
    simpa only [forall_mem_append] using hkeep.1.2
  · rintro t host host' v v' es₀ es₁ es₂ es₃ es₄ hexact rfl h₁ h₃
    clear hrun
    rw [forall_mem_append, forall_mem_append, forall_mem_append, forall_mem_append] at hkeep
    obtain ⟨⟨⟨⟨hkeep₀, hkeep₁⟩, hkeep₂⟩, hkeep₃⟩, -⟩ := hkeep
    simp only [Run.append_iff] at hexact
    obtain ⟨s₄, ⟨s₃, ⟨s₂, ⟨s₁, hrun₀, hrun₁⟩, hrun₂⟩, hrun₃⟩, -⟩ := hexact
    have hs₁ := hs.running.run hkeep₀ (hrun₀.mono And.left)
    have hs₂ := hs₁.run hkeep₁ (hrun₁.mono And.left)
    have hs₃ := hs₂.run hkeep₂ (hrun₂.mono And.left)
    have hv := read_returns hs₁ hrun₁ hkeep₁ h₁
    have hv' := read_returns hs₃ hrun₃ hkeep₃ h₃
    obtain ⟨hoff₂, hskew₂⟩ := skew_le_of_run t hs₂ hkeep₂ hrun₂
    obtain ⟨hoff₃, hskew₃⟩ := skew_le_of_run t hs₃ hkeep₃ hrun₃
    rw [hoff₃, hoff₂] at hv'
    omega

/-! Two threads whose clocks disagree. -/

def twoThreads : State Bool where
  tscLockfree := true
  timers := ⟨0, 0, true, 0⟩
  threads := fun _ => ⟨.idle, 0, 0⟩

theorem twoThreads_started : twoThreads.Started := ⟨rfl, rfl, fun _ => rfl⟩

/-- What a thread does before it reads its clock. -/
def beforeClock (t : Bool) : List (Event Bool) :=
  [⟨t, .enter⟩, ⟨t, .readEnabled⟩, ⟨t, .loadMax⟩, ⟨t, .loadOffset⟩]

/-- The clock of one thread shows `ahead`; the other, which is behind, reads twice, while its
clock advances by 2. `last` is what the second of these reads does behind its clock. -/
def laggingReads (ahead v : Int64) (last : List (Event Bool)) : List (Event Bool) :=
  beforeClock false ++
    readBy false ahead [⟨false, .exchange true⟩, ⟨false, .exchange false⟩] ahead ++
    beforeClock true ++ readBy true 10 [] ahead ++ beforeClock true ++ readBy true 12 last v

theorem laggingReads_advance :
    ∃ s', Run Steps twoThreads (laggingReads 20 22 [⟨true, .exchange false⟩]) s' ∧
      (12 : Int64).toInt - (10 : Int64).toInt ≤ (22 : Int64).toInt - (20 : Int64).toInt := by
  have hexact : ∃ s', Run (ExactSteps true) twoThreads
      (laggingReads 20 22 [⟨true, .exchange false⟩]) s' := by
    simp only [laggingReads, beforeClock, readBy, cons_append, nil_append, Run.cons_iff,
      Run.nil_iff, ExactSteps, Steps]
    refine ⟨_, _, ⟨rfl, by simp⟩, _, ⟨rfl, by simp⟩, _, ⟨rfl, by simp⟩, _, ⟨rfl, by simp⟩, _,
      ⟨rfl, by simp⟩, _, ⟨rfl, by simp⟩, _, ⟨rfl, by simp⟩, _, ⟨rfl, by simp⟩, _, ⟨rfl, by simp⟩, _,
      ⟨rfl, by simp⟩, _, ⟨rfl, by simp⟩, _, ⟨rfl, by simp⟩, _, ⟨rfl, ?_⟩, _, ⟨rfl, by simp⟩, _,
      ⟨rfl, by simp⟩, _, ⟨rfl, by simp⟩, _, ⟨rfl, by simp⟩, _, ⟨rfl, by simp⟩, _, ⟨rfl, ?_⟩, _,
      ⟨rfl, by simp⟩, _, ⟨rfl, by simp⟩, rfl⟩
    · rintro _ _ _ ⟨⟩ ⟨⟩
      exact ⟨⟨by decide, by decide⟩, fun _ => ⟨by decide, by decide⟩⟩
    · rintro _ _ _ ⟨⟩ ⟨⟩
      exact ⟨⟨by decide, by decide⟩, fun _ => ⟨by decide, by decide⟩⟩
  obtain ⟨s', hs'⟩ := hexact
  refine ⟨s', hs'.mono And.left, ?_⟩
  exact (lockfree_ticks_advance twoThreads_started
    (by simp [laggingReads, beforeClock, readBy, Event.KeepsRunning]) (hs'.mono And.left)).2.2
    true 10 12 20 22 ((laggingReads 20 22 []).take 12) [] (beforeClock true)
    [⟨true, .exchange false⟩] [] hs' rfl (by simp) (by simp)

/-- The sum wraps around: the second read of the thread that is behind returns what the first
returned, although its clock has advanced by 2. -/
theorem wrapped_sum_stands_still :
    (∃ s', Run Steps twoThreads (laggingReads 9223372036854775806 9223372036854775806 []) s') ∧
      ¬ (12 : Int64).toInt - (10 : Int64).toInt ≤
        (9223372036854775806 : Int64).toInt - (9223372036854775806 : Int64).toInt := by
  refine ⟨?_, by decide⟩
  simp only [laggingReads, beforeClock, readBy, cons_append, nil_append, Run.cons_iff,
    Run.nil_iff, Steps]
  exact ⟨_, _, rfl, _, rfl, _, rfl, _, rfl, _, rfl, _, rfl, _, rfl, _, rfl, _, rfl, _, rfl, _, rfl,
    _, rfl, _, rfl, _, rfl, _, rfl, _, rfl, _, rfl, _, rfl, _, rfl, _, rfl, rfl⟩

end Bootbox.System
