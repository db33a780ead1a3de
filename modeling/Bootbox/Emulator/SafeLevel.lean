import Bootbox.Lib.Trace

/-!
The levels of safer engine settings for 64-bit guests (`boot64` of `apps/emulator.js`), over the
lives of many pages.

The boot record `q64safe6` is in the page's file system, which is saved 250 ms after its last
change; the time of the last crash is kept by the app and taken by the next boot. Times are in
milliseconds, and no two events fall into the same one.
-/

namespace Bootbox.Emulator.SafeLevel

open Lib.Trace

/-- `SAFE_LEVELS.length - 1` -/
def lastLevel : ℕ := 6

/-- `q64safe6` -/
structure Record where
  level : ℕ
  startedAt : ℕ
  ok : Bool
deriving DecidableEq

structure Boot where
  level : ℕ
  start : ℕ
  /-- The page has crashed while the guest was running and before it had run 75 s. -/
  crashed : Bool
deriving DecidableEq

structure State where
  now : ℕ
  /-- `BootboxLastPageCrash` -/
  lastCrash : Option ℕ
  disk : Option Record
  /-- The record in the page's file system. -/
  tree : Option Record
  saveTimer : Option ℕ
  /-- The boots that wait for their 75 s, by `startedAt`. -/
  timers : List ℕ
  /-- The guest of the last 64-bit boot is running. -/
  running : Bool
  /-- All 64-bit boots, the last one first. -/
  boots : List Boot
deriving DecidableEq

def State.init : State := ⟨0, none, none, none, none, [], false, []⟩

inductive Event
  | boot64
  /-- Something else is written to the file system, as by the boot of another guest. -/
  | write
  | save
  /-- The timer of a boot goes off. -/
  | timer (startedAt : ℕ)
  | exit
  | crash
  /-- The page is loaded again, or the app is started again. -/
  | restart
deriving DecidableEq

namespace State

variable (s : State)

/-- What `takeLastCrash` says makes the boot step down. -/
def stepsDown (safe : Record) : Bool :=
  s.lastCrash.any fun lc => lc ≠ 0 ∧ safe.startedAt ≠ 0 ∧ lc > safe.startedAt ∧ !safe.ok

/-- `safe.level` of the boot. -/
def level : ℕ :=
  let safe := s.tree.getD ⟨0, 0, false⟩
  if s.stepsDown safe then min lastLevel (safe.level + 1) else safe.level

def boot64 : State :=
  { s with
    lastCrash := none
    tree := some ⟨s.level, s.now, false⟩
    saveTimer := some (s.now + 250)
    timers := s.now :: s.timers
    running := true
    boots := ⟨min lastLevel s.level, s.now, false⟩ :: s.boots }

/-- The next page has what was saved, and the timers are gone. -/
def reload : State :=
  { s with tree := s.disk, saveTimer := none, timers := [], running := false }

def early (start : ℕ) : Bool := s.running ∧ s.now < start + 75000

/-- The last boot is charged with a crash that is its guest's. -/
def charge : List Boot → List Boot
  | [] => []
  | b :: bs => { b with crashed := b.crashed || s.early b.start } :: bs

/-- The guest has run 75 s. -/
def mark (startedAt : ℕ) : State :=
  let s := { s with timers := s.timers.erase startedAt }
  match s.tree with
  | some s2 =>
    if s2.startedAt = startedAt then
      { s with tree := some { s2 with ok := true }, saveTimer := some (s.now + 250) }
    else s
  | none => s

def step : Event → Option State
  | .boot64 => some s.boot64
  | .write => some { s with saveTimer := some (s.now + 250) }
  | .save =>
    if s.saveTimer.any (· ≤ s.now) then some { s with disk := s.tree, saveTimer := none } else none
  | .timer startedAt =>
    if startedAt ∈ s.timers ∧ startedAt + 75000 ≤ s.now then some (s.mark startedAt) else none
  | .exit => some { s with running := false }
  | .crash => some { s.reload with lastCrash := some s.now, boots := s.charge s.boots }
  | .restart => some s.reload

def tick (d : ℕ) : State := { s with now := s.now + d + 1 }

/-- No page ends before its record is saved, and a crash comes in the first 75 s of a running
64-bit guest or after they have been recorded. -/
def Recorded : Event → Prop
  | .crash => s.disk = s.tree ∧ ∀ r ∈ s.tree, r.ok = true ∨ s.early r.startedAt = true
  | .restart => s.disk = s.tree
  | _ => True

end State

/-- An event after `d + 1` milliseconds. -/
def Step (s : State) (e : ℕ × Event) (s' : State) : Prop := (s.tick e.1).step e.2 = some s'

def RecordedStep (s : State) (e : ℕ × Event) (s' : State) : Prop :=
  Step s e s' ∧ (s.tick e.1).Recorded e.2

/-- The level that the next boot should have. -/
def Boot.next (b : Boot) : ℕ := if b.crashed then min lastLevel (b.level + 1) else b.level

/-- Every boot has the level that follows from the one before it. -/
def Laddered : List Boot → Prop
  | [] => True
  | [b] => b.level = 0
  | b :: b' :: bs => b.level = b'.next ∧ Laddered (b' :: bs)

/-- The record is that of the last boot, and what it and the last crash say about that boot is
true. -/
structure Describes (s : State) (b : Boot) (r : Record) : Prop where
  level : r.level = b.level
  start : r.startedAt = b.start
  started : b.start ≠ 0 ∧ b.start ≤ s.now
  level_le : b.level ≤ lastLevel
  ok : r.ok = true → b.start + 75000 ≤ s.now
  crashed : s.stepsDown r = b.crashed
  timers : b.crashed = true → s.timers = []

structure Inv (s : State) : Prop where
  laddered : Laddered s.boots
  first : s.boots = [] → s.tree = none
  last : ∀ b ∈ s.boots.head?, ∃ r, s.tree = some r ∧ Describes s b r

theorem Inv.init : Inv .init where
  laddered := trivial
  first _ := rfl
  last _ h := by cases h

variable {s s' : State}

theorem Inv.tick (h : Inv s) (d : ℕ) : Inv (s.tick d) := by
  refine ⟨h.laddered, h.first, fun b hb => ?_⟩
  obtain ⟨r, hr, hd⟩ := h.last b hb
  have hnow : s.now ≤ (s.tick d).now := by
    change s.now ≤ s.now + d + 1
    omega
  exact ⟨r, hr, hd.level, hd.start, ⟨hd.started.1, Nat.le_trans hd.started.2 hnow⟩, hd.level_le,
    fun hok => Nat.le_trans (hd.ok hok) hnow, hd.crashed, hd.timers⟩

/-- What is kept by an event that touches neither the record nor the boots. -/
theorem Inv.of_eq (h : Inv s) (hboots : s'.boots = s.boots) (htree : s'.tree = s.tree)
    (hnow : s'.now = s.now) (hcrash : s'.lastCrash = s.lastCrash)
    (htimers : s.timers = [] → s'.timers = []) : Inv s' := by
  refine ⟨hboots ▸ h.laddered, fun hnil => htree.trans (h.first (hboots ▸ hnil)), fun b hb => ?_⟩
  obtain ⟨r, hr, hd⟩ := h.last b (hboots ▸ hb)
  refine ⟨r, htree.trans hr, hd.level, hd.start, hnow ▸ hd.started, hd.level_le, hnow ▸ hd.ok, ?_,
    fun hc => htimers (hd.timers hc)⟩
  rw [State.stepsDown, hcrash]
  exact hd.crashed

variable {b : Boot}

theorem next_le (h : b.level ≤ lastLevel) : b.next ≤ lastLevel := by
  rw [Boot.next]
  split
  · exact Nat.min_le_left ..
  · exact h

theorem Inv.level_eq (h : Inv s) (hb : b ∈ s.boots.head?) :
    s.level = b.next ∧ s.level ≤ lastLevel := by
  obtain ⟨r, hr, hd⟩ := h.last b hb
  have hlevel : s.level = b.next := by
    rw [State.level, hr, Option.getD_some, hd.crashed, hd.level]
    rfl
  exact ⟨hlevel, hlevel ▸ next_le hd.level_le⟩

theorem Inv.boot64 (h : Inv s) (hnow : s.now ≠ 0) : Inv s.boot64 := by
  have hlast : s.level ≤ lastLevel → ∀ b ∈ s.boot64.boots.head?, ∃ r, s.boot64.tree = some r ∧
      Describes s.boot64 b r := by
    rintro hle b ⟨⟩
    exact ⟨_, rfl, (Nat.min_eq_right hle).symm, rfl, ⟨hnow, Nat.le_refl _⟩, Nat.min_le_left ..,
      nofun, rfl, nofun⟩
  rcases hboots : s.boots with - | ⟨b, bs⟩
  · have hlevel : s.level = 0 := by
      have hnot : s.stepsDown ⟨0, 0, false⟩ = false := by
        simp [State.stepsDown]
      rw [State.level, h.first hboots, Option.getD_none, hnot]
      rfl
    refine ⟨?_, nofun, hlast (hlevel ▸ Nat.zero_le _)⟩
    rw [State.boot64, hboots, hlevel]
    rfl
  · obtain ⟨hlevel, hle⟩ := h.level_eq (b := b) (by rw [hboots]; rfl)
    refine ⟨?_, nofun, hlast hle⟩
    rw [State.boot64, hboots, Nat.min_eq_right hle]
    exact ⟨hlevel, hboots ▸ h.laddered⟩

theorem Inv.reload (h : Inv s) (hdisk : s.disk = s.tree) : Inv s.reload :=
  h.of_eq rfl hdisk rfl rfl fun _ => rfl

theorem Inv.crash (h : Inv s) (hlater : ∀ b ∈ s.boots.head?, b.start < s.now)
    (hdisk : s.disk = s.tree) (hrecord : ∀ r ∈ s.tree, r.ok = true ∨ s.early r.startedAt = true) :
    Inv { s.reload with lastCrash := some s.now, boots := s.charge s.boots } := by
  rcases hboots : s.boots with - | ⟨b, bs⟩
  · exact ⟨trivial, fun _ => hdisk.trans (h.first hboots), nofun⟩
  · obtain ⟨r, hr, hd⟩ := h.last b (by rw [hboots]; rfl)
    have hladder : Laddered (b :: bs) := hboots ▸ h.laddered
    refine ⟨?_, nofun, ?_⟩
    · cases bs <;> exact hladder
    · rintro _ ⟨⟩
      have hearly : r.ok = true → s.early b.start = false := by
        intro hok
        have := hd.ok hok
        simp [State.early]
        omega
      have hcharged : (!r.ok) = (b.crashed || s.early b.start) := by
        rcases hrecord r hr with hok | hrun
        · rw [hearly hok, hok, ← hd.crashed]
          simp [State.stepsDown, hok]
        · rw [hd.start] at hrun
          cases hok : r.ok with
          | true => cases (hearly hok).symm.trans hrun
          | false => simp [hrun]
      have hlt := hlater b (by rw [hboots]; rfl)
      refine ⟨r, hdisk.trans hr, { hd with crashed := ?_, timers := fun _ => rfl }⟩
      rw [← hcharged]
      have hstart : r.startedAt ≠ 0 := hd.start ▸ hd.started.1
      rw [← hd.start] at hlt
      simp [State.stepsDown, hstart, hlt, Nat.ne_zero_of_lt hlt]

theorem Inv.timer {startedAt : ℕ} (h : Inv s) (hmem : startedAt ∈ s.timers)
    (hdue : startedAt + 75000 ≤ s.now) (hstep : s.mark startedAt = s') : Inv s' := by
  subst hstep
  rw [State.mark]
  split
  case h_2 => exact h.of_eq rfl rfl rfl rfl fun hnil => by rw [hnil]; rfl
  case h_1 r hr =>
    split
    case isFalse => exact h.of_eq rfl rfl rfl rfl fun hnil => by rw [hnil]; rfl
    case isTrue hsame =>
      subst hsame
      refine ⟨h.laddered, fun hnil => ?_, fun b hb => ?_⟩
      · cases hr.symm.trans (h.first hnil)
      · obtain ⟨r', hr', hd⟩ := h.last b hb
        cases hr.symm.trans hr'
        have hsafe : b.crashed = false := by
          cases hc : b.crashed with
          | false => rfl
          | true =>
            rw [hd.timers hc] at hmem
            cases hmem
        refine ⟨_, rfl,
          { hd with ok := fun _ => hd.start ▸ hdue, crashed := ?_, timers := fun hc => ?_ }⟩
        · rw [hsafe]
          simp [State.stepsDown]
        · cases hsafe.symm.trans hc

theorem Inv.step {e : ℕ × Event} (h : Inv s) (hstep : RecordedStep s e s') : Inv s' := by
  obtain ⟨d, e⟩ := e
  obtain ⟨hstep, hrecorded⟩ := hstep
  have hnow : (s.tick d).now ≠ 0 := Nat.succ_ne_zero _
  have hlater : ∀ b ∈ (s.tick d).boots.head?, b.start < (s.tick d).now := by
    intro b hb
    obtain ⟨r, -, hd⟩ := h.last b hb
    have := hd.started.2
    change b.start < s.now + d + 1
    omega
  replace h := h.tick d
  change (s.tick d).step e = some s' at hstep
  generalize s.tick d = s at h hnow hlater hstep hrecorded
  cases e with
  | boot64 =>
    cases hstep
    exact h.boot64 hnow
  | write | exit =>
    cases hstep
    exact h.of_eq rfl rfl rfl rfl id
  | save =>
    rw [State.step] at hstep
    split at hstep <;> cases hstep
    exact h.of_eq rfl rfl rfl rfl id
  | crash =>
    cases hstep
    exact h.crash hlater hrecorded.1 hrecorded.2
  | restart =>
    cases hstep
    exact h.reload hrecorded
  | timer startedAt =>
    rw [State.step] at hstep
    split at hstep
    case isFalse => cases hstep
    case isTrue hdue => exact h.timer hdue.1 hdue.2 (Option.some.inj hstep)

theorem level_of_all_crashed {bs : List Boot} (h : Laddered (b :: bs))
    (hall : ∀ b' ∈ bs, b'.crashed = true) : b.level = min lastLevel bs.length := by
  induction bs generalizing b with
  | nil => exact h
  | cons b' bs ih =>
    obtain ⟨hcrashed, hall⟩ := List.forall_mem_cons.mp hall
    rw [h.1, Boot.next, if_pos hcrashed, ih h.2 hall, List.length_cons]
    omega

/-- Over every run in which no page ends before its record is saved and every crash is in the
first 75 s of a running 64-bit guest or after they have been recorded, each boot has the level
that follows from the boot before it, and a guest that crashes on every boot gets to the last
level. -/
theorem laddered_of_recorded {es : List (ℕ × Event)} {s : State}
    (hrun : Run RecordedStep .init es s) :
    Laddered s.boots ∧ ∀ b bs, s.boots = b :: bs → (∀ b' ∈ bs, b'.crashed = true) →
      b.level = min lastLevel bs.length := by
  have hinv : Inv s := hrun.invariant (fun h => h.step) .init
  exact ⟨hinv.laddered, fun b bs hboots => level_of_all_crashed (hboots ▸ hinv.laddered)⟩

/-- A guest is left after ten seconds, and the page crashes ten seconds later. -/
def leftEarly : List (ℕ × Event) :=
  [(0, .boot64), (250, .save), (10000, .exit), (10000, .crash), (0, .boot64)]

/-- The next boot steps down though no guest has crashed. -/
theorem leftEarly_steps_down :
    ∃ s, Run Step .init leftEarly s ∧
      s.boots = [⟨1, 20255, false⟩, ⟨0, 1, false⟩] ∧ ¬ Laddered s.boots := by
  iterate 5 refine Run.exists_cons rfl ?_
  exact ⟨_, .nil _, rfl, fun h => absurd (show (1 : ℕ) = 0 from h.1) (by decide)⟩

/-- Two boots, the first of which crashes. -/
theorem laddered_two_boots :
    ∃ s, Run RecordedStep .init [(0, .boot64), (250, .save), (10000, .crash), (0, .boot64)] s ∧
      s.boots = [⟨1, 10254, false⟩, ⟨0, 1, true⟩] ∧ Laddered s.boots := by
  obtain ⟨s, hrun, hboots⟩ : ∃ s,
      Run RecordedStep .init [(0, .boot64), (250, .save), (10000, .crash), (0, .boot64)] s ∧
        s.boots = [⟨1, 10254, false⟩, ⟨0, 1, true⟩] := by
    iterate 2 refine Run.exists_cons ⟨rfl, trivial⟩ ?_
    refine Run.exists_cons ⟨rfl, rfl, ?_⟩ ?_
    · rintro r ⟨⟩
      exact .inr rfl
    refine Run.exists_cons ⟨rfl, trivial⟩ ?_
    exact ⟨_, .nil _, rfl⟩
  exact ⟨s, hrun, hboots, (laddered_of_recorded hrun).1⟩

/-! ### Without the condition -/

/-- No level is above the number of crashes so far; the last one may still have to count. -/
structure Bounded (n : ℕ) (s : State) : Prop where
  records : ∀ r, s.disk = some r ∨ s.tree = some r → r.level + s.lastCrash.toList.length ≤ n
  boots : ∀ b ∈ s.boots, b.level ≤ n

variable {n : ℕ}

theorem Bounded.level_le (h : Bounded n s) : s.level ≤ n := by
  have hrecords := h.records
  rw [State.level]
  cases htree : s.tree <;> cases hcrash : s.lastCrash <;> grind [State.stepsDown]

theorem Bounded.step {e : ℕ × Event} (h : Bounded n s) (hstep : Step s e s') :
    Bounded (n + if e.2 = .crash then 1 else 0) s' := by
  obtain ⟨d, e⟩ := e
  replace h : Bounded n (s.tick d) := ⟨h.records, h.boots⟩
  change (s.tick d).step e = some s' at hstep
  generalize s.tick d = s at h hstep
  have hlevel := h.level_le
  obtain ⟨hrecords, hboots⟩ := h
  have hcharge : ∀ b ∈ s.charge s.boots, b.level ≤ n := by
    cases hb : s.boots <;> grind [State.charge]
  revert hstep
  fun_cases State.step s e <;> rintro ⟨⟩ <;> constructor <;>
    grind [State.boot64, State.mark, State.reload]

/-- In every run, whatever is lost with a page, no boot is at a level above the number of
crashes. -/
theorem level_le_crashes {es : List (ℕ × Event)} {s : State} (hrun : Run Step .init es s) :
    ∀ b ∈ s.boots, b.level ≤ es.countP (·.2 = .crash) := by
  have hbounded : Bounded (es.countP (·.2 = .crash)) s := by
    refine hrun.invariant_history (I := fun es => Bounded (es.countP (·.2 = .crash)))
      (fun h hstep => ?_) ⟨by simp [State.init], by simp [State.init]⟩
    simpa [List.countP_append, List.countP_singleton] using h.step hstep
  exact hbounded.boots

/-- The guest that was left early: one level for the one crash. -/
theorem level_le_crashes_leftEarly :
    ∃ s, Run Step .init leftEarly s ∧ ∀ b ∈ s.boots, b.level ≤ 1 := by
  obtain ⟨s, hrun⟩ : ∃ s, Run Step .init leftEarly s ∧ True := by
    iterate 5 refine Run.exists_cons rfl ?_
    exact ⟨_, .nil _, trivial⟩
  exact ⟨s, hrun.1, level_le_crashes hrun.1⟩

end Bootbox.Emulator.SafeLevel
