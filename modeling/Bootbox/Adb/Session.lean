import Bootbox.Adb.Flow

/-!
Whole sessions of the adb client: any calls by the user before the device answers,
the device's banner with its limit, and then any events at all.

The client behaves for every such session exactly if the device's limit leaves room
for the name of the service. Below that it sends messages that are too large, and
with a limit of five bytes or less it never gets a byte of the user's across.
-/

namespace Bootbox.Adb

open Shell List

variable {shellV2 : List UInt8 → Bool} {D : Device} {W : List UInt8} {s : Shell} {e : Event}

variable {s₁ : Shell} {m : Msg} {oks : List Msg}

def Event.bytes : Event → List UInt8
  | .write x => x
  | _ => []

def written (es : List Event) : List UInt8 := es.flatMap Event.bytes

def Event.Early : Event → Prop
  | .message _ => False
  | _ => True

/-- An event after that: the socket is opened once, and the banner comes once. -/
def Event.Late : Event → Prop
  | .socketOpened => False
  | .message m => m.cmd ≠ .cnxn
  | _ => True

/-- An acknowledgement of a `WRTE`; the first `OKAY` is for the `OPEN`. -/
def Event.acks (s : Shell) : Event → Bool
  | .message m => s.ready && decide (m.cmd = .okay)
  | _ => false

def run (shellV2 : List UInt8 → Bool) (s : Shell) (es : List Event) : Shell :=
  es.foldl (step shellV2) s

/-- The number of unacknowledged `WRTE`s after the events, given those before. -/
def outstanding (shellV2 : List UInt8 → Bool) (s : Shell) (n : ℕ) : List Event → ℕ
  | [] => n
  | e :: es =>
    let s' := step shellV2 s e
    let acked := if e.acks s then n - 1 else n
    outstanding shellV2 s' (acked + (s'.wrtes - s.wrtes)) es

/-- The events by which `pump` is called: what is set before. -/
def prepare (s : Shell) : Event → Option Shell
  | .message m =>
    if m.cmd = .okay then
      some (if s.ready then { s with writing := false }
        else { s with remote := m.arg0, ready := true, resizePending := s.v2 })
    else none
  | .write x => if s.closed then none else some { s with outq := s.outq ++ [x] }
  | .resize c r =>
    if s.v2 && !s.closed then
      some { s with cols := orKeep c s.cols, rows := orKeep r s.rows, resizePending := true }
    else none
  | _ => none

theorem step_of_prepare (h : prepare s e = some s₁) : step shellV2 s e = s₁.pump := by
  revert h
  fun_cases prepare s e with
  | case1 m hcmd =>
    rintro ⟨⟩
    simp only [step, Shell.handle, hcmd]
    cases s.ready <;> rfl
  | case4 x hclosed =>
    rintro ⟨⟩
    exact if_neg hclosed
  | case5 c r hv2 =>
    rintro ⟨⟩
    simp only [step, Shell.resize, hv2, if_true]
  | _ => rintro ⟨⟩

theorem quiet_of_prepare (h : prepare s e = none) (he : e.Late) : Quiet s (step shellV2 s e) := by
  revert h
  fun_cases prepare s e with
  | case2 m hcmd => exact fun _ => .handle shellV2 s he hcmd
  | case3 x hclosed =>
    simp only [step, Shell.write, hclosed, if_true]
    exact fun _ => .refl s
  | case6 c r hv2 =>
    simp only [step, Shell.resize, hv2]
    exact fun _ => .window ..
  | case7 =>
    intro _
    cases e with
    | socketOpened => exact he.elim
    | socketClosed =>
      simp only [step]
      split
      · exact .over s false s.closed nofun id
      · exact (Quiet.over s false true nofun nofun).trans (.call ..)
    | socketError => exact .call ..
    | close =>
      simp only [step, Shell.close]
      refine (Quiet.over s s.socketOpen true id nofun).trans
        ((Quiet.send _ localId s.remote (show Cmd.clse ≠ .wrte by decide)).trans ?_)
      exact .over _ false _ nofun id
    | _ => simp at *
  | _ => nofun

/-! One unacknowledged message. -/

theorem prepare_writing (h : prepare s e = some s₁) :
    s₁.wrtes = s.wrtes ∧ s₁.writing = (s.writing && !e.acks s) := by
  revert h
  fun_cases prepare s e with
  | case1 m hcmd =>
    rintro ⟨⟩
    cases hready : s.ready <;> simp [Event.acks, hready, hcmd, wrtes]
  | case4 | case5 =>
    rintro ⟨⟩
    simp [Event.acks, wrtes]
  | _ => rintro ⟨⟩

/-- The banner and the opening of the socket send no `WRTE`. -/
theorem calm_of_not_late (he : ¬ e.Late) :
    (step shellV2 s e).wrtes ≤ s.wrtes ∧ (step shellV2 s e).writing = s.writing := by
  cases e with
  | socketOpened =>
    refine ⟨?_, by simp [step]⟩
    exact wrtes_send { s with socketOpen := true } .cnxn ..
  | message m =>
    have hcmd : m.cmd = .cnxn := by
      by_contra h
      exact he h
    refine ⟨?_, by simp [step, Shell.handle, hcmd, Shell.call]⟩
    simp only [step, Shell.handle, hcmd]
    exact wrtes_send ({ s with maxData := _, v2 := _ }.call _) .open ..
  | _ => exact absurd trivial he

/-- Unacknowledged `WRTE`s are counted by the flag. -/
theorem outstanding_step {n : ℕ} (hn : n ≤ s.writing.toNat) :
    (if e.acks s then n - 1 else n) + ((step shellV2 s e).wrtes - s.wrtes)
      ≤ (step shellV2 s e).writing.toNat := by
  by_cases he : e.Late
  · cases hp : prepare s e with
    | none =>
      have hq : Quiet s (step shellV2 s e) := quiet_of_prepare hp he
      rw [hq.wrtes, hq.writing]
      split <;> omega
    | some s₁ =>
      obtain ⟨hwrtes, hwriting⟩ := prepare_writing hp
      have hpump := wrtes_pump s₁
      have hmono := writing_pump s₁
      have hle := Bool.toNat_le s.writing
      rw [step_of_prepare hp]
      rw [hwrtes, hwriting] at hpump
      rw [hwriting] at hmono
      cases hacks : e.acks s with
      | true =>
        simp only [hacks, Bool.not_true, Bool.and_false, Bool.toNat_false, if_true] at hpump ⊢
        omega
      | false =>
        simp only [hacks, Bool.not_false, Bool.and_true, Bool.false_eq_true, if_false]
          at hpump hmono ⊢
        omega
  · have hcalm : (step shellV2 s e).wrtes ≤ s.wrtes ∧ (step shellV2 s e).writing = s.writing :=
      calm_of_not_late he
    rw [hcalm.2]
    split <;> omega

theorem outstanding_le {n : ℕ} (hn : n ≤ s.writing.toNat) (es : List Event) :
    outstanding shellV2 s n es ≤ 1 := by
  induction es generalizing s n with
  | nil => exact le_trans hn (Bool.toNat_le _)
  | cons e es ih => exact ih (outstanding_step hn)

/-! The stream. -/

theorem prepare_keeps (hp : prepare s e = some s₁) (h : Keeps D W s) :
    Keeps D (W ++ e.bytes) s₁.pump := by
  revert hp
  fun_cases prepare s e with
  | case1 m =>
    rintro ⟨⟩
    rw [show (Event.message m).bytes = [] from rfl, append_nil]
    refine Keeps.pump ?_
    split
    · exact { h with }
    · exact { h with }
  | case4 x hclosed =>
    rintro ⟨⟩
    exact h.queue (Bool.eq_false_iff.mpr hclosed) x
  | case5 c r =>
    rintro ⟨⟩
    rw [show (Event.resize c r).bytes = [] from rfl, append_nil]
    exact Keeps.pump { h with }
  | _ => nofun

/-- A write that does not get into the queue is one to a stream that is over. -/
theorem bytes_of_prepare (hp : prepare s e = none) : e.bytes = [] ∨ s.closed = true := by
  cases e with
  | write x =>
    simp only [prepare] at hp
    split at hp
    case isTrue hclosed => exact .inr hclosed
    case isFalse => cases hp
  | _ => exact .inl rfl

theorem keeps_step (h : Keeps D W s) (he : e.Late) : Keeps D (W ++ e.bytes) (step shellV2 s e) := by
  cases hp : prepare s e with
  | none =>
    have hq : Quiet s (step shellV2 s e) := quiet_of_prepare hp he
    rcases bytes_of_prepare hp with hbytes | hclosed
    · rw [hbytes, append_nil]
      exact h.quiet hq
    · exact (h.ignore hclosed _).quiet hq
  | some s₁ =>
    rw [step_of_prepare hp]
    exact prepare_keeps hp h

theorem keeps_run (h : Keeps D W s) {es : List Event} (hes : ∀ e ∈ es, e.Late) :
    Keeps D (W ++ written es) (run shellV2 s es) := by
  induction es generalizing s W with
  | nil => simpa [written, run] using h
  | cons e es ih =>
    have hstep : Keeps D (W ++ e.bytes) (step shellV2 s e) := keeps_step h (hes e mem_cons_self)
    have hrest := ih hstep fun e he => hes e (mem_cons_of_mem _ he)
    simpa [written, run, append_assoc] using hrest

/-! Acknowledgements bring out what waits. -/

theorem Shell.Keeps.six_le (h : Keeps D W s) : 6 ≤ s.maxData := by
  have hseven := D.seven_le
  rw [h.maxData, maxPayload]
  omega

theorem step_okay_opens (h : Keeps D W s) (hm : m.cmd = .okay) (hready : s.ready = false) :
    (step shellV2 s (.message m)).ready = true ∧
      (step shellV2 s (.message m)).waiting ≤ s.waiting + 1 ∧
      (step shellV2 s (.message m)).socketOpen = s.socketOpen ∧
      (step shellV2 s (.message m)).closed = s.closed := by
  have hp : prepare s (.message m)
      = some { s with remote := m.arg0, ready := true, resizePending := s.v2 } := by
    simp [prepare, hm, hready]
  rw [step_of_prepare hp]
  set s₁ : Shell := { s with remote := m.arg0, ready := true, resizePending := s.v2 } with hs₁
  obtain ⟨-, hr, -, hopen, hclosed⟩ := s₁.pump_frame
  have hle : s₁.pump.waiting ≤ s₁.waiting := waiting_pump_le h.six_le
  have hwaiting : s₁.waiting ≤ s.waiting + 1 := by
    have hbit := Bool.toNat_le (s.v2 && s.v2)
    simp only [waiting, hs₁]
    omega
  exact ⟨hr, le_trans hle hwaiting, hopen, hclosed⟩

theorem step_okay_next (h : Keeps D W s) (hm : m.cmd = .okay) (hready : s.ready = true) :
    (step shellV2 s (.message m)).ready = true ∧
      (step shellV2 s (.message m)).waiting = s.waiting - 1 ∧
      (step shellV2 s (.message m)).socketOpen = s.socketOpen ∧
      (step shellV2 s (.message m)).closed = s.closed := by
  have hp : prepare s (.message m) = some { s with writing := false } := by
    simp [prepare, hm, hready]
  rw [step_of_prepare hp]
  obtain ⟨-, hr, -, hopen, hclosed⟩ := pump_frame { s with writing := false }
  refine ⟨hr.trans hready, ?_, hopen, hclosed⟩
  exact waiting_pump (s := { s with writing := false }) h.six_le rfl hready

theorem late_message (hm : m.cmd = .okay) : (Event.message m).Late := by
  rw [Event.Late, hm]
  decide

theorem run_okays (h : Keeps D W s) (hready : s.ready = true) (hoks : ∀ m ∈ oks, m.cmd = .okay) :
    (run shellV2 s (oks.map .message)).waiting ≤ s.waiting - oks.length ∧
      (run shellV2 s (oks.map .message)).socketOpen = s.socketOpen ∧
      (run shellV2 s (oks.map .message)).closed = s.closed := by
  induction oks generalizing s with
  | nil => simp [run]
  | cons m oks ih =>
    have hm : m.cmd = .okay := hoks m mem_cons_self
    have hkeeps : Keeps D W (step shellV2 s (.message m)) := by
      simpa [Event.bytes] using keeps_step h (late_message hm)
    obtain ⟨hready', hwaiting, hopen, hclosed⟩ := step_okay_next h hm hready
    obtain ⟨hle, hopen', hclosed'⟩ :=
      ih hkeeps hready' fun m hm => hoks m (mem_cons_of_mem _ hm)
    rw [map_cons, run, foldl_cons]
    refine ⟨le_trans hle ?_, hopen'.trans hopen, hclosed'.trans hclosed⟩
    rw [hwaiting, length_cons]
    omega

/-- Enough acknowledgements, and everything is out. -/
theorem stdin_after_okays (h : Keeps D W s) (hopen : s.socketOpen = true)
    (hclosed : s.closed = false) (hoks : ∀ m ∈ oks, m.cmd = .okay)
    (hlen : s.waiting + 2 ≤ oks.length) :
    stdin D.v2 (run shellV2 s (oks.map .message)).sent = W := by
  have hrun : Keeps D W (run shellV2 s (oks.map .message)) := by
    have hlate : ∀ e ∈ oks.map Event.message, e.Late := by
      intro e he
      obtain ⟨m, hm, rfl⟩ := mem_map.mp he
      exact late_message (hoks m hm)
    have hwritten : written (oks.map Event.message) = [] := by simp [written, Event.bytes]
    simpa [hwritten] using keeps_run h hlate
  have hdone : (run shellV2 s (oks.map .message)).waiting = 0 ∧
      (run shellV2 s (oks.map .message)).socketOpen = s.socketOpen ∧
      (run shellV2 s (oks.map .message)).closed = s.closed := by
    cases hready : s.ready with
    | true =>
      obtain ⟨hle, hrest⟩ := run_okays h hready hoks
      exact ⟨by omega, hrest⟩
    | false =>
      obtain ⟨m, oks, rfl⟩ := exists_cons_of_length_pos (show 0 < oks.length by omega)
      have hm : m.cmd = .okay := hoks m mem_cons_self
      have hkeeps : Keeps D W (step shellV2 s (.message m)) := by
        simpa [Event.bytes] using keeps_step h (late_message hm)
      obtain ⟨hready', hwaiting, hopen₁, hclosed₁⟩ := step_okay_opens h hm hready
      obtain ⟨hle, hopen₂, hclosed₂⟩ :=
        run_okays hkeeps hready' fun m hm => hoks m (mem_cons_of_mem _ hm)
      rw [length_cons] at hlen
      refine ⟨?_, hopen₂.trans hopen₁, hclosed₂.trans hclosed₁⟩
      rw [map_cons, run, foldl_cons]
      exact Nat.le_zero.mp (le_trans hle (by omega))
  obtain ⟨hwaiting, hopen', hclosed'⟩ := hdone
  obtain ⟨ignored, hW, hignored⟩ := hrun.queued (hopen'.trans hopen)
  rw [outq_of_waiting hwaiting, hignored (hclosed'.trans hclosed)] at hW
  simpa using hW

/-! Before the device answers. -/

/-- The client that has not been answered, the user having written `W`. -/
structure Fresh (W : List UInt8) (s : Shell) : Prop where
  ready : s.ready = false
  v2 : s.v2 = false
  sent : ∀ m ∈ s.sent, m.cmd ≠ .wrte ∧ (m.cmd = .cnxn ∨ m.data = [])
  queued : ∃ ignored, s.outq.flatten ++ ignored = W ∧ (s.closed = false → ignored = [])

theorem Fresh.quiet {s' : Shell} (h : Fresh W s) (hq : Quiet s s') : Fresh W s' := by
  obtain ⟨more, hsent, hmore⟩ := hq.sent
  obtain ⟨ignored, hW, hignored⟩ := h.queued
  refine ⟨hq.ready.trans h.ready, hq.v2.trans h.v2, ?_, ignored, ?_, hignored ∘ hq.closed⟩
  · rw [hsent]
    intro m hm
    rcases mem_append.mp hm with hm | hm
    · exact h.sent m hm
    · exact ⟨(hmore m hm).1, .inr (hmore m hm).2⟩
  · rw [hq.outq]
    exact hW

theorem fresh_init (cols rows : BitVec 32) : Fresh [] (init cols rows) :=
  ⟨rfl, rfl, by simp [init], [], rfl, fun _ => rfl⟩

theorem fresh_step (h : Fresh W s) (he : e.Early) : Fresh (W ++ e.bytes) (step shellV2 s e) := by
  cases e with
  | message m => exact he.elim
  | socketOpened =>
    have hbytes : Event.socketOpened.bytes = [] := rfl
    rw [hbytes, append_nil]
    refine ⟨by simpa [step] using h.ready, by simpa [step] using h.v2, ?_,
      by simpa [step] using h.queued⟩
    simp only [step, send_sent, if_true]
    intro m hm
    rcases mem_append.mp hm with hm | hm
    · exact h.sent m hm
    · rw [mem_singleton.mp hm]
      exact ⟨by decide, .inl rfl⟩
  | write x =>
    obtain ⟨ignored, hW, hignored⟩ := h.queued
    cases hclosed : s.closed with
    | true =>
      simp only [step, Shell.write, hclosed, if_true]
      refine ⟨h.ready, h.v2, h.sent, ignored ++ x, ?_, by simp [hclosed]⟩
      rw [← hW, append_assoc]
      rfl
    | false =>
      have hpump : { s with outq := s.outq ++ [x] }.pump = { s with outq := s.outq ++ [x] } := by
        simp [pump, h.ready]
      have hp : prepare s (.write x) = some { s with outq := s.outq ++ [x] } :=
        if_neg (by simp [hclosed])
      rw [step_of_prepare hp, hpump]
      refine ⟨h.ready, h.v2, h.sent, [], ?_, fun _ => rfl⟩
      rw [← hW, hignored hclosed]
      simp [Event.bytes]
  | resize c r =>
    have hp : prepare s (.resize c r) = none := by simp [prepare, h.v2]
    simpa [Event.bytes] using h.quiet (quiet_of_prepare hp trivial)
  | socketClosed =>
    simpa [Event.bytes] using h.quiet (quiet_of_prepare (e := .socketClosed) rfl trivial)
  | socketError =>
    simpa [Event.bytes] using h.quiet (quiet_of_prepare (e := .socketError) rfl trivial)
  | close =>
    simpa [Event.bytes] using h.quiet (quiet_of_prepare (e := .close) rfl trivial)

theorem fresh_run (h : Fresh W s) {es : List Event} (hes : ∀ e ∈ es, e.Early) :
    Fresh (W ++ written es) (run shellV2 s es) := by
  induction es generalizing s W with
  | nil => simpa [written, run] using h
  | cons e es ih =>
    have hstep : Fresh (W ++ e.bytes) (step shellV2 s e) :=
      fresh_step h (hes e mem_cons_self)
    have hrest := ih hstep fun e he => hes e (mem_cons_of_mem _ he)
    simpa [written, run, append_assoc] using hrest

def banner (a0 a1 : BitVec 32) (text : List UInt8) : Event := .message ⟨.cnxn, a0, a1, text⟩

theorem keeps_banner (h : Fresh W s) (a0 a1 : BitVec 32) (text : List UInt8)
    (hroomy : (service (shellV2 text)).length ≤ a1.toNat) :
    Keeps ⟨shellV2 text, a1.toNat, hroomy⟩ W (step shellV2 s (banner a0 a1 text)) := by
  have hlimit : a1 ≠ 0#32 := by
    rintro rfl
    rw [length_service] at hroomy
    split at hroomy <;> simp at hroomy
  have hmax : min maxPayload (if a1 = 0#32 then 4096 else a1.toNat) = min maxPayload a1.toNat := by
    rw [if_neg hlimit]
  obtain ⟨ignored, hW, hignored⟩ := h.queued
  set s₁ := { s with
    maxData := min maxPayload (if a1 = 0#32 then 4096 else a1.toNat), v2 := shellV2 text }.call
      (.onStatus ("connected to Android (" ++
        (if shellV2 text then "pty shell" else "legacy shell") ++ ")")) with hs₁
  have hstep : step shellV2 s (banner a0 a1 text)
      = s₁.send .open localId 0#32 (service (shellV2 text)) := rfl
  have hsent := send_sent s₁ .open localId 0#32 (service (shellV2 text))
  -- no bytes of the user have been sent
  have hstdin : stdin (shellV2 text) (step shellV2 s (banner a0 a1 text)).sent = [] := by
    refine stdin_eq_nil fun m hm => ?_
    rw [hstep, hsent] at hm
    rcases mem_append.mp hm with hm | hm
    · exact (h.sent m hm).1
    · split at hm
      case isTrue =>
        simp [mem_singleton.mp hm]
      case isFalse => cases hm
  refine ⟨by rw [hstep, send_v2]; rfl, by rw [hstep, send_maxData]; exact hmax, ?_, ?_, ?_⟩
  · rw [hstep, hsent]
    intro m hm hcmd
    rcases mem_append.mp hm with hm | hm
    · rcases (h.sent m hm).2 with hcnxn | hnil
      · exact absurd hcnxn hcmd
      · simp [hnil]
    · split at hm
      case isTrue =>
        rw [mem_singleton.mp hm]
        exact hroomy
      case isFalse => cases hm
  · rw [hstdin]
    exact nil_prefix
  · intro _
    rw [hstdin, hstep, send_outq, send_closed]
    exact ⟨ignored, hW, hignored⟩

/-! Whole sessions. -/

/-- What is asked of the client over a session with a device that announces `a1`. -/
structure Behaves (shellV2 : List UInt8 → Bool) (cols rows a1 : BitVec 32) (v2 : Bool)
    (es : List Event) : Prop where
  outstanding_le : outstanding shellV2 (init cols rows) 0 es ≤ 1
  within : ∀ m ∈ (run shellV2 (init cols rows) es).sent, m.cmd ≠ .cnxn →
    m.data.length ≤ a1.toNat
  leads : stdin v2 (run shellV2 (init cols rows) es).sent <+: written es
  completes : (run shellV2 (init cols rows) es).socketOpen = true →
    (run shellV2 (init cols rows) es).closed = false →
      ∃ n, ∀ oks : List Msg, (∀ m ∈ oks, m.cmd = .okay) → n ≤ oks.length →
        stdin v2 (run shellV2 (run shellV2 (init cols rows) es) (oks.map .message)).sent
          = written es

/-- The client behaves over every session if and only if the device's limit leaves
room for the name of the service. -/
theorem client_behaves_iff (shellV2 : List UInt8 → Bool) (a0 a1 : BitVec 32)
    (text : List UInt8) :
    (∀ cols rows pre post, (∀ e ∈ pre, e.Early) → (∀ e ∈ post, e.Late) →
      Behaves shellV2 cols rows a1 (shellV2 text) (pre ++ banner a0 a1 text :: post)) ↔
        (service (shellV2 text)).length ≤ a1.toNat := by
  constructor
  · intro h
    have hopen := (h 0#32 0#32 [.socketOpened] [] (by simp [Event.Early]) (by simp)).within
    exact hopen ⟨.open, localId, 0#32, service (shellV2 text)⟩
      (by simp [run, step, banner, Shell.handle, send_sent, Shell.call]) (by simp)
  · intro hroomy cols rows pre post hpre hpost
    have hfresh : Fresh (written pre) (run shellV2 (init cols rows) pre) := by
      simpa using fresh_run (fresh_init cols rows) hpre
    have hbanner := keeps_banner hfresh a0 a1 text hroomy
    have hkeeps : Keeps _ (written pre ++ written post) (run shellV2 _ post) :=
      keeps_run hbanner hpost
    have hrun : run shellV2 (init cols rows) (pre ++ banner a0 a1 text :: post)
        = run shellV2 (step shellV2 (run shellV2 (init cols rows) pre) (banner a0 a1 text))
          post := by
      simp [run]
    have hwritten : written pre ++ written post
        = written (pre ++ banner a0 a1 text :: post) := by
      simp [written, banner, Event.bytes]
    rw [hwritten, ← hrun] at hkeeps
    refine ⟨outstanding_le (Nat.zero_le _) _, hkeeps.within, hkeeps.sent_leads, ?_⟩
    intro hopen hclosed
    exact ⟨_, fun oks hoks hlen => stdin_after_okays hkeeps hopen hclosed hoks hlen⟩

/-- A device with shell v2 that takes five bytes; the user writes one. -/
def narrowSession : List Event :=
  [.socketOpened, banner 0#32 5#32 [], .message ⟨.okay, 7#32, 1#32, []⟩, .write [65]]

def narrowStart : Shell := run (fun _ => true) (init 0#32 0#32) narrowSession

/-- With five bytes the chunk is put back whole, and an empty packet goes out. -/
theorem narrow_stalls {s : Shell} (hv2 : s.v2 = true) (hready : s.ready = true)
    (hmax : s.maxData = 5) (hq : s.outq = [[65]]) (hsent : stdin true s.sent = [])
    (hresize : s.resizePending = false) (hoks : ∀ m ∈ oks, m.cmd = .okay) :
    stdin true (run shellV2 s (oks.map .message)).sent = [] := by
  induction oks generalizing s with
  | nil => exact hsent
  | cons m oks ih =>
    have hp : prepare s (.message m) = some { s with writing := false } := by
      simp [prepare, hoks m mem_cons_self, hready]
    have hpump : ({ s with writing := false } : Shell).pump
        = ({ s with writing := false } : Shell).pumpChunk [65] [] := by
      rcases pump_cases { s with writing := false } with ⟨hbusy, -⟩ | ⟨-, -, ⟨hwindow, -⟩ |
        ⟨⟨-, hnil⟩, -⟩ | ⟨chunk, rest, -, hq', heq⟩⟩
      · simp [hready] at hbusy
      · simp [hresize] at hwindow
      · simp [hq] at hnil
      · obtain ⟨rfl, rfl⟩ : [65] = chunk ∧ [] = rest := by simpa [hq] using hq'
        exact heq
    have hcut : cut 5 [65] = ([], some [65]) := by decide
    rw [map_cons, run, foldl_cons, step_of_prepare hp, hpump]
    refine ih ?_ ?_ ?_ ?_ ?_ ?_ fun m hm => hoks m (mem_cons_of_mem _ hm)
    · simpa [pumpChunk] using hv2
    · simpa [pumpChunk] using hready
    · simpa [pumpChunk] using hmax
    · simp [pumpChunk, hmax, hcut]
    · have hempty : stdinPayload true ⟨.wrte, localId, s.remote, v2packet 0 []⟩ = [] :=
        stdinPayload_data true _ _ (by decide)
      rw [pumpChunk, send_sent, stdin_append, hsent, nil_append]
      simp only [hmax, hv2, hcut, if_true]
      split
      · simp [stdin, hempty]
      · rfl
    · simpa [pumpChunk] using hresize

/-- To a device that announces five bytes, more than that is sent, and no number of
acknowledgements gets the user's byte across. -/
theorem narrow_device_fails :
    (∃ m ∈ narrowStart.sent, m.cmd = .wrte ∧ 5 < m.data.length) ∧ written narrowSession = [65] ∧
      ∀ oks : List Msg, (∀ m ∈ oks, m.cmd = .okay) →
        stdin true (run (fun _ => true) narrowStart (oks.map .message)).sent = [] := by
  refine ⟨by decide, by decide, fun oks hoks => ?_⟩
  exact narrow_stalls rfl rfl rfl rfl (by decide) rfl hoks

end Bootbox.Adb
