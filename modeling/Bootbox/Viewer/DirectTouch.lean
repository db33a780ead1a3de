import Mathlib.Data.List.Chain
import Mathlib.Data.Rat.Defs
import Bootbox.Lib.Trace

/-!
Pointer input of a touchscreen guest (`installDirectTouch`, `makeFinger`, `__bbPan` and
`installPointerDither` of `run.js`), in a session with a framebuffer of one size. The canvas
has no area before the viewer is connected, so every event on it comes in a connected session.

Three sources share the guest's one finger: touches, the mouse, and scrolling, which comes
from the DOM or from the host app. Each has a variable of its own that says whether it has
the finger down (`id`, `mouseId`, `pan`). The invariant is that at most one of them is set,
to what the last press was by, and that the finger is down iff one is. Then what is sent
is a sequence of contacts, each pressed and released by one source.

Moves are sent by a timer, at most one for 25 ms, and on a release. All pressed events
pass through a filter that nudges a coordinate equal to the last pressed one.
-/

namespace Bootbox.Viewer

open Lib.Trace List Option

structure View where
  w : ℤ
  h : ℤ
  two_le_w : 2 ≤ w
  two_le_h : 2 ≤ h

abbrev Pt := ℤ × ℤ

def View.Inside (v : View) (p : Pt) : Prop := 0 ≤ p.1 ∧ p.1 < v.w ∧ 0 ≤ p.2 ∧ p.2 < v.h

/-- `canvas.getBoundingClientRect()` -/
structure Rect where
  left : ℚ
  top : ℚ
  right : ℚ
  bottom : ℚ
  width : ℚ
  height : ℚ

/-- `Math.max(0, Math.min(w - 1, Math.round((c - start) * w / (size || 1))))` -/
def scaled (w : ℤ) (c start size : ℚ) : ℤ :=
  max 0 (min (w - 1) ((c - start) * w / (if size = 0 then 1 else size) + 1 / 2).floor)

def fbPoint (v : View) (b : Rect) (cx cy : ℚ) : Pt :=
  (scaled v.w cx b.left b.width, scaled v.h cy b.top b.height)

theorem scaled_bounds {w : ℤ} (hw : 2 ≤ w) (c start size : ℚ) :
    0 ≤ scaled w c start size ∧ scaled w c start size < w := by
  rw [scaled]
  omega

theorem inside_fbPoint (v : View) (b : Rect) (cx cy : ℚ) : v.Inside (fbPoint v b cx cy) :=
  ⟨(scaled_bounds v.two_le_w ..).1, (scaled_bounds v.two_le_w ..).2,
    (scaled_bounds v.two_le_h ..).1, (scaled_bounds v.two_le_h ..).2⟩

/-! ### The finger -/

/-- Who has the finger down: a touch, a mouse pointer, or scrolling. -/
inductive Owner
  | touch (identifier : ℤ)
  | mouse (pointerId : ℤ)
  | scroll
deriving DecidableEq

inductive Kind
  | press (o : Owner)
  | move
  | release (o : Owner)
deriving DecidableEq

/-- A pointer event as it is given to `pointerEvent`; `mask` is 0 for a release and else 1. -/
structure Sent where
  kind : Kind
  point : Pt
deriving DecidableEq

def Sent.pressed (e : Sent) : Bool :=
  match e.kind with
  | .release _ => false
  | _ => true

/-- The variables of `makeFinger`, and whether the timer is set. -/
structure Finger where
  pos : Option Pt
  sent : Option Pt
  timer : Bool
deriving DecidableEq

namespace Finger

def flush (f : Finger) : Finger × List Sent :=
  match f.pos with
  | none => ({ f with timer := false }, [])
  | some p =>
    if f.sent = some p then ({ f with timer := false }, [])
    else (⟨some p, some p, false⟩, [⟨.move, p⟩])

def press (f : Finger) (o : Owner) (p : Pt) : Finger × List Sent :=
  (⟨some p, some p, f.timer⟩, [⟨.press o, p⟩])

def move (f : Finger) (p : Pt) : Finger :=
  match f.pos with
  | none => f
  | some _ => { f with pos := some p, timer := true }

def release (f : Finger) (o : Owner) (p : Option Pt) : Finger × List Sent :=
  match f.pos with
  | none => (f, [])
  | some q =>
    let (f, sent) := flush { f with pos := some (p.getD q) }
    (⟨none, none, f.timer⟩, sent ++ [⟨.release o, p.getD q⟩])

end Finger

/-! ### The handlers -/

structure Pan where
  x : ℚ
  y : ℚ
  native : Bool

structure State where
  finger : Finger
  id : Option ℤ
  mouseId : Option ℤ
  pan : Option Pan
  /-- The timer of the last wheel event is set. -/
  wheelEnd : Bool
  lastDomWheel : ℕ
  lastHover : Option (ℚ × ℚ)
  /-- What has been sent. -/
  log : List Sent

def start : State := ⟨⟨none, none, false⟩, none, none, none, false, 0, none, []⟩

namespace State

def down (s : State) : Bool := s.finger.pos.isSome

def call (s : State) (r : Finger × List Sent) : State :=
  { s with finger := r.1, log := s.log ++ r.2 }

end State

structure Touch where
  identifier : ℤ
  clientX : ℚ
  clientY : ℚ

inductive Phase
  | start
  | change
  | finish
deriving DecidableEq

/-- `if (pan && pan.touch && ..) release(null); pan = null;` -/
def endPan (s : State) : State :=
  match s.pan with
  | none => s
  | some _ => { s.call (s.finger.release .scroll none) with pan := none }

/-- Where a scroll starts: at the point given or, if that is outside, at the last hover. -/
def panStart (b : Rect) (hover : Option (ℚ × ℚ)) (x y : ℚ) : Option (ℚ × ℚ) :=
  let inside (p : ℚ × ℚ) : Bool := b.left ≤ p.1 ∧ p.1 < b.right ∧ b.top ≤ p.2 ∧ p.2 < b.bottom
  if inside (x, y) then some (x, y) else hover.filter inside

def bbPan (v : View) (now : ℕ) (b : Rect) (native : Bool) (phase : Phase) (x y dx dy : ℚ)
    (s : State) : State :=
  if native = true ∧ (now : ℤ) - s.lastDomWheel < 500 then
    -- the DOM path is handling it
    match s.pan with
    | some ⟨_, _, true⟩ => endPan s
    | _ => s
  else
    match phase with
    | .start =>
      let s := endPan s
      match panStart b s.lastHover x y with
      | none => s
      | some (x, y) =>
        if s.down then s
        else { s.call (s.finger.press .scroll (fbPoint v b x y)) with pan := some ⟨x, y, native⟩ }
    | .change =>
      match s.pan with
      | none => s
      | some p =>
        { s with
          pan := some ⟨p.x + dx, p.y + dy, p.native⟩
          finger := s.finger.move (fbPoint v b (p.x + dx) (p.y + dy)) }
    | .finish => endPan s

/-- An event of the page, the host app or a timer. Those of the page say where the canvas is
and whether it is their target. -/
inductive Event
  | touchstart (onCanvas : Bool) (b : Rect) (t : Touch) (others : List Touch)
  | touchmove (onCanvas : Bool) (b : Rect) (changed : List Touch)
  /-- `touchend` or `touchcancel` -/
  | touchend (onCanvas : Bool) (b : Rect) (changed : List Touch)
  | pointerdown (onCanvas isMouse : Bool) (b : Rect) (button : ℕ) (pointerId : ℤ) (x y : ℚ)
  | pointermove (isMouse : Bool) (b : Rect) (pointerId : ℤ) (x y : ℚ)
  /-- `pointerup` or `pointercancel` -/
  | pointerup (isMouse cancel : Bool) (b : Rect) (pointerId : ℤ) (x y : ℚ)
  | wheel (now : ℕ) (onCanvas : Bool) (b : Rect) (deltaMode : ℕ) (x y deltaX deltaY : ℚ)
  /-- A call of `__bbPan` by the host app. -/
  | pan (now : ℕ) (b : Rect) (phase : Phase) (x y dx dy : ℚ)
  | flush
  | wheelTimer (now : ℕ) (b : Rect)

def find (id : Option ℤ) (changed : List Touch) : Option Touch :=
  changed.find? fun t => some t.identifier = id

def step (v : View) (s : State) : Event → Option State
  | .touchstart onCanvas b t _ =>
    if onCanvas = false ∨ s.id.isSome ∨ s.down then some s
    else
      some { s.call (s.finger.press (.touch t.identifier) (fbPoint v b t.clientX t.clientY)) with
        id := some t.identifier }
  | .touchmove onCanvas b changed =>
    match if onCanvas then find s.id changed else none with
    | none => some s
    | some t => some { s with finger := s.finger.move (fbPoint v b t.clientX t.clientY) }
  | .touchend onCanvas b changed =>
    match if onCanvas then find s.id changed else none with
    | none => some s
    | some t =>
      some { s.call (s.finger.release (.touch t.identifier)
          (some (fbPoint v b t.clientX t.clientY))) with id := none }
  | .pointerdown onCanvas isMouse b button pointerId x y =>
    -- the secondary button sends a key and no pointer event
    if isMouse = false ∨ onCanvas = false ∨ button ≠ 0 ∨ s.mouseId.isSome ∨ s.down then some s
    else
      some { s.call (s.finger.press (.mouse pointerId) (fbPoint v b x y)) with
        mouseId := some pointerId }
  | .pointermove isMouse b pointerId x y =>
    if isMouse then
      let s := { s with lastHover := some (x, y) }
      if s.mouseId = some pointerId then
        some { s with finger := s.finger.move (fbPoint v b x y) }
      else some s
    else some s
  | .pointerup isMouse cancel b pointerId x y =>
    if isMouse = true ∧ s.mouseId = some pointerId then
      some { s.call (s.finger.release (.mouse pointerId)
          (if cancel then none else some (fbPoint v b x y))) with mouseId := none }
    else some s
  | .wheel now onCanvas b deltaMode x y deltaX deltaY =>
    let s := { s with lastDomWheel := now }
    if onCanvas then
      let k : ℚ := if deltaMode = 1 then 40 else if deltaMode = 2 then 400 else 1
      let s := if s.pan.isSome then s else bbPan v now b false .start x y 0 0 s
      some { bbPan v now b false .change x y (-deltaX * k) (-deltaY * k) s with wheelEnd := true }
    else some s
  | .pan now b phase x y dx dy => some (bbPan v now b true phase x y dx dy s)
  | .flush => if s.finger.timer then some (s.call s.finger.flush) else none
  | .wheelTimer now b =>
    if s.wheelEnd then some { bbPan v now b false .finish 0 0 0 0 s with wheelEnd := false }
    else none

def Steps (v : View) (s : State) (e : Event) (s' : State) : Prop := step v s e = some s'

/-! ### Contacts -/

/-- Who has the finger down after these events, if they are contacts one after the other, each
released by who pressed it. -/
def contact : Option Owner → List Sent → Option (Option Owner)
  | holder, [] => some holder
  | none, ⟨.press o, _⟩ :: rest => contact (some o) rest
  | some o, ⟨.move, _⟩ :: rest => contact (some o) rest
  | some o, ⟨.release o', _⟩ :: rest => if o' = o then contact none rest else none
  | _, _ :: _ => none

/-- A call of `__bbPan` ends the scroll that has the finger down. -/
def panEnds (s : State) (holder : Option Owner) (now : ℕ) (native : Bool) (phase : Phase) : Bool :=
  decide (holder = some .scroll) &&
    if native = true ∧ (now : ℤ) - s.lastDomWheel < 500 then (s.pan.map Pan.native).getD false
    else decide (phase ≠ .change)

/-- The event ends what has the finger down: the touch or the pointer goes up or is cancelled, or
the scroll ends, starts anew, or passes from the host app to the DOM. -/
def Ends (s : State) (holder : Option Owner) : Event → Bool
  | .touchend onCanvas _ changed =>
    match holder with
    | some (.touch k) => onCanvas && changed.any (·.identifier = k)
    | _ => false
  | .pointerup isMouse _ _ pointerId _ _ => isMouse && decide (holder = some (.mouse pointerId))
  | .pan now _ phase _ _ _ _ => panEnds s holder now true phase
  | .wheelTimer now _ => panEnds s holder now false .finish
  | _ => false

def releases (log : List Sent) : ℕ := log.countP fun e => !e.pressed

/-! ### The filter -/

/-- A coordinate other than the last pressed one. -/
def nudge (w last x : ℤ) : ℤ := if x = last then if x + 1 < w then x + 1 else x - 1 else x

/-- What the wrapped `pointerEvent` sends: whether pressed, and where. -/
def dithered (v : View) : Pt → List Sent → List (Bool × Pt)
  | _, [] => []
  | last, e :: rest =>
    if e.pressed then
      let p := (nudge v.w last.1 e.point.1, nudge v.h last.2 e.point.2)
      (true, p) :: dithered v p rest
    else (false, e.point) :: dithered v last rest

def pressedPoints (v : View) (log : List Sent) : List Pt :=
  ((dithered v (-1, -1) log).filter (·.1)).map (·.2)

theorem nudge_ne (w last x : ℤ) : nudge w last x ≠ last := by
  rw [nudge]
  split_ifs <;> omega

theorem nudge_bounds {w x : ℤ} (last : ℤ) (hw : 2 ≤ w) (hx : 0 ≤ x ∧ x < w) :
    0 ≤ nudge w last x ∧ nudge w last x < w := by
  rw [nudge]
  split_ifs <;> omega

theorem isChain_dithered (v : View) (last : Pt) (log : List Sent) :
    List.IsChain (fun p q : Pt => p.1 ≠ q.1 ∧ p.2 ≠ q.2)
      (last :: ((dithered v last log).filter (·.1)).map (·.2)) := by
  induction log generalizing last with
  | nil => exact isChain_singleton last
  | cons e log ih =>
    rw [dithered]
    split
    · exact isChain_cons_cons.mpr
        ⟨⟨(nudge_ne _ _ _).symm, (nudge_ne _ _ _).symm⟩, ih _⟩
    · exact ih last

theorem inside_dithered {v : View} {last : Pt} {log : List Sent}
    (hlog : ∀ e ∈ log, v.Inside e.point) : ∀ d ∈ dithered v last log, v.Inside d.2 := by
  induction log generalizing last with
  | nil => simp [dithered]
  | cons e log ih =>
    rw [forall_mem_cons] at hlog
    obtain ⟨h₁, h₂, h₃, h₄⟩ := hlog.1
    rw [dithered]
    split
    · refine forall_mem_cons.mpr ⟨?_, ih hlog.2⟩
      obtain ⟨hx₁, hx₂⟩ := nudge_bounds last.1 v.two_le_w ⟨h₁, h₂⟩
      obtain ⟨hy₁, hy₂⟩ := nudge_bounds last.2 v.two_le_h ⟨h₃, h₄⟩
      exact ⟨hx₁, hx₂, hy₁, hy₂⟩
    · exact forall_mem_cons.mpr ⟨hlog.1, ih hlog.2⟩

/-! ### The invariant -/

/-- The sources' variables say that this one has the finger down. -/
structure Vars (s : State) (holder : Option Owner) : Prop where
  id : ∀ k, s.id = some k ↔ holder = some (.touch k)
  mouseId : ∀ k, s.mouseId = some k ↔ holder = some (.mouse k)
  pan : s.pan.isSome ↔ holder = some .scroll
  pos : s.finger.pos.isSome ↔ holder.isSome

structure Good (v : View) (s : State) (holder : Option Owner) : Prop where
  vars : Vars s holder
  contact : contact none s.log = some holder
  log : ∀ e ∈ s.log, v.Inside e.point
  pos : ∀ p, s.finger.pos = some p → v.Inside p

/-- What an event does: it ends in a good state, with so many releases sent. -/
structure Goes (v : View) (s s' : State) (holder : Option Owner) (n : ℕ) : Prop where
  good : Good v s' holder
  log : ∃ sent, s'.log = s.log ++ sent ∧ releases sent = n

theorem contact_append (holder : Option Owner) (l l' : List Sent) :
    contact holder (l ++ l') = (contact holder l).bind (contact · l') := by
  induction l generalizing holder with
  | nil => simp [contact]
  | cons e l ih =>
    obtain ⟨kind, p⟩ := e
    cases holder <;> cases kind <;> simp [contact, ih]
    split <;> simp

section

variable {v : View} {s s' s'' : State} {holder holder' : Option Owner} {o : Owner} {p : Pt}
variable {n m : ℕ}

theorem Goes.trans (h : Goes v s s' holder n) (h' : Goes v s' s'' holder' m) :
    Goes v s s'' holder' (n + m) := by
  obtain ⟨sent, hlog, hn⟩ := h.log
  obtain ⟨sent', hlog', hm⟩ := h'.log
  refine ⟨h'.good, sent ++ sent', by rw [hlog', hlog, append_assoc], ?_⟩
  rw [releases, countP_append]
  exact congrArg₂ _ hn hm

/-- Some events are sent. -/
theorem Good.goes (h : Good v s holder) (sent : List Sent) (hlog : s'.log = s.log ++ sent)
    (hvars : Vars s' holder') (hcontact : Viewer.contact holder sent = some holder')
    (hsent : ∀ e ∈ sent, v.Inside e.point) (hpos : ∀ q, s'.finger.pos = some q → v.Inside q) :
    Goes v s s' holder' (releases sent) := by
  refine ⟨⟨hvars, ?_, ?_, hpos⟩, sent, hlog, rfl⟩
  · rw [hlog, contact_append, h.contact]
    exact hcontact
  · rw [hlog]
    exact forall_mem_append.mpr ⟨h.log, hsent⟩

theorem Good.quiet (h : Good v s holder) (hlog : s'.log = s.log) (hvars : Vars s' holder)
    (hpos : ∀ q, s'.finger.pos = some q → v.Inside q) : Goes v s s' holder 0 :=
  h.goes [] (by simp [hlog]) hvars rfl (by simp) hpos

theorem Good.press (h : Good v s none) (hp : v.Inside p)
    (hfinger : s'.finger = (s.finger.press o p).1) (hlog : s'.log = s.log ++ (s.finger.press o p).2)
    (hvars : Vars s' (some o)) : Goes v s s' (some o) 0 := by
  refine h.goes _ hlog hvars rfl (by simpa [Finger.press] using hp) ?_
  rw [hfinger]
  rintro q ⟨⟩
  exact hp

theorem Finger.pos_flush (f : Finger) : f.flush.1.pos = f.pos := by
  rw [flush]
  split
  · rfl
  next hpos =>
    split
    · rfl
    · exact hpos.symm

theorem Finger.sent_flush (f : Finger) :
    f.flush.2 = [] ∨ ∃ q, f.pos = some q ∧ f.flush.2 = [⟨.move, q⟩] := by
  rw [flush]
  split
  · exact Or.inl rfl
  next q hpos =>
    split
    · exact Or.inl rfl
    · exact Or.inr ⟨q, hpos, rfl⟩

theorem Good.flush (h : Good v s holder) (hfinger : s'.finger = s.finger.flush.1)
    (hlog : s'.log = s.log ++ s.finger.flush.2) (hvars : Vars s' holder) :
    Goes v s s' holder 0 := by
  have hpos : s'.finger.pos = s.finger.pos := by rw [hfinger, Finger.pos_flush]
  obtain hsent | ⟨q, hq, hsent⟩ := s.finger.sent_flush
  · exact h.quiet (by rw [hlog, hsent, append_nil]) hvars (hpos ▸ h.pos)
  · obtain ⟨o, rfl⟩ := isSome_iff_exists.mp (h.vars.pos.mp (by simp [hq]))
    rw [hsent] at hlog
    exact h.goes _ hlog hvars rfl (by simpa using h.pos q hq) (hpos ▸ h.pos)

theorem Finger.pos_move (f : Finger) (p : Pt) : (f.move p).pos = f.pos.map fun _ => p := by
  rw [move]
  split
  next hpos => simp [hpos]
  next hpos => simp [hpos]

theorem Good.move (h : Good v s holder) (hp : v.Inside p) (hfinger : s'.finger = s.finger.move p)
    (hlog : s'.log = s.log) (hvars : Vars s' holder) : Goes v s s' holder 0 := by
  refine h.quiet hlog hvars fun q hq => ?_
  rw [hfinger, Finger.pos_move, map_eq_some_iff] at hq
  obtain ⟨_, _, rfl⟩ := hq
  exact hp

/-- A release sends the last move, if it was not sent yet, and then itself. -/
theorem Finger.release_eq {f : Finger} {q : Pt} (hq : f.pos = some q) (o : Owner)
    (p : Option Pt) :
    (f.release o p).1.pos = none ∧
      ((f.release o p).2 = [⟨.release o, p.getD q⟩] ∨
        (f.release o p).2 = [⟨.move, p.getD q⟩, ⟨.release o, p.getD q⟩]) := by
  rw [release, hq]
  refine ⟨rfl, ?_⟩
  obtain hsent | ⟨q', hq', hsent⟩ := sent_flush { f with pos := some (p.getD q) }
  · exact Or.inl (by simp [hsent])
  · obtain rfl : p.getD q = q' := by simpa using hq'
    exact Or.inr (by simp [hsent])

theorem Good.release (h : Good v s (some o)) {p : Option Pt} (hp : ∀ q ∈ p, v.Inside q)
    (hfinger : s'.finger = (s.finger.release o p).1)
    (hlog : s'.log = s.log ++ (s.finger.release o p).2) (hvars : Vars s' none) :
    Goes v s s' none 1 := by
  obtain ⟨q, hq⟩ := isSome_iff_exists.mp (h.vars.pos.mpr rfl)
  obtain ⟨hpos, hsent⟩ := Finger.release_eq hq o p
  have hin : v.Inside (p.getD q) := by
    cases p with
    | none => exact h.pos q hq
    | some p => exact hp p rfl
  have hup : ∀ q, s'.finger.pos = some q → v.Inside q := by simp [hfinger, hpos]
  obtain hsent | hsent := hsent <;> rw [hsent] at hlog
  · exact h.goes _ hlog hvars (by simp [Viewer.contact]) (by simpa using hin) hup
  · exact h.goes _ hlog hvars (by simp [Viewer.contact]) (by simpa using hin) hup

theorem Vars.id_none (h : Vars s holder) (hne : ∀ k, holder ≠ some (.touch k)) : s.id = none :=
  eq_none_iff_forall_ne_some.mpr fun k hk => hne k ((h.id k).mp hk)

theorem Vars.mouseId_none (h : Vars s holder) (hne : ∀ k, holder ≠ some (.mouse k)) :
    s.mouseId = none :=
  eq_none_iff_forall_ne_some.mpr fun k hk => hne k ((h.mouseId k).mp hk)

theorem Vars.pan_none (h : Vars s holder) (hne : holder ≠ some .scroll) : s.pan = none := by
  simpa using mt h.pan.mp hne

theorem vars_none (hid : s.id = none) (hmouse : s.mouseId = none) (hpan : s.pan = none)
    (hpos : s.finger.pos = none) : Vars s none := by
  constructor <;> simp [hid, hmouse, hpan, hpos]

theorem Good.eq_none (h : Good v s holder) (hup : ¬ s.down = true) : holder = none := by
  simpa using fun hsome => hup (h.vars.pos.mpr hsome)

theorem Good.release_pos (h : Good v s (some o)) (p : Option Pt) :
    (s.finger.release o p).1.pos = none := by
  obtain ⟨q, hq⟩ := isSome_iff_exists.mp (h.vars.pos.mpr rfl)
  exact (Finger.release_eq hq o p).1

theorem Good.endPan_scroll (h : Good v s (some .scroll)) : Goes v s (endPan s) none 1 := by
  obtain ⟨p, hp⟩ := isSome_iff_exists.mp (h.vars.pan.mpr rfl)
  have heq : endPan s = { s.call (s.finger.release .scroll none) with pan := none } := by
    rw [endPan, hp]
  rw [heq]
  exact h.release (by simp) rfl rfl (vars_none (h.vars.id_none (by simp))
    (h.vars.mouseId_none (by simp)) rfl (h.release_pos none))

theorem Good.endPan (h : Good v s holder) :
    ∃ holder', holder' ≠ some .scroll ∧
      Goes v s (endPan s) holder' (if holder = some .scroll then 1 else 0) := by
  by_cases hne : holder = some .scroll
  · subst hne
    exact ⟨none, by simp, h.endPan_scroll⟩
  · rw [Viewer.endPan, h.vars.pan_none hne, if_neg hne]
    exact ⟨holder, hne, h.quiet rfl h.vars h.pos⟩

theorem Good.pressScroll (h : Good v s holder) (b : Rect) (x y : ℚ) (native : Bool)
    (hup : ¬ s.down = true) :
    Goes v s { s.call (s.finger.press .scroll (fbPoint v b x y)) with pan := some ⟨x, y, native⟩ }
      (some .scroll) 0 := by
  obtain rfl := h.eq_none hup
  refine h.press (inside_fbPoint v b x y) rfl rfl
    ⟨?_, ?_, by simp, by simp [State.call, Finger.press]⟩
  · simp [State.call, h.vars.id_none]
  · simp [State.call, h.vars.mouseId_none]

theorem Good.moveScroll (h : Good v s holder) {p : Pan} (hp : s.pan = some p) (b : Rect) (x y : ℚ) :
    Goes v s { s with pan := some ⟨x, y, p.native⟩, finger := s.finger.move (fbPoint v b x y) }
      holder 0 :=
  h.move (inside_fbPoint v b x y) rfl rfl
    ⟨h.vars.id, h.vars.mouseId, by simpa [hp] using h.vars.pan,
      by simpa [Finger.pos_move] using h.vars.pos⟩

theorem Good.bbPan (h : Good v s holder) (now : ℕ) (b : Rect) (native : Bool) (phase : Phase)
    (x y dx dy : ℚ) :
    ∃ holder', Goes v s (bbPan v now b native phase x y dx dy s) holder'
      (if panEnds s holder now native phase then 1 else 0) := by
  unfold Viewer.bbPan panEnds
  split
  · split
    next hpan =>
      obtain ⟨holder', -, hgoes⟩ := h.endPan
      exact ⟨holder', by simpa [hpan] using hgoes⟩
    next hpan =>
      have hnot : (s.pan.map Pan.native).getD false = false := by
        rcases hp : s.pan with _ | ⟨_, _, _ | _⟩
        · rfl
        · rfl
        · exact absurd hp (hpan _ _)
      exact ⟨holder, by simpa [hnot] using h.quiet rfl h.vars h.pos⟩
  · cases phase with
    | start =>
      obtain ⟨holder', -, hgoes⟩ := h.endPan
      dsimp only
      split
      · exact ⟨holder', by simpa using hgoes⟩
      · split
        · exact ⟨holder', by simpa using hgoes⟩
        next hup => exact ⟨_, by simpa using hgoes.trans (hgoes.good.pressScroll b _ _ native hup)⟩
    | change =>
      dsimp only
      split
      · exact ⟨holder, by simpa using h.quiet rfl h.vars h.pos⟩
      next p hp =>
        exact ⟨holder, by simpa using h.moveScroll hp b _ _⟩
    | finish =>
      obtain ⟨holder', -, hgoes⟩ := h.endPan
      exact ⟨holder', by simpa using hgoes⟩

/-- A change in what no source's variable or the log says. -/
theorem Good.unchanged (h : Good v s holder) (hid : s'.id = s.id) (hmouse : s'.mouseId = s.mouseId)
    (hpan : s'.pan = s.pan) (hfinger : s'.finger = s.finger) (hlog : s'.log = s.log) :
    Goes v s s' holder 0 :=
  h.quiet hlog ⟨hid ▸ h.vars.id, hmouse ▸ h.vars.mouseId, hpan ▸ h.vars.pan, hfinger ▸ h.vars.pos⟩
    (hfinger ▸ h.pos)

theorem Goes.set_wheelEnd (h : Goes v s s' holder n) (set : Bool) :
    Goes v s { s' with wheelEnd := set } holder n := by
  have hset : Goes v s' { s' with wheelEnd := set } holder 0 :=
    h.good.unchanged rfl rfl rfl rfl rfl
  exact ⟨hset.good, h.log⟩

theorem Good.moved (h : Good v s holder) (b : Rect) (x y : ℚ) :
    Goes v s { s with finger := s.finger.move (fbPoint v b x y) } holder 0 :=
  h.move (inside_fbPoint v b x y) rfl rfl
    ⟨h.vars.id, h.vars.mouseId, h.vars.pan, by simpa [Finger.pos_move] using h.vars.pos⟩

theorem Good.pressTouch (h : Good v s none) (b : Rect) (x y : ℚ) (k : ℤ) :
    Goes v s { s.call (s.finger.press (.touch k) (fbPoint v b x y)) with id := some k }
      (some (.touch k)) 0 := by
  refine h.press (inside_fbPoint v b x y) rfl rfl
    ⟨by simp, ?_, ?_, by simp [State.call, Finger.press]⟩
  · simp [State.call, h.vars.mouseId_none]
  · simp [State.call, h.vars.pan_none]

theorem Good.pressMouse (h : Good v s none) (b : Rect) (x y : ℚ) (k : ℤ) :
    Goes v s { s.call (s.finger.press (.mouse k) (fbPoint v b x y)) with mouseId := some k }
      (some (.mouse k)) 0 := by
  refine h.press (inside_fbPoint v b x y) rfl rfl
    ⟨?_, by simp, ?_, by simp [State.call, Finger.press]⟩
  · simp [State.call, h.vars.id_none]
  · simp [State.call, h.vars.pan_none]

theorem Good.releaseTouch {k : ℤ} (h : Good v s (some (.touch k))) (b : Rect) (x y : ℚ) :
    Goes v s { s.call (s.finger.release (.touch k) (some (fbPoint v b x y))) with id := none }
      none 1 :=
  h.release (by simpa using inside_fbPoint v b x y) rfl rfl
    (vars_none rfl (h.vars.mouseId_none (by simp)) (h.vars.pan_none (by simp)) (h.release_pos _))

theorem Good.releaseMouse {k : ℤ} (h : Good v s (some (.mouse k))) (b : Rect) (x y : ℚ)
    (cancel : Bool) :
    Goes v s { s.call (s.finger.release (.mouse k)
      (if cancel then none else some (fbPoint v b x y))) with mouseId := none } none 1 := by
  refine h.release ?_ rfl rfl
    (vars_none (h.vars.id_none (by simp)) rfl (h.vars.pan_none (by simp)) (h.release_pos _))
  cases cancel with
  | false => simpa using inside_fbPoint v b x y
  | true => simp

theorem Good.not_ends_touch (h : Good v s holder) {onCanvas : Bool} {changed : List Touch}
    (hfind : (if onCanvas then find s.id changed else none) = none) (b : Rect) :
    Ends s holder (.touchend onCanvas b changed) = false := by
  simp only [Ends]
  split
  next k =>
    have hid : s.id = some k := (h.vars.id k).mpr rfl
    cases onCanvas with
    | false => rfl
    | true => simpa [find, hid] using hfind
  · rfl

theorem Good.startScroll (h : Good v s holder) (now : ℕ) (b : Rect) (x y : ℚ) :
    ∃ holder', Goes v s (if s.pan.isSome then s else Viewer.bbPan v now b false .start x y 0 0 s)
      holder' 0 := by
  split
  · exact ⟨holder, h.quiet rfl h.vars h.pos⟩
  next hpan =>
    have hne : holder ≠ some .scroll := mt h.vars.pan.mpr hpan
    simpa [panEnds, hne] using h.bbPan now b false .start x y 0 0

theorem Good.step (h : Good v s holder) {e : Event} (hstep : step v s e = some s') :
    ∃ holder', Goes v s s' holder' (if Ends s holder e then 1 else 0) := by
  have hsame : Goes v s s holder 0 := h.quiet rfl h.vars h.pos
  cases e with
  | touchstart onCanvas b t others =>
    simp only [Viewer.step] at hstep
    split at hstep <;> cases hstep
    · exact ⟨holder, hsame⟩
    next hcan =>
      obtain rfl := h.eq_none fun hd => hcan (.inr (.inr hd))
      exact ⟨_, h.pressTouch b _ _ _⟩
  | touchmove onCanvas b changed =>
    simp only [Viewer.step] at hstep
    split at hstep <;> cases hstep
    · exact ⟨holder, hsame⟩
    · exact ⟨holder, h.moved b _ _⟩
  | touchend onCanvas b changed =>
    simp only [Viewer.step] at hstep
    split at hstep <;> cases hstep
    next hfind => exact ⟨holder, by simpa [h.not_ends_touch hfind] using hsame⟩
    next t hfind =>
      rw [ite_none_right_eq_some, find] at hfind
      have hid : some t.identifier = s.id := by simpa using find?_some hfind.2
      have ht := mem_of_find?_eq_some hfind.2
      obtain rfl := hfind.1
      obtain rfl := (h.vars.id _).mp hid.symm
      have hends : Ends s (some (.touch t.identifier)) (.touchend true b changed) = true := by
        simpa [Ends] using ⟨t, ht, rfl⟩
      exact ⟨none, by simpa only [hends, if_true] using h.releaseTouch b _ _⟩
  | pointerdown onCanvas isMouse b button pointerId x y =>
    simp only [Viewer.step] at hstep
    split at hstep <;> cases hstep
    · exact ⟨holder, hsame⟩
    next hcan =>
      obtain rfl := h.eq_none fun hd => hcan (.inr (.inr (.inr (.inr hd))))
      exact ⟨_, h.pressMouse b _ _ _⟩
  | pointermove isMouse b pointerId x y =>
    have hhover : Goes v s { s with lastHover := some (x, y) } holder 0 :=
      h.unchanged rfl rfl rfl rfl rfl
    simp only [Viewer.step] at hstep
    split_ifs at hstep <;> cases hstep
    · exact ⟨holder, hhover.trans (hhover.good.moved b x y)⟩
    · exact ⟨holder, hhover⟩
    · exact ⟨holder, hsame⟩
  | pointerup isMouse cancel b pointerId x y =>
    simp only [Viewer.step, h.vars.mouseId] at hstep
    split at hstep <;> cases hstep
    next hmouse =>
      obtain ⟨rfl, rfl⟩ := hmouse
      exact ⟨none, by simpa [Ends] using h.releaseMouse b x y cancel⟩
    next hmouse => exact ⟨holder, by simpa [Ends, hmouse] using hsame⟩
  | wheel now onCanvas b deltaMode x y deltaX deltaY =>
    have hwheel : Goes v s { s with lastDomWheel := now } holder 0 :=
      h.unchanged rfl rfl rfl rfl rfl
    simp only [Viewer.step] at hstep
    split at hstep <;> cases hstep
    · obtain ⟨holder₁, hstart⟩ := hwheel.good.startScroll now b x y
      obtain ⟨holder₂, hmove⟩ :=
        hstart.good.bbPan now b false .change x y (-deltaX * _) (-deltaY * _)
      simp only [panEnds, Bool.false_eq_true, false_and, if_false, ne_eq, not_true_eq_false,
        decide_false, Bool.and_false] at hmove
      exact ⟨holder₂, ((hwheel.trans hstart).trans hmove).set_wheelEnd true⟩
    · exact ⟨holder, hwheel⟩
  | pan now b phase x y dx dy =>
    cases hstep
    exact h.bbPan now b true phase x y dx dy
  | flush =>
    simp only [Viewer.step] at hstep
    split at hstep <;> cases hstep
    exact ⟨holder, h.flush rfl rfl ⟨h.vars.id, h.vars.mouseId, h.vars.pan, by
      simpa [State.call, Finger.pos_flush] using h.vars.pos⟩⟩
  | wheelTimer now b =>
    simp only [Viewer.step] at hstep
    split at hstep <;> cases hstep
    obtain ⟨holder', hgoes⟩ := h.bbPan now b false .finish 0 0 0 0
    exact ⟨holder', hgoes.set_wheelEnd false⟩

end

theorem good_start (v : View) : Good v start none :=
  ⟨vars_none rfl rfl rfl rfl, rfl, by simp [start], by simp [start]⟩

theorem good_of_run {v : View} {es : List Event} {s : State} (hrun : Run (Steps v) start es s) :
    ∃ holder, Good v s holder := by
  refine hrun.invariant (I := fun s => ∃ holder, Good v s holder) ?_ ⟨none, good_start v⟩
  rintro s e s' ⟨holder, h⟩ hstep
  obtain ⟨holder', hgoes⟩ := h.step hstep
  exact ⟨holder', hgoes.good⟩

/-- What is sent is contacts of one finger, and the filtered events stay in the framebuffer with no
coordinate of a pressed event that of the one before. -/
structure SingleFinger (v : View) (log : List Sent) (holder : Option Owner) : Prop where
  contacts : contact none log = some holder
  changes : (pressedPoints v log).IsChain fun p q => p.1 ≠ q.1 ∧ p.2 ≠ q.2
  inside : ∀ d ∈ dithered v (-1, -1) log, v.Inside d.2

/-- After any events, what was sent is contacts of one finger; and the next event sends a release,
exactly one, iff it ends the source that has the finger down. -/
theorem singleFinger_and_releases {v : View} {es : List Event} {s : State}
    (hrun : Run (Steps v) start es s) :
    ∃ holder, SingleFinger v s.log holder ∧ ∀ e s', Steps v s e s' →
      ∃ sent, s'.log = s.log ++ sent ∧ releases sent = if Ends s holder e then 1 else 0 := by
  obtain ⟨holder, h⟩ := good_of_run hrun
  refine ⟨holder, ⟨h.contact, ?_, inside_dithered h.log⟩, fun e s' hstep => ?_⟩
  · exact (isChain_dithered v (-1, -1) s.log).tail
  · obtain ⟨_, hgoes⟩ := h.step hstep
    exact hgoes.log

/-- A swipe while the wheel turns: the wheel is ignored, as the finger is down. -/
def swipe : List Event :=
  let b : Rect := ⟨0, 0, 320, 480, 320, 480⟩
  [.touchstart true b ⟨7, 10, 20⟩ [], .wheel 1000 true b 0 5 5 0 3, .touchmove true b [⟨7, 10, 60⟩],
    .flush, .touchend true b [⟨7, 10, 90⟩]]

theorem singleFinger_and_releases_swipe :
    ∃ s, Run (Steps ⟨640, 960, by decide, by decide⟩) start swipe s ∧ s.log.length = 4 ∧
      ∃ holder, SingleFinger ⟨640, 960, by decide, by decide⟩ s.log holder ∧
        ∀ e s', Steps ⟨640, 960, by decide, by decide⟩ s e s' →
          ∃ sent, s'.log = s.log ++ sent ∧ releases sent = if Ends s holder e then 1 else 0 := by
  have hrun : Run (Steps ⟨640, 960, by decide, by decide⟩) start swipe _ :=
    .cons rfl (.cons rfl (.cons rfl (.cons rfl (.cons rfl (.nil _)))))
  exact ⟨_, hrun, by decide +kernel, singleFinger_and_releases hrun⟩

end Bootbox.Viewer
