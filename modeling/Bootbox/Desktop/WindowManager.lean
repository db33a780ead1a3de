import Bootbox.Lib.OrderedMap
import Bootbox.Lib.Trace

/-!
The window manager (`kernel/wm.js`): which windows are on which virtual desktop, and
which are displayed.

A window's `display` is set where something happens to it and not computed from its
desktop, so two things have to be shown along every run: that it agrees with the desktop
and the minimised flag, once the timers that hide minimised windows have fired, and that
the desktops' numbers stay valid when one is removed.

Two operations fall short. `moveToDesktop` hides a window that leaves the current desktop
and does not show one that comes to it. `removeDesktop` renumbers the desktops after the
removed one but not the current desktop's own number, so another desktop comes to the
front, unless the current one was the last.
-/

namespace Bootbox.Desktop

open Lib Lib.Trace Option OrderedMap

/-- A window: its desktop, whether it is minimised, and whether `style.display` shows it. -/
@[ext] structure Win where
  desktop : ℕ
  min : Bool
  shown : Bool
deriving DecidableEq

/-- The windows by id, the numbers of the next window, of desktops and of the current one,
and the windows with a timer of `minimize` still to fire. -/
structure State where
  wins : List (ℕ × Win)
  idSeq : ℕ
  desktops : ℕ
  current : ℕ
  timers : List ℕ

def boot : State := ⟨[], 1, 1, 0, []⟩

namespace State

def win (s : State) (id : ℕ) : Option Win := get s.wins id

def setWin (s : State) (id : ℕ) (w : Win) : State :=
  { s with wins := set s.wins id w }

/-- `wins.forEach` -/
def forEach (s : State) (f : Win → Win) : State :=
  { s with wins := s.wins.map fun e => (e.1, f e.2) }

end State

/-- `open`, up to `wins.set`. What the window's `render` calls, and the last `focus`, are
events of their own. -/
def openWindow (s : State) : State :=
  { s.setWin s.idSeq ⟨s.current, false, true⟩ with idSeq := s.idSeq + 1 }

def switchDesktop (n : ℕ) (s : State) : State :=
  if n ≥ s.desktops then s
  else
    { s.forEach fun w => { w with shown := w.desktop = n ∧ w.min = false } with current := n }

def focus (id : ℕ) (s : State) : State :=
  match s.win id with
  | none => s
  | some w =>
    let s := if w.desktop ≠ s.current then switchDesktop w.desktop s else s
    if w.min then s.setWin id ⟨w.desktop, false, true⟩ else s

def minimize (id : ℕ) (s : State) : State :=
  match s.win id with
  | none => s
  | some w => { s.setWin id { w with min := true } with timers := id :: s.timers }

/-- The function that `minimize` gives to `setTimeout`. -/
def fire (id : ℕ) (s : State) : State :=
  match s.win id with
  | none => s
  | some w => if w.min then s.setWin id { w with shown := false } else s

def close (id : ℕ) (s : State) : State := { s with wins := delete s.wins id }

def addDesktop (s : State) : State := { s with desktops := s.desktops + 1 }

/-- The desktop that a window is on after desktop `n` is removed. -/
def renumber (n d : ℕ) : ℕ := if d = n then n - 1 else if d > n then d - 1 else d

def removeDesktop (n : ℕ) (s : State) : State :=
  if s.desktops ≤ 1 then s
  else
    let desktops := s.desktops - 1
    let current := if s.current ≥ desktops then desktops - 1 else s.current
    switchDesktop current
      { s.forEach fun w => { w with desktop := renumber n w.desktop } with
        desktops := desktops, current := current }

def moveToDesktop (id n : ℕ) (s : State) : State :=
  match s.win id with
  | none => s
  | some w =>
    if n ≥ s.desktops then s
    else s.setWin id { w with desktop := n, shown := w.shown ∧ n = s.current }

inductive Event
  | openWindow
  | focus (id : ℕ)
  | minimize (id : ℕ)
  | close (id : ℕ)
  | addDesktop
  | switchDesktop (n : ℕ)
  | removeDesktop (n : ℕ)
  | moveToDesktop (id n : ℕ)
  /-- A timer fires. -/
  | timer (id : ℕ)

/-- One event. Only a desktop that there is can be removed: the task view has a button for
each one and is drawn again when their number changes. -/
def step (s : State) : Event → Option State
  | .openWindow => some (Desktop.openWindow s)
  | .focus id => some (Desktop.focus id s)
  | .minimize id => some (Desktop.minimize id s)
  | .close id => some (Desktop.close id s)
  | .addDesktop => some (Desktop.addDesktop s)
  | .switchDesktop n => some (Desktop.switchDesktop n s)
  | .removeDesktop n => if n < s.desktops then some (Desktop.removeDesktop n s) else none
  | .moveToDesktop id n => some (Desktop.moveToDesktop id n s)
  | .timer id =>
    if id ∈ s.timers then some { Desktop.fire id s with timers := s.timers.erase id } else none

def settle (s : State) : State :=
  { s.timers.foldl (fun s id => fire id s) s with timers := [] }

/-- A window is displayed iff it is on the current desktop and not minimised. -/
def Displays (s : State) : Prop :=
  ∀ id w, s.win id = some w → (w.shown = true ↔ w.desktop = s.current ∧ w.min = false)

/-- The desktops of the windows and the current one exist, and the right windows are
displayed once the timers have fired. -/
structure Good (s : State) : Prop where
  current : s.current < s.desktops
  desktop : ∀ id w, s.win id = some w → w.desktop < s.desktops
  displays : Displays (settle s)

/-- The window is on the screen when the timers have fired. -/
def OnScreen (s : State) (id : ℕ) : Prop := ∃ w, (settle s).win id = some w ∧ w.shown = true

/-- What a step has to keep. When a desktop is removed, the windows of each other one stay
together and apart from the rest, and if it was not the current one then those on the screen
stay there, and no other comes up but from the removed desktop. -/
def Keeps (s : State) (e : Event) (s' : State) : Prop :=
  Good s' ∧
    match e with
    | .removeDesktop n =>
      (∀ i j v w v' w', s.win i = some v → s.win j = some w → v.desktop ≠ n → w.desktop ≠ n →
        s'.win i = some v' → s'.win j = some w' →
          (v'.desktop = w'.desktop ↔ v.desktop = w.desktop)) ∧
        (n ≠ s.current → ∀ id w, s.win id = some w → w.desktop ≠ n →
          (OnScreen s' id ↔ OnScreen s id))
    | _ => True

/-- When a step keeps it: a window that is not minimised is not moved to the current desktop
from another one, and a desktop before the current one is removed only if the current one
is the last, or all windows on it and on the next one are minimised. -/
def Fair (s : State) : Event → Prop
  | .moveToDesktop id n =>
    ∀ w, s.win id = some w → n = s.current → w.desktop ≠ n → w.min = true
  | .removeDesktop n =>
    n < s.current → s.current + 1 < s.desktops →
      ∀ id w, s.win id = some w → w.min = false →
        w.desktop ≠ s.current ∧ w.desktop ≠ s.current + 1
  | _ => True

/-! ### The windows after an operation -/

namespace State

@[simp] theorem win_setWin (s : State) (id k : ℕ) (w : Win) :
    (s.setWin id w).win k = if k = id then some w else s.win k := get_set ..

@[simp] theorem win_forEach (s : State) (f : Win → Win) (k : ℕ) :
    (s.forEach f).win k = (s.win k).map f := get_map ..

end State

theorem win_fire (s : State) (id k : ℕ) :
    (fire id s).win k = (s.win k).map fun w =>
      { w with shown := w.shown ∧ ¬ (k = id ∧ w.min = true) } := by
  rw [fire]
  cases hw : s.win id with
  | none =>
    by_cases hk : k = id
    · rw [hk, hw]
      rfl
    · simp [hk]
  | some w =>
    by_cases hk : k = id
    · subst hk
      cases hmin : w.min <;> simp [hw, hmin, Win.ext_iff]
    · dsimp only
      split <;> simp [hk]

@[simp] theorem current_fire (s : State) (id : ℕ) : (fire id s).current = s.current := by
  rw [fire]
  split
  · rfl
  · split <;> rfl

theorem win_settle (s : State) (k : ℕ) :
    (settle s).win k = (s.win k).map fun w =>
      { w with shown := w.shown ∧ ¬ (k ∈ s.timers ∧ w.min = true) } := by
  have hfold : ∀ (timers : List ℕ) (s : State),
      (timers.foldl (fun s id => fire id s) s).win k = (s.win k).map fun w =>
        { w with shown := w.shown ∧ ¬ (k ∈ timers ∧ w.min = true) } := by
    intro timers
    induction timers with
    | nil => simp
    | cons id timers ih =>
      intro s
      rw [List.foldl_cons, ih, win_fire, map_map]
      congr 1
      ext1 w
      by_cases hk : k = id
      · cases hmin : w.min <;> simp [hk, hmin]
      · simp [hk]
  exact hfold s.timers s

theorem current_settle (s : State) : (settle s).current = s.current := by
  have hfold : ∀ (timers : List ℕ) (s : State),
      (timers.foldl (fun s id => fire id s) s).current = s.current := by
    intro timers
    induction timers with
    | nil => exact fun s => rfl
    | cons id timers ih =>
      intro s
      rw [List.foldl_cons, ih, current_fire]
  exact hfold s.timers s

/-- What has to hold of one window before its timers have fired. -/
def Right (s : State) (id : ℕ) (w : Win) : Prop :=
  if w.min then w.shown = true → id ∈ s.timers else w.shown = true ↔ w.desktop = s.current

theorem displays_settle_iff (s : State) :
    Displays (settle s) ↔ ∀ id w, s.win id = some w → Right s id w := by
  have hright : ∀ id w, Right s id w ↔
      (w.shown = true ∧ ¬ (id ∈ s.timers ∧ w.min = true) ↔
        w.desktop = s.current ∧ w.min = false) := by
    intro id w
    rw [Right]
    cases hmin : w.min with
    | false => simp
    | true => by_cases hid : id ∈ s.timers <;> simp [hid]
  simp only [hright]
  constructor
  · intro h id w hw
    have hset := h id _ (by rw [win_settle, hw]; rfl)
    simpa [current_settle, imp_iff_not_or] using hset
  · intro h id w hw
    rw [win_settle] at hw
    obtain ⟨v, hv, rfl⟩ := map_eq_some_iff.mp hw
    simpa [current_settle, imp_iff_not_or] using h id v hv

theorem good_iff (s : State) : Good s ↔ s.current < s.desktops ∧
    ∀ id w, s.win id = some w → w.desktop < s.desktops ∧ Right s id w := by
  constructor
  · intro h
    exact ⟨h.current, fun id w hw =>
      ⟨h.desktop id w hw, (displays_settle_iff s).mp h.displays id w hw⟩⟩
  · rintro ⟨hcurrent, hwins⟩
    refine ⟨hcurrent, fun id w hw => (hwins id w hw).1, (displays_settle_iff s).mpr ?_⟩
    exact fun id w hw => (hwins id w hw).2

theorem Good.onScreen_iff {s : State} (h : Good s) {id : ℕ} {w : Win} (hw : s.win id = some w) :
    OnScreen s id ↔ w.desktop = s.current ∧ w.min = false := by
  have hsettled : (settle s).win id
      = some { w with shown := w.shown ∧ ¬ (id ∈ s.timers ∧ w.min = true) } := by
    rw [win_settle, hw]
    rfl
  have hdisplays := h.displays id _ hsettled
  rw [current_settle] at hdisplays
  rw [OnScreen, ← hdisplays]
  simp [hsettled]

/-! ### The steps -/

section Steps

variable {s : State}

theorem good_openWindow (h : Good s) : Good (openWindow s) := by
  obtain ⟨hcurrent, hwins⟩ := (good_iff s).mp h
  refine (good_iff _).mpr ⟨hcurrent, fun id w hw => ?_⟩
  change (s.setWin s.idSeq ⟨s.current, false, true⟩).win id = some w at hw
  rw [State.win_setWin] at hw
  split at hw
  · cases hw
    exact ⟨hcurrent, by simp [Right, openWindow, State.setWin]⟩
  · exact hwins id w hw

theorem win_switchDesktop {n : ℕ} (hn : n < s.desktops) (k : ℕ) :
    (switchDesktop n s).win k
      = (s.win k).map fun w => { w with shown := w.desktop = n ∧ w.min = false } := by
  rw [switchDesktop, if_neg (Nat.not_le.mpr hn)]
  exact s.win_forEach (fun w => { w with shown := w.desktop = n ∧ w.min = false }) k

theorem current_switchDesktop {n : ℕ} (hn : n < s.desktops) : (switchDesktop n s).current = n := by
  rw [switchDesktop, if_neg (Nat.not_le.mpr hn)]

theorem desktops_switchDesktop (n : ℕ) : (switchDesktop n s).desktops = s.desktops := by
  rw [switchDesktop]
  split <;> rfl

theorem good_switchDesktop {n : ℕ} (hn : n < s.desktops)
    (hdesktop : ∀ id w, s.win id = some w → w.desktop < s.desktops) :
    Good (switchDesktop n s) := by
  rw [good_iff, current_switchDesktop hn, desktops_switchDesktop]
  refine ⟨hn, fun id w hw => ?_⟩
  rw [win_switchDesktop hn] at hw
  obtain ⟨v, hv, rfl⟩ := map_eq_some_iff.mp hw
  refine ⟨hdesktop id v hv, ?_⟩
  cases hmin : v.min <;> simp [Right, current_switchDesktop hn]

theorem good_switch (h : Good s) (n : ℕ) : Good (switchDesktop n s) := by
  by_cases hn : n < s.desktops
  · exact good_switchDesktop hn h.desktop
  · rwa [switchDesktop, if_pos (Nat.not_lt.mp hn)]

theorem good_restore (h : Good s) {id : ℕ} {w : Win} (hw : w.desktop = s.current) :
    Good (s.setWin id ⟨w.desktop, false, true⟩) := by
  obtain ⟨hcurrent, hwins⟩ := (good_iff s).mp h
  refine (good_iff _).mpr ⟨hcurrent, fun k v hv => ?_⟩
  rw [State.win_setWin] at hv
  split at hv
  · cases hv
    exact ⟨hw ▸ hcurrent, by simp [Right, hw, State.setWin]⟩
  · exact hwins k v hv

theorem good_focus (h : Good s) (id : ℕ) : Good (focus id s) := by
  rw [focus]
  cases hw : s.win id with
  | none => exact h
  | some w =>
    have hdesktop := h.desktop id w hw
    dsimp only
    split
    case isTrue hmin =>
      split
      case isTrue =>
        exact good_restore (good_switch h _) (current_switchDesktop hdesktop).symm
      case isFalse hsame => exact good_restore h (not_not.mp hsame)
    case isFalse =>
      split
      case isTrue => exact good_switch h _
      case isFalse => exact h

theorem good_minimize (h : Good s) (id : ℕ) : Good (minimize id s) := by
  rw [minimize]
  obtain ⟨hcurrent, hwins⟩ := (good_iff s).mp h
  cases hw : s.win id with
  | none => exact h
  | some w =>
    refine (good_iff _).mpr ⟨hcurrent, fun k v hv => ?_⟩
    change (s.setWin id _).win k = some v at hv
    rw [State.win_setWin] at hv
    split at hv
    case isTrue hk =>
      cases hv
      exact ⟨(hwins id w hw).1, by simp [Right, hk]⟩
    case isFalse hk =>
      obtain ⟨hdesktop, hright⟩ := hwins k v hv
      refine ⟨hdesktop, ?_⟩
      rw [Right] at hright ⊢
      split at hright
      case isTrue hmin =>
        rw [if_pos hmin]
        exact fun hshown => List.mem_cons_of_mem _ (hright hshown)
      case isFalse hmin =>
        rw [if_neg hmin]
        exact hright

theorem good_close (h : Good s) (id : ℕ) : Good (close id s) := by
  obtain ⟨hcurrent, hwins⟩ := (good_iff s).mp h
  refine (good_iff _).mpr ⟨hcurrent, fun k v hv => ?_⟩
  rw [State.win, close, get_delete] at hv
  split at hv
  · cases hv
  · exact hwins k v hv

theorem good_addDesktop (h : Good s) : Good (addDesktop s) := by
  obtain ⟨hcurrent, hwins⟩ := (good_iff s).mp h
  refine (good_iff _).mpr ⟨Nat.lt_succ_of_lt hcurrent, fun k v hv => ?_⟩
  exact ⟨Nat.lt_succ_of_lt (hwins k v hv).1, (hwins k v hv).2⟩

theorem good_timer (h : Good s) (id : ℕ) :
    Good { fire id s with timers := s.timers.erase id } := by
  obtain ⟨hcurrent, hwins⟩ := (good_iff s).mp h
  have hdesktops : (fire id s).desktops = s.desktops := by
    rw [fire]
    split
    · rfl
    · split <;> rfl
  rw [good_iff]
  simp only [current_fire, hdesktops]
  refine ⟨hcurrent, fun k v hv => ?_⟩
  change (fire id s).win k = some v at hv
  rw [win_fire] at hv
  obtain ⟨w, hw, rfl⟩ := map_eq_some_iff.mp hv
  obtain ⟨hdesktop, hright⟩ := hwins k w hw
  refine ⟨hdesktop, ?_⟩
  rw [Right] at hright ⊢
  cases hmin : w.min with
  | false => simpa [hmin] using hright
  | true =>
    by_cases hk : k = id
    · simp [hk]
    · simpa [hmin, hk, List.mem_erase_of_ne hk] using hright

theorem good_moveToDesktop_iff (h : Good s) (id n : ℕ) :
    Good (moveToDesktop id n s) ↔ Fair s (.moveToDesktop id n) := by
  rw [moveToDesktop, Fair]
  obtain ⟨hcurrent, hwins⟩ := (good_iff s).mp h
  cases hw : s.win id with
  | none => simpa using h
  | some w =>
    obtain ⟨hdesktop, hright⟩ := hwins id w hw
    dsimp only
    split
    case isTrue hn =>
      refine iff_of_true h fun v hv hsame => ?_
      omega
    case isFalse hn =>
      have hmoved : Right s id { w with desktop := n, shown := w.shown ∧ n = s.current } ↔
          (n = s.current → w.desktop ≠ n → w.min = true) := by
        rw [Right] at hright ⊢
        cases hmin : w.min with
        | false =>
          simp only [hmin, Bool.false_eq_true, if_false] at hright
          by_cases hsame : n = s.current
          · simp [hsame, hright]
          · simp [hsame]
        | true =>
          simp only [hmin, if_true] at hright
          simp only [if_true, decide_eq_true_eq, implies_true, iff_true]
          exact fun hshown => hright hshown.1
      rw [good_iff]
      simp only [some.injEq, forall_eq']
      rw [← hmoved]
      constructor
      · intro hgood
        exact (hgood.2 id _ (by rw [State.win_setWin, if_pos rfl])).2
      · intro hok
        refine ⟨hcurrent, fun k v hv => ?_⟩
        rw [State.win_setWin] at hv
        split at hv
        case isTrue hk =>
          cases hv
          subst hk
          exact ⟨Nat.not_le.mp hn, hok⟩
        case isFalse => exact hwins k v hv

/-! ### Removing a desktop -/

def currentAfter (s : State) : ℕ :=
  if s.current ≥ s.desktops - 1 then s.desktops - 1 - 1 else s.current

theorem currentAfter_lt (hdesktops : 1 < s.desktops) : currentAfter s < s.desktops - 1 := by
  rw [currentAfter]
  split_ifs <;> omega

section Remove

variable {n : ℕ} (hdesktops : 1 < s.desktops)
include hdesktops

theorem removeDesktop_eq : removeDesktop n s = switchDesktop (currentAfter s)
    { s.forEach fun w => { w with desktop := renumber n w.desktop } with
      desktops := s.desktops - 1, current := currentAfter s } := by
  rw [removeDesktop, if_neg (Nat.not_le.mpr hdesktops)]
  rfl

theorem current_removeDesktop : (removeDesktop n s).current = currentAfter s := by
  rw [removeDesktop_eq hdesktops]
  exact current_switchDesktop (currentAfter_lt hdesktops)

theorem win_removeDesktop (k : ℕ) : (removeDesktop n s).win k = (s.win k).map fun w =>
    ⟨renumber n w.desktop, w.min, renumber n w.desktop = currentAfter s ∧ w.min = false⟩ := by
  rw [removeDesktop_eq hdesktops, win_switchDesktop (currentAfter_lt hdesktops)]
  have hrenumbered := s.win_forEach (fun w => { w with desktop := renumber n w.desktop }) k
  refine (congrArg (Option.map _) hrenumbered).trans ?_
  rw [Option.map_map]
  rfl

theorem good_removeDesktop (h : Good s) (hn : n < s.desktops) : Good (removeDesktop n s) := by
  rw [removeDesktop_eq hdesktops]
  refine good_switchDesktop (currentAfter_lt hdesktops) fun id w hw => ?_
  have hrenumbered := s.win_forEach (fun w => { w with desktop := renumber n w.desktop }) id
  obtain ⟨v, hv, rfl⟩ := map_eq_some_iff.mp (hrenumbered.symm.trans hw)
  have hlt := h.desktop id v hv
  change renumber n v.desktop < s.desktops - 1
  rw [renumber]
  split_ifs <;> omega

theorem renumber_eq_currentAfter_iff (h : Good s) (hn : n < s.desktops) (hne : n ≠ s.current)
    {d : ℕ} (hd : d < s.desktops) (hdn : d ≠ n) :
    renumber n d = currentAfter s ↔
      if n < s.current ∧ s.current + 1 < s.desktops then d = s.current + 1 else d = s.current := by
  have hcurrent := h.current
  rw [renumber, currentAfter, if_neg hdn]
  split_ifs <;> omega

theorem keeps_removeDesktop_iff (h : Good s) (hn : n < s.desktops) :
    Keeps s (.removeDesktop n) (removeDesktop n s) ↔ Fair s (.removeDesktop n) := by
  have hgood := good_removeDesktop hdesktops h hn
  have hwin : ∀ {id w}, s.win id = some w → (removeDesktop n s).win id
      = some ⟨renumber n w.desktop, w.min,
        renumber n w.desktop = currentAfter s ∧ w.min = false⟩ := by
    intro id w hw
    rw [win_removeDesktop hdesktops, hw]
    rfl
  have htogether : ∀ i j v w v' w', s.win i = some v → s.win j = some w → v.desktop ≠ n →
      w.desktop ≠ n → (removeDesktop n s).win i = some v' → (removeDesktop n s).win j = some w' →
        (v'.desktop = w'.desktop ↔ v.desktop = w.desktop) := by
    intro i j v w v' w' hv hw hvn hwn hv' hw'
    cases (hwin hv).symm.trans hv'
    cases (hwin hw).symm.trans hw'
    change renumber n v.desktop = renumber n w.desktop ↔ v.desktop = w.desktop
    rw [renumber, renumber, if_neg hvn, if_neg hwn]
    split_ifs <;> omega
  have hscreen : ∀ {id w}, s.win id = some w → w.desktop ≠ n → n ≠ s.current →
      ((OnScreen (removeDesktop n s) id ↔ OnScreen s id) ↔
        (n < s.current → s.current + 1 < s.desktops → w.min = false →
          w.desktop ≠ s.current ∧ w.desktop ≠ s.current + 1)) := by
    intro id w hw hwn hne
    rw [hgood.onScreen_iff (hwin hw), h.onScreen_iff hw, current_removeDesktop hdesktops]
    dsimp only
    rw [renumber_eq_currentAfter_iff hdesktops h hn hne (h.desktop id w hw) hwn]
    cases hmin : w.min with
    | true => simp
    | false =>
      simp only [and_true, true_implies]
      split_ifs with hcase <;> omega
  simp only [Keeps, Fair]
  constructor
  · rintro ⟨-, -, hsame⟩ hlt hlast id w hw hmin
    by_cases hwn : w.desktop = n
    · omega
    · exact (hscreen hw hwn (Nat.ne_of_lt hlt)).mp
        (hsame (Nat.ne_of_lt hlt) id w hw hwn) hlt hlast hmin
  · intro hfair
    refine ⟨hgood, htogether, fun hne id w hw hwn =>
      (hscreen hw hwn hne).mpr fun hlt hlast hmin => ?_⟩
    exact hfair hlt hlast id w hw hmin

end Remove

end Steps

/-! ### Runs -/

def FairStep (s : State) (e : Event) (s' : State) : Prop := step s e = some s' ∧ Fair s e

theorem keeps_iff {s s' : State} {e : Event} (h : Good s) (hstep : step s e = some s') :
    Keeps s e s' ↔ Fair s e := by
  cases e with
  | openWindow =>
    cases hstep
    exact iff_of_true ⟨good_openWindow h, trivial⟩ trivial
  | focus id =>
    cases hstep
    exact iff_of_true ⟨good_focus h id, trivial⟩ trivial
  | minimize id =>
    cases hstep
    exact iff_of_true ⟨good_minimize h id, trivial⟩ trivial
  | close id =>
    cases hstep
    exact iff_of_true ⟨good_close h id, trivial⟩ trivial
  | addDesktop =>
    cases hstep
    exact iff_of_true ⟨good_addDesktop h, trivial⟩ trivial
  | switchDesktop n =>
    cases hstep
    exact iff_of_true ⟨good_switch h n, trivial⟩ trivial
  | removeDesktop n =>
    simp only [step, ite_none_right_eq_some, some.injEq] at hstep
    obtain ⟨hn, rfl⟩ := hstep
    by_cases hdesktops : 1 < s.desktops
    · exact keeps_removeDesktop_iff hdesktops h hn
    · have hcurrent := h.current
      have hsame : removeDesktop n s = s := by
        rw [removeDesktop, if_pos (Nat.not_lt.mp hdesktops)]
      rw [hsame]
      refine iff_of_true ⟨h, ?_, fun _ _ _ _ _ => Iff.rfl⟩ fun hlt => ?_
      · intro i j v w v' w' hv hw _ _ hv' hw'
        cases hv.symm.trans hv'
        cases hw.symm.trans hw'
        exact Iff.rfl
      · omega
  | moveToDesktop id n =>
    cases hstep
    simp only [Keeps, and_true]
    exact good_moveToDesktop_iff h id n
  | timer id =>
    simp only [step, ite_none_right_eq_some, some.injEq] at hstep
    obtain ⟨-, rfl⟩ := hstep
    exact iff_of_true ⟨good_timer h id, trivial⟩ trivial

theorem good_boot : Good boot := (good_iff _).mpr ⟨Nat.one_pos, fun _ _ h => nomatch h⟩

/-- After events that meet the condition the windows and desktops are right, and the next
event keeps them so iff it meets the condition too. -/
theorem good_and_keeps_iff {s s' : State} {es : List Event} {e : Event}
    (hrun : Run FairStep boot es s) (hstep : step s e = some s') :
    Good s ∧ (Keeps s e s' ↔ Fair s e) := by
  have hgood : Good s := by
    refine hrun.invariant (fun {s e s'} h hfair => ?_) good_boot
    exact ((keeps_iff h hfair.1).mpr hfair.2).1
  exact ⟨hgood, keeps_iff hgood hstep⟩

def secondDesktop : List Event := [.openWindow, .focus 1, .addDesktop, .switchDesktop 1]

/-- Going back and removing the second desktop. -/
theorem good_and_keeps_iff_second : ∃ s s', Run FairStep boot (secondDesktop ++ [.focus 1]) s ∧
    step s (.removeDesktop 1) = some s' ∧ Good s ∧ Keeps s (.removeDesktop 1) s' := by
  have hrun : Run FairStep boot (secondDesktop ++ [.focus 1])
      ⟨[(1, ⟨0, false, true⟩)], 2, 2, 0, []⟩ :=
    .cons ⟨rfl, trivial⟩ (.cons ⟨rfl, trivial⟩ (.cons ⟨rfl, trivial⟩ (.cons ⟨rfl, trivial⟩
      (.cons ⟨rfl, trivial⟩ (.nil _)))))
  obtain ⟨hgood, hkeeps⟩ := good_and_keeps_iff hrun (e := .removeDesktop 1) rfl
  exact ⟨_, _, hrun, rfl, hgood, hkeeps.mpr fun hlt => absurd hlt (Nat.not_lt_zero 1)⟩

/-- The window is moved to the current desktop and stays hidden, with no timer to come. -/
theorem moved_window_stays_hidden : ∃ s s', Run FairStep boot secondDesktop s ∧
    step s (.moveToDesktop 1 1) = some s' ∧ s'.timers = [] ∧ s'.current = 1 ∧
    s'.win 1 = some ⟨1, false, false⟩ ∧ ¬ Keeps s (.moveToDesktop 1 1) s' := by
  refine ⟨⟨[(1, ⟨0, false, false⟩)], 2, 2, 1, []⟩, ⟨[(1, ⟨1, false, false⟩)], 2, 2, 1, []⟩,
    .cons ⟨rfl, trivial⟩ (.cons ⟨rfl, trivial⟩ (.cons ⟨rfl, trivial⟩ (.cons ⟨rfl, trivial⟩
      (.nil _)))), rfl, rfl, rfl, rfl, fun h => ?_⟩
  have hshown := (h.1.displays 1 ⟨1, false, false⟩ rfl).mpr ⟨rfl, rfl⟩
  cases hshown

end Bootbox.Desktop
