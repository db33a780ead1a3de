import Bootbox.Adb.Reassembly
import Bootbox.Adb.Session

/-!
How a session of the adb client ends: the exit callback is to be the last thing the
user of the client hears, apart from texts about the connection.

A `CLSE` and the end of the socket are announced only if nothing has closed the session
before. An exit packet of shell v2 sets the same flag without a look at it, and output
is passed on whatever the flag says. So it depends on the device: the exit is the last
callback exactly if no output and no exit packet comes after the end was announced.
-/

namespace Bootbox.Adb

open Shell

variable {shellV2 : List UInt8 → Bool} {s : Shell}

/-- Whether a callback is the exit (`true`) or data (`false`). -/
def Callback.ending : Callback → Option Bool
  | .onData _ => some false
  | .onExit _ => some true
  | .onStatus _ => none

/-- The exit callback is made at most once, and no data callback after it. -/
def EndsOnce (calls : List Callback) : Prop :=
  calls.Pairwise fun earlier later => earlier.ending = some true → later.ending = none

/-- What bears on the end of a session: output, an exit packet, the device or the socket
hanging up, and `close()`. -/
inductive Signal
  | output
  | exit
  | hangup
  | close

def packetSignal (id : UInt8) : List Signal :=
  if id = 1 ∨ id = 2 then [.output] else if id = 3 then [.exit] else []

def signals (s : Shell) : Event → List Signal
  | .message m =>
    match m.cmd with
    | .wrte =>
      if s.v2 then (v2Framing.split (s.v2buf ++ m.data)).1.flatMap fun p => packetSignal p.1
      else [.output]
    | .clse => [.hangup]
    | _ => []
  | .socketClosed => [.hangup]
  | .close => [.close]
  | _ => []

def runSignals (shellV2 : List UInt8 → Bool) (s : Shell) : List Event → List Signal
  | [] => []
  | e :: es => signals s e ++ runSignals shellV2 (step shellV2 s e) es

/-- The exit is announced by an exit packet, or by a hang-up before anything else has
closed the session; after it there is no output and no exit packet. -/
def Orderly : Bool → List Signal → Prop
  | _, [] => True
  | closed, .output :: rest => Orderly closed rest
  | _, .exit :: rest => ∀ g ∈ rest, g ≠ .output ∧ g ≠ .exit
  | true, .hangup :: rest => Orderly true rest
  | false, .hangup :: rest => ∀ g ∈ rest, g ≠ .output ∧ g ≠ .exit
  | _, .close :: rest => Orderly true rest

/-- The data and exit callbacks that signals lead to, in a session that is closed or not. -/
def heard : Bool → List Signal → List Bool
  | _, [] => []
  | closed, .output :: rest => false :: heard closed rest
  | _, .exit :: rest => true :: heard true rest
  | true, .hangup :: rest => heard true rest
  | false, .hangup :: rest => true :: heard true rest
  | _, .close :: rest => heard true rest

def closedAfter : Bool → List Signal → Bool
  | closed, [] => closed
  | closed, .output :: rest => closedAfter closed rest
  | _, _ :: rest => closedAfter true rest

theorem heard_append (closed : Bool) (gs hs : List Signal) :
    heard closed (gs ++ hs) = heard closed gs ++ heard (closedAfter closed gs) hs := by
  fun_induction heard closed gs <;> simp_all [heard, closedAfter]

theorem closedAfter_append (closed : Bool) (gs hs : List Signal) :
    closedAfter closed (gs ++ hs) = closedAfter (closedAfter closed gs) hs := by
  fun_induction closedAfter closed gs <;> simp_all [closedAfter]

/-- The session has gone through the signals: what was heard, and whether it is closed. -/
structure Heard (s s' : Shell) (gs : List Signal) : Prop where
  calls : s'.calls.filterMap Callback.ending
    = s.calls.filterMap Callback.ending ++ heard s.closed gs
  closed : s'.closed = closedAfter s.closed gs

theorem Heard.trans {s' s'' : Shell} {gs hs : List Signal} (h : Heard s s' gs)
    (h' : Heard s' s'' hs) : Heard s s'' (gs ++ hs) where
  calls := by rw [h'.calls, h.calls, h.closed, heard_append, List.append_assoc]
  closed := by rw [h'.closed, h.closed, closedAfter_append]

theorem Heard.of_quiet {s' : Shell} (hcalls : s'.calls = s.calls) (hclosed : s'.closed = s.closed) :
    Heard s s' [] :=
  ⟨by simp [hcalls, heard], by simp [hclosed, closedAfter]⟩

@[simp]
theorem calls_send (s : Shell) (cmd : Cmd) (a0 a1 : BitVec 32) (data : List UInt8) :
    (s.send cmd a0 a1 data).calls = s.calls := by
  rw [send]
  split <;> rfl

theorem calls_pump (s : Shell) : s.pump.calls = s.calls := by
  rcases s.pump_cases with ⟨-, heq⟩ | ⟨-, -, ⟨-, heq⟩ | ⟨-, heq⟩ | ⟨chunk, rest, -, -, heq⟩⟩ <;>
    rw [heq] <;> simp [pumpWindow, pumpChunk]

theorem Heard.of_pump {t : Shell} (hcalls : t.calls = s.calls) (hclosed : t.closed = s.closed) :
    Heard s t.pump [] :=
  .of_quiet ((calls_pump t).trans hcalls) (t.pump_frame.2.2.2.2.trans hclosed)

theorem heard_onPacket (s : Shell) (id : UInt8) (body : List UInt8) :
    Heard s (s.onPacket id body) (packetSignal id) := by
  rw [onPacket, packetSignal]
  split
  · exact ⟨by simp [call, heard, Callback.ending], rfl⟩
  · split
    · exact ⟨by simp [call, heard, Callback.ending], rfl⟩
    · exact .of_quiet rfl rfl

theorem heard_onPackets (s : Shell) (ps : List (UInt8 × List UInt8)) :
    Heard s (s.onPackets ps) (ps.flatMap fun p => packetSignal p.1) := by
  induction ps generalizing s with
  | nil => exact .of_quiet rfl rfl
  | cons p ps ih => exact (heard_onPacket s p.1 p.2).trans (ih _)

/-- Hanging up is announced unless the session is closed already. -/
theorem heard_hangup (s : Shell) (code : ℤ) :
    Heard s (if s.closed then s else { s with closed := true }.call (.onExit code)) [.hangup] := by
  cases hclosed : s.closed with
  | true => exact ⟨by simp [hclosed, heard], by simp [hclosed, closedAfter]⟩
  | false => exact ⟨by simp [hclosed, call, heard, Callback.ending], by simp [call, closedAfter]⟩

theorem heard_handle (s : Shell) (m : Msg) :
    Heard s (s.handle shellV2 m) (signals s (.message m)) := by
  simp only [handle, signals]
  cases m.cmd with
  | cnxn => exact ⟨by simp [call, heard, Callback.ending], by simp [call, closedAfter]⟩
  | auth => exact ⟨by simp [call, heard, Callback.ending], rfl⟩
  | okay =>
    dsimp only
    split
    · exact .of_pump rfl rfl
    · exact .of_pump rfl rfl
  | wrte =>
    have hsent : Heard s (s.send .okay localId s.remote []) [] := .of_quiet (by simp) (by simp)
    dsimp only
    rw [send_v2]
    split
    · have hpackets := hsent.trans (heard_onPackets _ (v2Framing.split (s.v2buf ++ m.data)).1)
      have hbuf : (s.send .okay localId s.remote []).v2buf = s.v2buf :=
        congrArg View.held (view_send ..)
      rw [handleV2_eq, hbuf]
      exact ⟨hpackets.calls, hpackets.closed⟩
    · exact hsent.trans ⟨by simp [call, heard, Callback.ending], rfl⟩
  | clse => exact ⟨(heard_hangup s (-1)).calls, (heard_hangup s (-1)).closed⟩
  | _ => exact .of_quiet rfl rfl

theorem heard_step (e : Event) : Heard s (step shellV2 s e) (signals s e) := by
  cases e with
  | socketOpened => exact .of_quiet (by simp [step]) (by simp [step])
  | socketClosed =>
    have hhangup := heard_hangup { s with socketOpen := false } (-2)
    exact ⟨hhangup.calls, hhangup.closed⟩
  | socketError => exact ⟨by simp [step, signals, call, heard, Callback.ending], rfl⟩
  | message m => exact heard_handle s m
  | write x =>
    rw [step, write]
    split
    · exact .of_quiet rfl rfl
    · exact .of_pump rfl rfl
  | resize c r =>
    rw [step, resize]
    dsimp only
    split
    · exact .of_pump rfl rfl
    · exact .of_quiet rfl rfl
  | close => constructor <;> simp [step, close, signals, heard, closedAfter]

theorem heard_run (es : List Event) : Heard s (run shellV2 s es) (runSignals shellV2 s es) := by
  induction es generalizing s with
  | nil => exact .of_quiet rfl rfl
  | cons e es ih => exact (heard_step e).trans ih

theorem endsOnce_iff (calls : List Callback) :
    EndsOnce calls ↔ (calls.filterMap Callback.ending).Pairwise fun earlier _ =>
      earlier = false := by
  rw [EndsOnce, List.pairwise_filterMap]
  refine ⟨List.Pairwise.imp ?_, List.Pairwise.imp ?_⟩
  · intro earlier later h b hb b' hb'
    cases b with
    | false => rfl
    | true => rw [h hb] at hb'; cases hb'
  · intro earlier later h hexit
    cases hlater : later.ending with
    | none => rfl
    | some b => cases h true hexit b hlater

theorem heard_closed_eq_nil (gs : List Signal) :
    heard true gs = [] ↔ ∀ g ∈ gs, g ≠ .output ∧ g ≠ .exit := by
  induction gs with
  | nil => simp [heard]
  | cons g gs ih => cases g <;> simp [heard, ih]

theorem pairwise_heard_iff (closed : Bool) (gs : List Signal) :
    ((heard closed gs).Pairwise fun earlier _ => earlier = false) ↔ Orderly closed gs := by
  have hlast (l : List Bool) : ((true :: l).Pairwise fun earlier _ => earlier = false) ↔
      l = [] := by
    cases l with
    | nil => simp
    | cons b l => exact ⟨fun h => (nomatch List.rel_of_pairwise_cons h List.mem_cons_self), nofun⟩
  fun_induction Orderly closed gs with
  | case1 => simp [heard]
  | case2 closed gs ih => simpa [heard] using ih
  | case4 gs ih => exact ih
  | case6 closed gs ih => exact ih
  | _ => rw [heard, hlast, heard_closed_eq_nil]

/-- In any run of a session the exit is the last callback exactly if the device sends no
output and no exit packet after what announced it. -/
theorem run_endsOnce_iff_orderly (shellV2 : List UInt8 → Bool) (cols rows : BitVec 32)
    (es : List Event) :
    EndsOnce (run shellV2 (init cols rows) es).calls
      ↔ Orderly false (runSignals shellV2 (init cols rows) es) := by
  rw [endsOnce_iff, (heard_run es).calls]
  exact pairwise_heard_iff false _

/-- Output that comes after the exit packet is passed on, and a second exit packet calls
`onExit` once more. -/
theorem second_exit_packet_announced : ¬ EndsOnce (run (fun _ => true) (init 80#32 24#32)
    [.socketOpened, .message ⟨.cnxn, aVersion, 4096#32, []⟩, .message ⟨.okay, 7#32, 1#32, []⟩,
      .message ⟨.wrte, 7#32, 1#32,
        v2packet 3 [0] ++ v2packet 1 [120] ++ v2packet 3 [0]⟩]).calls := by
  have hsplit : (v2Framing.split (v2packet 3 [0] ++ v2packet 1 [120] ++ v2packet 3 [0])).1
      = [(3, [0]), (1, [120]), (3, [0])] := by
    rw [v2Framing.split_of_some rfl, v2Framing.split_of_some rfl, v2Framing.split_of_some rfl,
      v2Framing.split_of_none rfl]
    rfl
  rw [endsOnce_iff, (heard_run _).calls]
  change ¬ List.Pairwise _ ([] ++ heard false ((List.flatMap _ (v2Framing.split
    (v2packet 3 [0] ++ v2packet 1 [120] ++ v2packet 3 [0])).1) ++ []))
  rw [hsplit]
  decide

end Bootbox.Adb
