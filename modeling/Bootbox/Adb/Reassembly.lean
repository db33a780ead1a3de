import Bootbox.Adb.Flow
import Bootbox.Lib.Framing

/-!
The two reassembly buffers of the adb client (`vendor/qemu/adbshell.js`): `inbuf`,
from which `parse` takes adb packets, and `v2buf`, from which `handleV2` takes the
packets of the shell's stream.

Neither the way the socket's bytes are cut into messages nor the way the device cuts
the shell's stream into `WRTE` payloads can be seen behind them, as long as the packet
at which the client closes the socket is the last: packets behind it are handled if
they came in the same message, and no later message is delivered.
-/

namespace Bootbox.Adb

open Lib Lib.ByteMemory List

/-! ### The code -/

def Cmd.ofWord (w : BitVec 32) : Cmd :=
  if w = 0x4e584e43#32 then .cnxn
  else if w = 0x4e45504f#32 then .open
  else if w = 0x59414b4f#32 then .okay
  else if w = 0x45534c43#32 then .clse
  else if w = 0x45545257#32 then .wrte
  else if w = 0x48545541#32 then .auth
  else .other

/-- `getUint32` of a header's word, little-endian. -/
def getUint32 (buf : List UInt8) (offset : ℕ) : BitVec 32 :=
  BitVec.ofNat 32 (leNat ((buf.drop offset).take 4))

/-- The first packet in `inbuf`, as `parse` reads it, and the rest. -/
def takeMsg (inbuf : List UInt8) : Option (Msg × List UInt8) :=
  if inbuf.length < 24 then none
  else
    let len := (getUint32 inbuf 12).toNat
    if inbuf.length < 24 + len then none
    else
      some (⟨Cmd.ofWord (getUint32 inbuf 0), getUint32 inbuf 4, getUint32 inbuf 8,
        (inbuf.drop 24).take len⟩, inbuf.drop (24 + len))

theorem takeMsg_length {buf rest : List UInt8} {m : Msg} (h : takeMsg buf = some (m, rest)) :
    rest.length < buf.length := by
  revert h
  fun_cases takeMsg buf with
  | case3 =>
    rintro ⟨⟩
    rw [length_drop]
    omega
  | _ => nofun

/-- The client with its buffer of bytes from the socket, and the packets handled so far. -/
structure Conn where
  shell : Shell
  inbuf : List UInt8
  handled : List Msg

namespace Conn

def parse (shellV2 : List UInt8 → Bool) (c : Conn) : Conn :=
  match h : takeMsg c.inbuf with
  | none => c
  | some (m, rest) =>
    have : rest.length < c.inbuf.length := takeMsg_length h
    parse shellV2 ⟨c.shell.handle shellV2 m, rest, c.handled ++ [m]⟩
termination_by c.inbuf.length

/-- `ws.onmessage`. -/
def onmessage (shellV2 : List UInt8 → Bool) (c : Conn) (data : List UInt8) : Conn :=
  { c with inbuf := c.inbuf ++ data }.parse shellV2

/-- A message comes in: the browser delivers it only while the socket is open. -/
def deliver (shellV2 : List UInt8 → Bool) (c : Conn) (data : List UInt8) : Conn :=
  if c.shell.socketOpen then c.onmessage shellV2 data else c

def receive (shellV2 : List UInt8 → Bool) (c : Conn) (pieces : List (List UInt8)) : Conn :=
  pieces.foldl (deliver shellV2) c

end Conn

/-! ### The packets of the socket's stream -/

theorem getUint32_append {buf : List UInt8} {offset : ℕ} (h : offset + 4 ≤ buf.length)
    (more : List UInt8) : getUint32 (buf ++ more) offset = getUint32 buf offset := by
  rw [getUint32, getUint32, drop_append_of_le_length (by omega),
    take_append_of_le_length (by rw [length_drop]; omega)]

theorem takeMsg_cut {buf rest : List UInt8} {m : Msg} (h : takeMsg buf = some (m, rest)) :
    ∃ raw, raw ≠ [] ∧ buf = raw ++ rest ∧ ∀ more, takeMsg (raw ++ more) = some (m, more) := by
  revert h
  fun_cases takeMsg buf with
  | case3 h24 len hlen =>
    rintro ⟨⟩
    have hraw : (buf.take (24 + len)).length = 24 + len := by
      rw [length_take]
      omega
    -- the header of the packet's own bytes is the header of the buffer
    have hword : ∀ offset, offset + 4 ≤ 24 →
        getUint32 (buf.take (24 + len)) offset = getUint32 buf offset := by
      intro offset ho
      conv_rhs => rw [← take_append_drop (24 + len) buf]
      rw [getUint32_append (by omega)]
    refine ⟨buf.take (24 + len), ?_, (take_append_drop ..).symm, ?_⟩
    · intro hnil
      rw [hnil] at hraw
      simp only [length_nil] at hraw
      omega
    · intro more
      simp only [takeMsg, length_append, hraw]
      rw [if_neg (by omega), getUint32_append (by omega), hword 12 (by omega),
        if_neg (by omega), getUint32_append (by omega), getUint32_append (by omega),
        getUint32_append (by omega), hword 0 (by omega), hword 4 (by omega),
        hword 8 (by omega), drop_append_of_le_length (by omega),
        take_append_of_le_length (by rw [length_drop]; omega),
        drop_append_of_le_length (by omega)]
      rw [drop_take, Nat.add_sub_cancel_left, take_take, Nat.min_self,
        drop_take, Nat.sub_self, take_zero, nil_append]
  | _ => rintro ⟨⟩

/-- `parse`'s packets are found by their own bytes. -/
def msgFraming : Framing UInt8 Msg := ⟨takeMsg, takeMsg_cut⟩

/-- `parse` handles the packets of the buffer in order and keeps the tail. -/
theorem Conn.parse_eq (shellV2 : List UInt8 → Bool) (c : Conn) :
    c.parse shellV2 = ⟨(msgFraming.split c.inbuf).1.foldl (Shell.handle shellV2) c.shell,
      (msgFraming.split c.inbuf).2, c.handled ++ (msgFraming.split c.inbuf).1⟩ := by
  fun_induction parse shellV2 c with
  | case1 c h =>
    rw [msgFraming.split_of_none h]
    simp
  | case2 c m rest h _ ih =>
    rw [ih, msgFraming.split_of_some h]
    simp

/-! ### The packets of the shell's stream -/

namespace Shell

theorem v2take_cut {buf rest : List UInt8} {p : UInt8 × List UInt8}
    (h : v2take buf = some (p, rest)) :
    ∃ raw, raw ≠ [] ∧ buf = raw ++ rest ∧ ∀ more, v2take (raw ++ more) = some (p, more) := by
  revert h
  fun_cases v2take buf with
  | case3 id buf h4 n _ hlen =>
    rintro ⟨⟩
    have hn : leNat (buf.take 4) = n := rfl
    replace hlen : ¬ (buf.drop 4).length < n := hlen
    rw [length_drop] at hlen
    refine ⟨id :: buf.take (4 + n), by simp, ?_, ?_⟩
    · rw [cons_append, drop_drop, take_append_drop]
    · intro more
      have hlen' : (buf.take (4 + n)).length = 4 + n := by
        rw [length_take]
        omega
      have htake : (buf.take (4 + n) ++ more).take 4 = buf.take 4 := by
        rw [take_append_of_le_length (by omega), take_take,
          Nat.min_eq_left (by omega)]
      have hdrop : (buf.take (4 + n) ++ more).drop 4 = (buf.drop 4).take n ++ more := by
        rw [drop_append_of_le_length (by omega), drop_take,
          Nat.add_sub_cancel_left]
      have hbody : ((buf.drop 4).take n).length = n := by
        rw [length_take, length_drop]
        omega
      rw [cons_append, v2take, if_neg (by rw [length_append]; omega)]
      simp only [htake, hn, hdrop, length_append, hbody]
      rw [if_neg (by omega), take_left' hbody, drop_left' hbody]
  | _ => rintro ⟨⟩

/-- `handleV2`'s packets are found by their own bytes. -/
def v2Framing : Framing UInt8 (UInt8 × List UInt8) := ⟨v2take, v2take_cut⟩

def onPackets (s : Shell) (ps : List (UInt8 × List UInt8)) : Shell :=
  ps.foldl (fun s p => s.onPacket p.1 p.2) s

def withV2buf (s : Shell) (buf : List UInt8) : Shell := { s with v2buf := buf }

theorem onPacket_withV2buf (s : Shell) (id : UInt8) (body buf : List UInt8) :
    (s.withV2buf buf).onPacket id body = (s.onPacket id body).withV2buf buf := by
  unfold onPacket
  split
  · rfl
  · split <;> rfl

/-- `handleV2`'s loop takes the packets of the buffer in order and keeps the tail. -/
theorem drainV2_eq (s : Shell) :
    s.drainV2 = (s.withV2buf (v2Framing.split s.v2buf).2).onPackets
      (v2Framing.split s.v2buf).1 := by
  fun_induction drainV2 s with
  | case1 s h =>
    rw [v2Framing.split_of_none h]
    rfl
  | case2 s id body rest h _ ih =>
    refine ih.trans ?_
    have hpacket : { s with v2buf := rest }.onPacket id body = _ :=
      s.onPacket_withV2buf id body rest
    rw [v2Framing.split_of_some h, hpacket]
    change _ = ((s.withV2buf _).onPacket id body).onPackets _
    rw [onPacket_withV2buf]
    rfl

theorem onPackets_withV2buf (s : Shell) (ps : List (UInt8 × List UInt8)) (buf : List UInt8) :
    (s.withV2buf buf).onPackets ps = (s.onPackets ps).withV2buf buf := by
  induction ps generalizing s with
  | nil => rfl
  | cons p ps ih =>
    change ((s.withV2buf buf).onPacket p.1 p.2).onPackets ps = _
    rw [onPacket_withV2buf, ih]
    rfl

theorem handleV2_eq (s : Shell) (data : List UInt8) :
    s.handleV2 data = (s.onPackets (v2Framing.split (s.v2buf ++ data)).1).withV2buf
      (v2Framing.split (s.v2buf ++ data)).2 := by
  change (s.withV2buf (s.v2buf ++ data)).drainV2 = _
  rw [drainV2_eq, ← onPackets_withV2buf]
  rfl

theorem handleV2_append (s : Shell) (xs ys : List UInt8) :
    s.handleV2 (xs ++ ys) = (s.handleV2 xs).handleV2 ys := by
  rw [handleV2_eq, ← append_assoc, v2Framing.split_append, s.handleV2_eq xs, handleV2_eq,
    onPackets_withV2buf]
  simp only [onPackets, foldl_append]
  rfl

theorem take_v2buf_handleV2 (s : Shell) (data : List UInt8) :
    v2take (s.handleV2 data).v2buf = none := by
  rw [handleV2_eq]
  exact v2Framing.take_tail _

end Shell

/-! ### What the user of the client sees -/

inductive Output
  | byte (b : UInt8)
  | exit (code : ℤ)
  deriving DecidableEq

def Callback.outputs : Callback → List Output
  | .onData bytes => bytes.map .byte
  | .onExit code => [.exit code]
  | .onStatus _ => []

/-- The part of the client that the device's stream moves: the mode, the end, what is
held back of the shell's stream, and what has reached the user. -/
structure View where
  v2 : Bool
  closed : Bool
  held : List UInt8
  outputs : List Output
  deriving DecidableEq

def Shell.view (s : Shell) : View := ⟨s.v2, s.closed, s.v2buf, s.calls.flatMap Callback.outputs⟩

/-- What the device says, with the boundaries of `WRTE` payloads forgotten. -/
inductive Item
  | byte (b : UInt8)
  | banner (text : List UInt8)
  | clse

def Msg.items (m : Msg) : List Item :=
  match m.cmd with
  | .wrte => m.data.map .byte
  | .cnxn => [.banner m.data]
  | .clse => [.clse]
  | _ => []

namespace View

def packet (v : View) (id : UInt8) (body : List UInt8) : View :=
  if id = 1 ∨ id = 2 then { v with outputs := v.outputs ++ body.map .byte }
  else if id = 3 then
    { v with closed := true, outputs := v.outputs ++ [.exit (body.headD 0).toNat] }
  else v

/-- One byte of the shell's stream: it is held back until it ends a packet. Without shell
v2 the stream is the output itself. -/
def byte (v : View) (b : UInt8) : View :=
  if v.v2 then
    match Shell.v2take (v.held ++ [b]) with
    | none => { v with held := v.held ++ [b] }
    | some ((id, body), rest) => { v with held := rest }.packet id body
  else { v with outputs := v.outputs ++ [.byte b] }

def item (shellV2 : List UInt8 → Bool) (v : View) : Item → View
  | .byte b => v.byte b
  | .banner text => { v with v2 := shellV2 text }
  | .clse => if v.closed then v else { v with closed := true, outputs := v.outputs ++ [.exit (-1)] }

end View

namespace Shell

theorem view_call (s : Shell) (c : Callback) :
    (s.call c).view = { s.view with outputs := s.view.outputs ++ c.outputs } := by
  simp [call, view]

theorem view_send (s : Shell) (cmd : Cmd) (a0 a1 : BitVec 32) (data : List UInt8) :
    (s.send cmd a0 a1 data).view = s.view := by
  rw [send]
  split <;> rfl

/-- Nothing that goes out is seen by the user. -/
theorem view_pump (s : Shell) : s.pump.view = s.view := by
  rcases s.pump_cases with ⟨-, heq⟩ | ⟨-, -, ⟨-, heq⟩ | ⟨-, heq⟩ | ⟨chunk, rest, -, -, heq⟩⟩
  · rw [heq]
  · rw [heq, pumpWindow, view_send]
    rfl
  · rw [heq]
  · rw [heq, pumpChunk, view_send]
    rfl

theorem view_onPacket (s : Shell) (id : UInt8) (body : List UInt8) :
    (s.onPacket id body).view = s.view.packet id body := by
  unfold onPacket View.packet
  split
  · rw [view_call]
    rfl
  · split
    · rw [view_call]
      rfl
    · rfl

variable {s : Shell}

theorem view_handleV2_byte (hv2 : s.v2 = true) (hheld : v2take s.v2buf = none) (b : UInt8) :
    (s.handleV2 [b]).view = s.view.byte b := by
  rw [handleV2_eq, View.byte, if_pos (show s.view.v2 = true from hv2)]
  cases h : v2take (s.v2buf ++ [b]) with
  | none =>
    rw [v2Framing.split_of_none h, show v2take (s.view.held ++ [b]) = none from h]
    rfl
  | some p =>
    obtain ⟨⟨id, body⟩, rest⟩ := p
    have hrest : rest = [] := v2Framing.rest_of_snoc hheld h
    rw [v2Framing.split_of_some h, hrest, v2Framing.split_of_none v2Framing.take_nil,
      show v2take (s.view.held ++ [b]) = some ((id, body), []) from hrest ▸ h]
    change ((s.onPacket id body).withV2buf []).view = ((s.withV2buf []).view).packet id body
    rw [← onPacket_withV2buf, view_onPacket]

theorem v2_handleV2 (s : Shell) (data : List UInt8) : (s.handleV2 data).v2 = s.v2 :=
  (Quiet.trans (Quiet.v2buf s _) (Quiet.drainV2 _)).v2

theorem view_handleV2 (hv2 : s.v2 = true) (hheld : v2take s.v2buf = none) (data : List UInt8) :
    (s.handleV2 data).view = data.foldl View.byte s.view := by
  induction data generalizing s with
  | nil =>
    rw [handleV2_eq, append_nil, v2Framing.split_of_none hheld]
    rfl
  | cons b data ih =>
    rw [show b :: data = [b] ++ data from rfl, handleV2_append,
      ih ((v2_handleV2 s [b]).trans hv2) (take_v2buf_handleV2 s [b]),
      view_handleV2_byte hv2 hheld]
    rfl

variable {v : View}

/-- Without shell v2 a payload is the output. -/
theorem foldl_byte_of_legacy (hv2 : v.v2 = false) (data : List UInt8) :
    data.foldl View.byte v = { v with outputs := v.outputs ++ data.map .byte } := by
  induction data generalizing v with
  | nil => simp
  | cons b data ih =>
    rw [foldl_cons, View.byte, if_neg (by simp [hv2])]
    refine (ih (v := { v with outputs := v.outputs ++ [.byte b] }) hv2).trans ?_
    simp

theorem view_handle (shellV2 : List UInt8 → Bool) (hheld : v2take s.v2buf = none) (m : Msg) :
    (s.handle shellV2 m).view = m.items.foldl (View.item shellV2) s.view := by
  obtain ⟨cmd, a0, a1, data⟩ := m
  cases cmd with
  | cnxn =>
    change ((Shell.call _ _).send _ _ _ _).view = _
    rw [view_send, view_call]
    simp [Msg.items, View.item, Callback.outputs, view]
  | okay =>
    change (if !s.ready then _ else _ : Shell).view = s.view
    split <;> rw [view_pump] <;> rfl
  | clse =>
    change (Shell.view (if s.closed then s else _)) = if s.closed then s.view else _
    split
    · rfl
    · rw [view_call]
      rfl
  | auth =>
    change (s.call _).view = s.view
    rw [view_call]
    simp [Callback.outputs]
  | wrte =>
    have hitems : (data.map Item.byte).foldl (View.item shellV2) s.view =
        data.foldl View.byte s.view := by
      rw [foldl_map]
      rfl
    rw [show Msg.items ⟨.wrte, a0, a1, data⟩ = data.map .byte from rfl, hitems]
    change (if (s.send .okay localId s.remote []).v2 then
      (s.send .okay localId s.remote []).handleV2 data else
      (s.send .okay localId s.remote []).call (.onData data) : Shell).view = _
    have hview := view_send s .okay localId s.remote []
    have hbuf : (s.send .okay localId s.remote []).v2buf = s.v2buf := congrArg View.held hview
    cases hv2 : s.v2 with
    | true =>
      rw [if_pos (by rw [send_v2, hv2]), view_handleV2 (by rw [send_v2, hv2]) (hbuf ▸ hheld),
        hview]
    | false =>
      rw [if_neg (by rw [send_v2, hv2]; decide), view_call, hview,
        foldl_byte_of_legacy hv2]
      rfl
  | «open» => rfl
  | other => rfl

theorem take_held_item (shellV2 : List UInt8 → Bool) (hheld : v2take v.held = none) (i : Item) :
    v2take (v.item shellV2 i).held = none := by
  cases i with
  | byte b =>
    rw [View.item, View.byte]
    split
    · split
      · assumption
      · rename_i id body rest h
        have hrest : rest = [] := v2Framing.rest_of_snoc hheld h
        rw [hrest, View.packet]
        split
        · rfl
        · split <;> rfl
    · exact hheld
  | banner text => exact hheld
  | clse =>
    rw [View.item]
    split <;> exact hheld

theorem take_held_items (shellV2 : List UInt8 → Bool) (is : List Item)
    (hheld : v2take v.held = none) : v2take (is.foldl (View.item shellV2) v).held = none := by
  induction is generalizing v with
  | nil => exact hheld
  | cons i is ih => exact ih (take_held_item shellV2 hheld i)

/-- A run of packets moves the view as the items of all of them do: where one payload ends
and the next begins cannot be seen. -/
theorem view_handles (shellV2 : List UInt8 → Bool) (ms : List Msg) (hheld : v2take s.v2buf = none) :
    (ms.foldl (handle shellV2) s).view =
      (ms.flatMap Msg.items).foldl (View.item shellV2) s.view := by
  induction ms generalizing s with
  | nil => rfl
  | cons m ms ih =>
    have hview := view_handle shellV2 hheld m
    have hnext : v2take (s.handle shellV2 m).v2buf = none := by
      have h := take_held_items shellV2 m.items (v := s.view) hheld
      rw [← hview] at h
      exact h
    rw [foldl_cons, ih hnext, hview, flatMap_cons, foldl_append]

theorem view_onPackets (s : Shell) (ps : List (UInt8 × List UInt8)) :
    (s.onPackets ps).view = ps.foldl (fun v p => v.packet p.1 p.2) s.view := by
  induction ps generalizing s with
  | nil => rfl
  | cons p ps ih =>
    rw [foldl_cons, ← view_onPacket, ← ih]
    rfl

/-- A run of `WRTE` payloads, however the device cuts its stream into them: with shell v2 the
user sees the packets of the whole stream and the tail is held back, without it the stream is
the output. -/
theorem view_payloads (shellV2 : List UInt8 → Bool)
    (ws : List ((BitVec 32 × BitVec 32) × List UInt8)) (hheld : v2take s.v2buf = none) :
    ((ws.map fun w => ⟨.wrte, w.1.1, w.1.2, w.2⟩).foldl (handle shellV2) s).view =
      if s.v2 then
        { (v2Framing.split (s.v2buf ++ ws.flatMap (·.2))).1.foldl (fun v p => v.packet p.1 p.2)
            s.view with held := (v2Framing.split (s.v2buf ++ ws.flatMap (·.2))).2 }
      else { s.view with outputs := s.view.outputs ++ (ws.flatMap (·.2)).map .byte } := by
  have hitems : (ws.map fun w => (⟨.wrte, w.1.1, w.1.2, w.2⟩ : Msg)).flatMap Msg.items =
      (ws.flatMap (·.2)).map .byte := by
    rw [flatMap_map, map_flatMap]
    rfl
  have hbytes : ∀ bytes : List UInt8, (bytes.map Item.byte).foldl (View.item shellV2) s.view =
      bytes.foldl View.byte s.view := by
    intro bytes
    rw [foldl_map]
    rfl
  rw [view_handles shellV2 _ hheld, hitems, hbytes]
  split
  case isTrue hv2 =>
    rw [← view_handleV2 hv2 hheld, handleV2_eq, ← view_onPackets]
    rfl
  case isFalse hv2 =>
    have hlegacy : s.view.v2 = false := Bool.eq_false_iff.mpr hv2
    exact foldl_byte_of_legacy hlegacy _

end Shell

namespace Conn

theorem onmessage_append (shellV2 : List UInt8 → Bool) (c : Conn) (xs ys : List UInt8) :
    c.onmessage shellV2 (xs ++ ys) = (c.onmessage shellV2 xs).onmessage shellV2 ys := by
  simp only [onmessage, parse_eq]
  rw [← append_assoc, msgFraming.split_append]
  simp only [foldl_append, append_assoc]

end Conn

/-! ### The end of the stream -/

/-- The packets at which the client closes the socket. -/
def Msg.closes (m : Msg) : Bool := m.cmd = .clse ∨ m.cmd = .auth

namespace Shell

theorem socketOpen_handle (shellV2 : List UInt8 → Bool) (s : Shell) {m : Msg}
    (hm : m.closes = false) : (s.handle shellV2 m).socketOpen = s.socketOpen := by
  obtain ⟨cmd, a0, a1, data⟩ := m
  cases cmd with
  | clse | auth => simp [Msg.closes] at hm
  | cnxn => simp [handle, call]
  | okay =>
    change (if !s.ready then _ else _ : Shell).socketOpen = s.socketOpen
    split
    · exact (pump_frame { s with remote := a0, ready := true, resizePending := s.v2 }).2.2.2.1
    · exact (pump_frame { s with writing := false }).2.2.2.1
  | wrte =>
    have honPackets : ∀ (ps : List (UInt8 × List UInt8)) (s : Shell),
        (s.onPackets ps).socketOpen = s.socketOpen := by
      intro ps
      induction ps with
      | nil => exact fun _ => rfl
      | cons p ps ih =>
        intro s
        refine (ih (s.onPacket p.1 p.2)).trans ?_
        rw [onPacket]
        split
        · rfl
        · split <;> rfl
    rw [handle]
    simp only
    split
    · rw [handleV2_eq]
      exact (honPackets _ _).trans (send_socketOpen ..)
    · exact send_socketOpen ..
  | «open» | other => rfl

theorem exists_closes (shellV2 : List UInt8 → Bool) (ms : List Msg) {s : Shell}
    (hopen : s.socketOpen = true) (hclosed : (ms.foldl (handle shellV2) s).socketOpen = false) :
    ∃ m ∈ ms, m.closes = true := by
  induction ms generalizing s with
  | nil =>
    rw [foldl_nil, hopen] at hclosed
    cases hclosed
  | cons m ms ih =>
    cases hm : m.closes with
    | true => exact ⟨m, mem_cons_self, hm⟩
    | false =>
      obtain ⟨m', hm', hcloses⟩ := ih ((socketOpen_handle shellV2 s hm).trans hopen) hclosed
      exact ⟨m', mem_cons_of_mem _ hm', hcloses⟩

end Shell

/-- Nothing follows a packet at which the client closes the socket. -/
def EndsAtClose (stream : List UInt8) : Prop :=
  ∀ ms m ms', (msgFraming.split stream).1 = ms ++ m :: ms' → m.closes = true →
    ms' = [] ∧ (msgFraming.split stream).2 = []

/-- What is left behind a beginning of the stream ends at the close too, and if that is
in the beginning, nothing is left. -/
theorem EndsAtClose.of_append {xs ys : List UInt8} (h : EndsAtClose (xs ++ ys)) :
    EndsAtClose ((msgFraming.split xs).2 ++ ys) ∧
      ((∃ m ∈ (msgFraming.split xs).1, m.closes = true) → ys = []) := by
  rw [EndsAtClose, msgFraming.split_append] at h
  constructor
  · intro ms m ms' hms
    exact h ((msgFraming.split xs).1 ++ ms) m ms' (by simp [hms])
  · rintro ⟨m, hm, hcloses⟩
    obtain ⟨before, after, hsplit⟩ := append_of_mem hm
    obtain ⟨hnone, htail⟩ := h before m (after ++ _) (by
      rw [hsplit, append_assoc, cons_append]) hcloses
    obtain ⟨raws, hbytes, hraws⟩ := msgFraming.split_spec ((msgFraming.split xs).2 ++ ys)
    rw [(append_eq_nil_iff.mp hnone).2, forall₂_nil_right_iff] at hraws
    rw [hraws, htail] at hbytes
    exact (append_eq_nil_iff.mp hbytes).2

/-- The client between two events: neither buffer holds a complete packet. -/
structure Client extends Conn where
  inbuf_unfinished : takeMsg inbuf = none
  v2buf_unfinished : Shell.v2take shell.v2buf = none

namespace Client

/-- `open`. -/
def init (cols rows : BitVec 32) : Client where
  shell := Shell.init cols rows
  inbuf := []
  handled := []
  inbuf_unfinished := rfl
  v2buf_unfinished := rfl

end Client

namespace Conn

theorem take_inbuf_onmessage (shellV2 : List UInt8 → Bool) (c : Conn) (data : List UInt8) :
    takeMsg (c.onmessage shellV2 data).inbuf = none := by
  rw [onmessage, parse_eq]
  exact msgFraming.take_tail _

theorem onmessage_nil (shellV2 : List UInt8 → Bool) {c : Conn} (h : takeMsg c.inbuf = none) :
    c.onmessage shellV2 [] = c := by
  rw [onmessage, parse_eq, append_nil, msgFraming.split_of_none h]
  simp

/-- A socket that is closed delivers nothing. -/
theorem receive_of_closed (shellV2 : List UInt8 → Bool) (pieces : List (List UInt8)) {c : Conn}
    (h : c.shell.socketOpen = false) : c.receive shellV2 pieces = c := by
  induction pieces with
  | nil => rfl
  | cons p ps ih =>
    rw [receive, foldl_cons, deliver, h, if_neg Bool.false_ne_true]
    exact ih

theorem receive_eq_onmessage (shellV2 : List UInt8 → Bool) (pieces : List (List UInt8))
    {c : Conn} (h : takeMsg c.inbuf = none) (hopen : c.shell.socketOpen = true)
    (hend : EndsAtClose (c.inbuf ++ pieces.flatten)) :
    c.receive shellV2 pieces = c.onmessage shellV2 pieces.flatten := by
  induction pieces generalizing c with
  | nil => exact (onmessage_nil shellV2 h).symm
  | cons p ps ih =>
    rw [flatten_cons, ← append_assoc] at hend
    obtain ⟨hrest, hlast⟩ := hend.of_append
    have hnext := take_inbuf_onmessage shellV2 c p
    rw [flatten_cons, onmessage_append, receive, foldl_cons, deliver, if_pos hopen, ← receive]
    cases hopen' : (c.onmessage shellV2 p).shell.socketOpen with
    | true =>
      refine ih hnext hopen' ?_
      rw [onmessage, parse_eq]
      exact hrest
    | false =>
      -- the close was in this message, so it is the last one with any bytes
      rw [onmessage, parse_eq] at hopen'
      rw [hlast (Shell.exists_closes shellV2 _ hopen hopen'), onmessage_nil shellV2 hnext]
      refine receive_of_closed shellV2 ps ?_
      rw [onmessage, parse_eq]
      exact hopen'

end Conn

namespace Client

/-- A message leaves the client between two events. -/
def onmessage (shellV2 : List UInt8 → Bool) (c : Client) (data : List UInt8) : Client where
  toConn := c.toConn.onmessage shellV2 data
  inbuf_unfinished := c.toConn.take_inbuf_onmessage shellV2 data
  v2buf_unfinished := by
    rw [Conn.onmessage, Conn.parse_eq]
    change Shell.v2take (View.held (Shell.view _)) = none
    rw [Shell.view_handles shellV2 _ c.v2buf_unfinished]
    exact Shell.take_held_items shellV2 _ c.v2buf_unfinished

/-- However the socket's bytes are cut into messages, if nothing follows a packet at which the
client closes the socket, the client does what it does on all of them at once: it handles the
packets of the stream one after the other and holds back the bytes behind the last of them. And
however the device cuts the shell's stream into payloads, the user sees the packets of the whole
stream, and the bytes behind the last of them are held back. -/
theorem receive_any_cut (shellV2 : List UInt8 → Bool) (c : Client) (pieces : List (List UInt8))
    (hopen : c.shell.socketOpen = true) (hend : EndsAtClose (c.inbuf ++ pieces.flatten)) :
    c.receive shellV2 pieces = (c.onmessage shellV2 pieces.flatten).toConn ∧
    (∃ raws packets,
      c.inbuf ++ pieces.flatten = raws.flatten ++ (c.receive shellV2 pieces).inbuf ∧
      List.Forall₂ (fun raw m => takeMsg raw = some (m, [])) raws packets ∧
      (c.receive shellV2 pieces).handled = c.handled ++ packets ∧
      takeMsg (c.receive shellV2 pieces).inbuf = none ∧
      (c.receive shellV2 pieces).shell = packets.foldl (Shell.handle shellV2) c.shell ∧
      (c.receive shellV2 pieces).shell.view =
        (packets.flatMap Msg.items).foldl (View.item shellV2) c.shell.view) ∧
    ∀ ws : List ((BitVec 32 × BitVec 32) × List UInt8), ∃ raws packets tail,
      c.shell.v2buf ++ ws.flatMap (·.2) = raws.flatten ++ tail ∧
      List.Forall₂ (fun raw p => Shell.v2take raw = some (p, [])) raws packets ∧
      Shell.v2take tail = none ∧
      ((ws.map fun w => ⟨.wrte, w.1.1, w.1.2, w.2⟩).foldl (Shell.handle shellV2) c.shell).view =
        if c.shell.v2 then
          { packets.foldl (fun v p => v.packet p.1 p.2) c.shell.view with held := tail }
        else
          { c.shell.view with
            outputs := c.shell.view.outputs ++ (ws.flatMap (·.2)).map .byte } := by
  have hreceive := Conn.receive_eq_onmessage shellV2 pieces c.inbuf_unfinished hopen hend
  refine ⟨hreceive, ?_, ?_⟩
  · obtain ⟨raws, hbytes, hraws⟩ := msgFraming.split_spec (c.inbuf ++ pieces.flatten)
    rw [hreceive, Conn.onmessage, Conn.parse_eq]
    exact ⟨raws, _, hbytes, hraws, rfl, msgFraming.take_tail _, rfl,
      Shell.view_handles shellV2 _ c.v2buf_unfinished⟩
  · intro ws
    obtain ⟨raws, hbytes, hraws⟩ := Shell.v2Framing.split_spec (c.shell.v2buf ++ ws.flatMap (·.2))
    exact ⟨raws, _, _, hbytes, hraws, Shell.v2Framing.take_tail _,
      Shell.view_payloads shellV2 ws c.v2buf_unfinished⟩

/-- A client whose socket has been opened. -/
def opened : Client where
  shell := step (fun _ => false) (Shell.init 80#32 24#32) .socketOpened
  inbuf := []
  handled := []
  inbuf_unfinished := rfl
  v2buf_unfinished := rfl

/-- A packet as `parse` reads it: a command, two words, the length, two more words and the data. -/
def packetBytes (cmd : ℕ) (data : List UInt8) : List UInt8 :=
  leBytes 4 cmd ++ leBytes 8 0 ++ leBytes 4 data.length ++ leBytes 8 0 ++ data

def outputPacket : List UInt8 := packetBytes 0x45545257 [65, 66]

def closePacket : List UInt8 := packetBytes 0x45534c43 []

theorem opened_receives_output :
    (opened.receive (fun _ => false) [outputPacket.take 25, outputPacket.drop 25 ++ closePacket]
      ).shell.view.outputs = [.byte 65, .byte 66, .exit (-1)] := by
  have hsplit : msgFraming.split (outputPacket ++ closePacket) =
      ([⟨.wrte, 0#32, 0#32, [65, 66]⟩, ⟨.clse, 0#32, 0#32, []⟩], []) := by decide +kernel
  have hbytes : opened.inbuf ++
      [outputPacket.take 25, outputPacket.drop 25 ++ closePacket].flatten =
        outputPacket ++ closePacket := by decide
  obtain ⟨hreceive, -⟩ := receive_any_cut (fun _ => false) opened
    [outputPacket.take 25, outputPacket.drop 25 ++ closePacket] rfl (by
      rw [hbytes]
      intro ms m ms' hms hm
      rw [hsplit] at hms ⊢
      refine ⟨?_, rfl⟩
      rcases ms with _ | ⟨_, _ | ⟨_, ms⟩⟩
      · cases hms
        cases hm
      · cases hms
        rfl
      · simp at hms)
  rw [hreceive]
  decide +kernel

/-- Output behind the close reaches the user if it is in the same message, and else it does not. -/
theorem output_behind_close_depends_on_cut :
    (opened.receive (fun _ => false) [closePacket ++ outputPacket]).shell.view.outputs =
        [.exit (-1), .byte 65, .byte 66] ∧
      (opened.receive (fun _ => false) [closePacket, outputPacket]).shell.view.outputs =
        [.exit (-1)] := by
  decide +kernel

end Client

end Bootbox.Adb
