import Bootbox.Lib.ByteMemory

/-!
The adb client of the guest's shell (`vendor/qemu/adbshell.js`): what `open` keeps
between events, and what it does at each of them.

An event is a message from the device, a change of the socket, or a call by the user
of the client. Callbacks and messages sent are appended to the state. The test of
the device's banner for `shell_v2` is a parameter.
-/

namespace Bootbox.Adb

open Lib.ByteMemory

inductive Cmd
  | cnxn
  | open
  | okay
  | clse
  | wrte
  | auth
  /-- Any other number. -/
  | other
  deriving DecidableEq, Repr

/-- A message, without the checksum and the magic of its header. -/
structure Msg where
  cmd : Cmd
  arg0 : BitVec 32
  arg1 : BitVec 32
  data : List UInt8
  deriving DecidableEq

/-- `TextEncoder.encode` of a text in ASCII. -/
def encode (text : String) : List UInt8 := text.toList.map fun c => UInt8.ofNat c.toNat

/-- `Uint8Array.subarray`'s reading of an index: a negative one counts from the end. -/
def relativeIndex (len : ℕ) (i : ℤ) : ℕ := if i < 0 then (len + i).toNat else min i.toNat len

/-- `a.subarray(begin, end)`. -/
def subarray (a : List UInt8) (start stop : ℤ) : List UInt8 :=
  (a.take (relativeIndex a.length stop)).drop (relativeIndex a.length start)

inductive Callback
  | onData (bytes : List UInt8)
  | onExit (code : ℤ)
  | onStatus (text : String)
  deriving DecidableEq

def aVersion : BitVec 32 := 0x01000001#32
def maxPayload : ℕ := 256 * 1024
def localId : BitVec 32 := 1#32

/-- The variables of `open`, whether the socket is open, and what has gone out. -/
structure Shell where
  socketOpen : Bool
  remote : BitVec 32
  v2 : Bool
  ready : Bool
  closed : Bool
  maxData : ℕ
  v2buf : List UInt8
  writing : Bool
  outq : List (List UInt8)
  cols : BitVec 32
  rows : BitVec 32
  resizePending : Bool
  sent : List Msg
  calls : List Callback

namespace Shell

def call (s : Shell) (c : Callback) : Shell := { s with calls := s.calls ++ [c] }

/-- `send`: nothing goes out through a socket that is not open. -/
def send (s : Shell) (cmd : Cmd) (a0 a1 : BitVec 32) (data : List UInt8) : Shell :=
  if s.socketOpen then { s with sent := s.sent ++ [⟨cmd, a0, a1, data⟩] } else s

def v2packet (id : UInt8) (data : List UInt8) : List UInt8 := id :: (leBytes 4 data.length ++ data)

def decimal (n : BitVec 32) : List UInt8 :=
  let digits := (Nat.toDigits 10 n.toInt.natAbs).map fun c => UInt8.ofNat c.toNat
  if n.toInt < 0 then 45 :: digits else digits

def windowPacket (s : Shell) : List UInt8 :=
  v2packet 5 (decimal s.rows ++ encode "x" ++ decimal s.cols ++ encode ",0x0\x00")

/-- What `pump` sends of the first chunk, and what it puts back. -/
def cut (maxData : ℕ) (chunk : List UInt8) : List UInt8 × Option (List UInt8) :=
  let limit : ℤ := maxData - 5
  if limit < chunk.length then (subarray chunk 0 limit, some (subarray chunk limit chunk.length))
  else (chunk, none)

def pump (s : Shell) : Shell :=
  if s.writing || !s.ready then s
  else if s.resizePending && s.v2 then
    -- a window-size change goes ahead of queued keystrokes
    { s with resizePending := false, writing := true }.send .wrte localId s.remote s.windowPacket
  else
    match s.outq with
    | [] => s
    | chunk :: rest =>
      let (head, back) := cut s.maxData chunk
      { s with outq := back.toList ++ rest, writing := true }.send .wrte localId s.remote
        (if s.v2 then v2packet 0 head else head)

def queue (s : Shell) (bytes : List UInt8) : Shell := { s with outq := s.outq ++ [bytes] }.pump

def v2take : List UInt8 → Option ((UInt8 × List UInt8) × List UInt8)
  | id :: rest =>
    if rest.length < 4 then none
    else
      let len := leNat (rest.take 4)
      let body := rest.drop 4
      if body.length < len then none else some ((id, body.take len), body.drop len)
  | [] => none

theorem v2take_length {buf rest : List UInt8} {p : UInt8 × List UInt8}
    (h : v2take buf = some (p, rest)) : rest.length < buf.length := by
  revert h
  fun_cases v2take buf with
  | case3 _ _ _ _ body =>
    rintro ⟨⟩
    simp only [body, List.length_drop, List.length_cons]
    omega
  | _ => nofun

def onPacket (s : Shell) (id : UInt8) (body : List UInt8) : Shell :=
  if id = 1 ∨ id = 2 then s.call (.onData body)
  else if id = 3 then { s with closed := true }.call (.onExit (body.headD 0).toNat)
  else s

/-- The loop of `handleV2`. -/
def drainV2 (s : Shell) : Shell :=
  match h : v2take s.v2buf with
  | none => s
  | some ((id, body), rest) =>
    have : rest.length < s.v2buf.length := v2take_length h
    drainV2 ({ s with v2buf := rest }.onPacket id body)
termination_by s.v2buf.length
decreasing_by
  simp only [onPacket, call]
  split
  · exact this
  · split <;> exact this

def handleV2 (s : Shell) (data : List UInt8) : Shell := { s with v2buf := s.v2buf ++ data }.drainV2

def service (v2 : Bool) : List UInt8 :=
  encode (if v2 then "shell,v2,TERM=xterm-256color,pty:\x00" else "shell:\x00")

/-- `handle`. `shellV2` says whether a banner has the feature. -/
def handle (shellV2 : List UInt8 → Bool) (s : Shell) (m : Msg) : Shell :=
  match m.cmd with
  | .cnxn =>
    let v2 := shellV2 m.data
    let announced := if m.arg1 = 0#32 then 4096 else m.arg1.toNat
    ({ s with maxData := min maxPayload announced, v2 := v2 }.call (.onStatus
      ("connected to Android (" ++ (if v2 then "pty shell" else "legacy shell") ++ ")"))).send
        .open localId 0#32 (service v2)
  | .auth =>
    { s.call (.onStatus "Android asked for adb authorization (this image should not) - can't open a shell")
      with socketOpen := false }
  | .okay =>
    if !s.ready then
      { s with remote := m.arg0, ready := true, resizePending := s.v2 }.pump
    else { s with writing := false }.pump
  | .wrte =>
    let s := s.send .okay localId s.remote []
    if s.v2 then s.handleV2 m.data else s.call (.onData m.data)
  | .clse =>
    let s := if s.closed then s else { s with closed := true }.call (.onExit (-1))
    { s with socketOpen := false }
  | _ => s

/-- `c | 0 || old`. -/
def orKeep (c : ℤ) (old : BitVec 32) : BitVec 32 :=
  if BitVec.ofInt 32 c = 0#32 then old else BitVec.ofInt 32 c

def resize (s : Shell) (c r : ℤ) : Shell :=
  let s := { s with cols := orKeep c s.cols, rows := orKeep r s.rows }
  if s.v2 && !s.closed then { s with resizePending := true }.pump else s

def write (s : Shell) (x : List UInt8) : Shell := if s.closed then s else s.queue x

def close (s : Shell) : Shell :=
  { { s with closed := true }.send .clse localId s.remote [] with socketOpen := false }

/-- `open`, before anything has happened; `opts.cols` and `opts.rows` default to 80
and 24. -/
def init (cols rows : BitVec 32) : Shell where
  socketOpen := false
  remote := 0#32
  v2 := false
  ready := false
  closed := false
  maxData := 4096
  v2buf := []
  writing := false
  outq := []
  cols := if cols = 0#32 then 80#32 else cols
  rows := if rows = 0#32 then 24#32 else rows
  resizePending := false
  sent := []
  calls := [.onStatus "connecting to Android's adbd…"]

end Shell

inductive Event
  | socketOpened
  | socketClosed
  | socketError
  | message (m : Msg)
  | write (x : List UInt8)
  | resize (c r : ℤ)
  | close

def step (shellV2 : List UInt8 → Bool) (s : Shell) : Event → Shell
  | .socketOpened =>
    { s with socketOpen := true }.send .cnxn aVersion (BitVec.ofNat 32 maxPayload)
      (encode "host::features=shell_v2,cmd\x00")
  | .socketClosed =>
    let s := { s with socketOpen := false }
    if s.closed then s else { s with closed := true }.call (.onExit (-2))
  | .socketError => s.call (.onStatus "can't reach Android's adbd (is Android still starting?)")
  | .message m => s.handle shellV2 m
  | .write x => s.write x
  | .resize c r => s.resize c r
  | .close => s.close

end Bootbox.Adb
