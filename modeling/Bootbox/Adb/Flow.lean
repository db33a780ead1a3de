import Bootbox.Adb.Shell

/-!
Flow control of the adb client, over every order of events.

Whatever happens, at most one `WRTE` is unacknowledged. What has been sent of the
user's bytes, followed by what is queued, is what the user wrote; so the bytes sent
are always a prefix, and each acknowledgement brings out one more piece until nothing
is left. All that needs a limit that leaves room for a byte; that nothing larger than
the device's limit goes out needs room for the name of the service, which is sent
before anything else and is longer than any packet that is not cut to size.
-/

namespace Bootbox.Adb

open Lib.ByteMemory List

namespace Shell

/-! The packets. -/

theorem v2take_v2packet (id : UInt8) {data : List UInt8} (h : data.length < 2 ^ 32) :
    v2take (v2packet id data) = some ((id, data), []) := by
  have hlen : leNat (leBytes 4 data.length) = data.length := by
    rw [leNat_leBytes]
    exact Nat.mod_eq_of_lt h
  have hbody : (leBytes 4 data.length ++ data).drop 4 = data := drop_left' (length_leBytes ..)
  simp [v2packet, v2take, hlen, hbody]

@[simp] theorem length_v2packet (id : UInt8) (data : List UInt8) :
    (v2packet id data).length = data.length + 5 := by
  simp [v2packet]
  omega

theorem length_decimal_le (n : BitVec 32) : (decimal n).length ≤ 11 := by
  have hlt : n.toInt.natAbs < 10 ^ 10 := by
    have h₁ := BitVec.toInt_lt (x := n)
    have h₂ := BitVec.le_toInt n
    omega
  have hdigits := (Nat.length_toDigits_le_iff (by norm_num) (by norm_num)).mpr hlt
  simp only [decimal]
  split
  · rw [length_cons, length_map]
    omega
  · rw [length_map]
    omega

theorem length_windowPacket_le (s : Shell) : s.windowPacket.length ≤ 33 := by
  have hrows := length_decimal_le s.rows
  have hcols := length_decimal_le s.cols
  have hx : (encode "x").length = 1 := by decide
  have hend : (encode ",0x0\x00").length = 5 := by decide
  simp only [windowPacket, length_v2packet, length_append, hx, hend]
  omega

theorem length_service (v2 : Bool) : (service v2).length = if v2 then 34 else 7 := by
  cases v2 <;> decide

@[simp] theorem relativeIndex_natCast (len n : ℕ) : relativeIndex len n = min n len := by
  simp [relativeIndex]

theorem cut_of_lt {maxData : ℕ} (h : 6 ≤ maxData) (chunk : List UInt8) :
    cut maxData chunk =
      if maxData - 5 < chunk.length then
        (chunk.take (maxData - 5), some (chunk.drop (maxData - 5)))
      else (chunk, none) := by
  have hlimit : ((maxData : ℤ) - 5) = ((maxData - 5 : ℕ) : ℤ) := by omega
  have hzero : relativeIndex chunk.length 0 = 0 := by simp [relativeIndex]
  simp only [cut, hlimit, Nat.cast_lt, subarray, relativeIndex_natCast, hzero]
  split
  case isTrue hlt =>
    have hmin : min (maxData - 5) chunk.length = maxData - 5 := by omega
    simp [hmin]
  case isFalse => rfl

/-! What the user's bytes are in what was sent. -/

def stdinPayload (v2 : Bool) (m : Msg) : List UInt8 :=
  if m.cmd = .wrte then
    if v2 then
      match v2take m.data with
      | some ((0, body), _) => body
      | _ => []
    else m.data
  else []

def stdin (v2 : Bool) (sent : List Msg) : List UInt8 := sent.flatMap (stdinPayload v2)

@[simp] theorem stdin_append (v2 : Bool) (sent sent' : List Msg) :
    stdin v2 (sent ++ sent') = stdin v2 sent ++ stdin v2 sent' := by
  simp [stdin]

theorem stdin_eq_nil {v2 : Bool} {sent : List Msg} (h : ∀ m ∈ sent, m.cmd ≠ .wrte) :
    stdin v2 sent = [] := by
  refine flatMap_eq_nil_iff.mpr fun m hm => ?_
  rw [stdinPayload, if_neg (h m hm)]

theorem stdinPayload_window (a0 a1 : BitVec 32) (s : Shell) :
    stdinPayload true ⟨.wrte, a0, a1, s.windowPacket⟩ = [] := by
  have hlen : (decimal s.rows ++ encode "x" ++ decimal s.cols ++ encode ",0x0\x00").length
      < 2 ^ 32 := by
    have h := s.length_windowPacket_le
    rw [windowPacket, length_v2packet] at h
    omega
  simp only [stdinPayload, windowPacket, v2take_v2packet 5 hlen, if_true]
  rfl

theorem stdinPayload_data (v2 : Bool) (a0 a1 : BitVec 32) {data : List UInt8}
    (h : data.length < 2 ^ 32) :
    stdinPayload v2 ⟨.wrte, a0, a1, if v2 then v2packet 0 data else data⟩ = data := by
  cases v2 with
  | true => simp [stdinPayload, v2take_v2packet 0 h]
  | false => simp [stdinPayload]

/-! What a send leaves alone. -/

section Send

variable (s : Shell) (cmd : Cmd) (a0 a1 : BitVec 32) (data : List UInt8)

theorem send_sent : (s.send cmd a0 a1 data).sent
    = s.sent ++ if s.socketOpen then [⟨cmd, a0, a1, data⟩] else [] := by
  rw [send]
  split <;> simp_all

@[simp] theorem send_socketOpen : (s.send cmd a0 a1 data).socketOpen = s.socketOpen := by
  rw [send]
  split <;> rfl

@[simp] theorem send_remote : (s.send cmd a0 a1 data).remote = s.remote := by
  rw [send]
  split <;> rfl

@[simp] theorem send_v2 : (s.send cmd a0 a1 data).v2 = s.v2 := by
  rw [send]
  split <;> rfl

@[simp] theorem send_ready : (s.send cmd a0 a1 data).ready = s.ready := by
  rw [send]
  split <;> rfl

@[simp] theorem send_closed : (s.send cmd a0 a1 data).closed = s.closed := by
  rw [send]
  split <;> rfl

@[simp] theorem send_maxData : (s.send cmd a0 a1 data).maxData = s.maxData := by
  rw [send]
  split <;> rfl

@[simp] theorem send_writing : (s.send cmd a0 a1 data).writing = s.writing := by
  rw [send]
  split <;> rfl

@[simp] theorem send_outq : (s.send cmd a0 a1 data).outq = s.outq := by
  rw [send]
  split <;> rfl

@[simp] theorem send_resizePending :
    (s.send cmd a0 a1 data).resizePending = s.resizePending := by
  rw [send]
  split <;> rfl

end Send

/-! What `pump` can do. -/

def pumpWindow (s : Shell) : Shell :=
  { s with resizePending := false, writing := true }.send .wrte localId s.remote s.windowPacket

def pumpChunk (s : Shell) (chunk : List UInt8) (rest : List (List UInt8)) : Shell :=
  { s with outq := (cut s.maxData chunk).2.toList ++ rest, writing := true }.send .wrte localId
    s.remote (if s.v2 then v2packet 0 (cut s.maxData chunk).1 else (cut s.maxData chunk).1)

def Drained (s : Shell) : Prop := (s.resizePending && s.v2) = false ∧ s.outq = []

theorem pump_cases (s : Shell) :
    ((s.writing = true ∨ s.ready = false) ∧ s.pump = s) ∨
      (s.writing = false ∧ s.ready = true ∧
        (((s.resizePending && s.v2) = true ∧ s.pump = s.pumpWindow) ∨
          (s.Drained ∧ s.pump = s) ∨
          ∃ chunk rest, (s.resizePending && s.v2) = false ∧ s.outq = chunk :: rest ∧
            s.pump = s.pumpChunk chunk rest)) := by
  rw [pump]
  split
  case isTrue hbusy =>
    refine .inl ⟨?_, rfl⟩
    simpa using hbusy
  case isFalse hfree =>
    obtain ⟨hwriting, hready⟩ : s.writing = false ∧ s.ready = true := by simpa using hfree
    refine .inr ⟨hwriting, hready, ?_⟩
    split
    case isTrue hwindow => exact .inl ⟨hwindow, rfl⟩
    case isFalse hwindow =>
      have hnone : (s.resizePending && s.v2) = false := by simpa using hwindow
      cases hq : s.outq with
      | nil => exact .inr (.inl ⟨⟨hnone, hq⟩, rfl⟩)
      | cons chunk rest => exact .inr (.inr ⟨chunk, rest, hnone, rfl, rfl⟩)

theorem pump_frame (s : Shell) :
    s.pump.v2 = s.v2 ∧ s.pump.ready = s.ready ∧ s.pump.maxData = s.maxData ∧
      s.pump.socketOpen = s.socketOpen ∧ s.pump.closed = s.closed := by
  rcases s.pump_cases with ⟨-, heq⟩ | ⟨-, -, ⟨-, heq⟩ | ⟨-, heq⟩ | ⟨chunk, rest, -, -, heq⟩⟩ <;>
    rw [heq] <;> simp [pumpWindow, pumpChunk]

/-! The user's bytes. -/

/-- The device's answer to the banner: whether it has shell v2, and its limit. -/
structure Device where
  v2 : Bool
  limit : ℕ
  roomy : (service v2).length ≤ limit

theorem Device.seven_le (D : Device) : 7 ≤ D.limit := by
  have h := D.roomy
  rw [length_service] at h
  split at h <;> omega

/-- The client of a stream with this device, the user having written `W`. -/
structure Keeps (D : Device) (W : List UInt8) (s : Shell) : Prop where
  v2 : s.v2 = D.v2
  maxData : s.maxData = min maxPayload D.limit
  within : ∀ m ∈ s.sent, m.cmd ≠ .cnxn → m.data.length ≤ D.limit
  sent_leads : stdin D.v2 s.sent <+: W
  queued : s.socketOpen = true → ∃ ignored, stdin D.v2 s.sent ++ s.outq.flatten ++ ignored = W ∧
    (s.closed = false → ignored = [])

variable {D : Device} {W : List UInt8} {s s' : Shell}

/-- A chunk that is cut: the pieces make up the chunk, and the first is small. -/
theorem cut_spec (h : 6 ≤ s.maxData) (chunk : List UInt8) :
    (cut s.maxData chunk).1 ++ (cut s.maxData chunk).2.toList.flatten = chunk ∧
      (cut s.maxData chunk).1.length ≤ s.maxData - 5 := by
  rw [cut_of_lt h]
  split
  case isTrue => simp
  case isFalse hle => simpa using hle

/-- One more message of the stream, with the bytes taken from the queue. -/
theorem Keeps.sending (h : Keeps D W s) (outq : List (List UInt8)) (pending : Bool)
    {data : List UInt8} (hdata : data.length ≤ D.limit)
    (hout : stdinPayload D.v2 ⟨.wrte, localId, s.remote, data⟩ ++ outq.flatten
      = s.outq.flatten) :
    Keeps D W ({ s with outq := outq, resizePending := pending, writing := true }.send .wrte
      localId s.remote data) := by
  have hsent := send_sent { s with outq := outq, resizePending := pending, writing := true }
    .wrte localId s.remote data
  cases hopen : s.socketOpen with
  | false =>
    simp only [hopen, Bool.false_eq_true, if_false, append_nil] at hsent
    refine ⟨by simpa using h.v2, by simpa using h.maxData, ?_, ?_, ?_⟩
    · rw [hsent]
      exact h.within
    · rw [hsent]
      exact h.sent_leads
    · simp
  | true =>
    obtain ⟨ignored, hW, hignored⟩ := h.queued hopen
    simp only [hopen, if_true] at hsent
    have hstdin : stdin D.v2 (s.sent ++ [⟨.wrte, localId, s.remote, data⟩]) ++ outq.flatten
        = stdin D.v2 s.sent ++ s.outq.flatten := by
      rw [stdin_append, append_assoc, ← hout]
      simp [stdin]
    refine ⟨by simpa using h.v2, by simpa using h.maxData, ?_, ?_, fun _ => ⟨ignored, ?_, ?_⟩⟩
    · rw [hsent]
      intro m hm hcmd
      rcases mem_append.mp hm with hm | hm
      · exact h.within m hm hcmd
      · rw [mem_singleton.mp hm]
        exact hdata
    · rw [hsent, ← hW, ← hstdin, append_assoc]
      exact prefix_append ..
    · rw [hsent, send_outq, hstdin]
      exact hW
    · simpa using hignored

theorem Keeps.pump (h : Keeps D W s) : Keeps D W s.pump := by
  have hseven := D.seven_le
  have hmax := h.maxData
  rcases s.pump_cases with ⟨-, heq⟩ | ⟨-, -, ⟨hwindow, heq⟩ | ⟨-, heq⟩ |
    ⟨chunk, rest, -, hq, heq⟩⟩
  · rwa [heq]
  · rw [heq]
    obtain ⟨-, hv2⟩ : s.resizePending = true ∧ s.v2 = true := by simpa using hwindow
    have hDv2 : D.v2 = true := h.v2.symm.trans hv2
    refine h.sending s.outq false ?_ ?_
    · have hroomy := D.roomy
      rw [length_service, hDv2, if_pos rfl] at hroomy
      exact le_trans s.length_windowPacket_le (by omega)
    · rw [hDv2, stdinPayload_window]
      rfl
  · rwa [heq]
  · have hsix : 6 ≤ s.maxData := by
      rw [hmax, maxPayload]
      omega
    obtain ⟨happend, hlen⟩ := cut_spec hsix chunk
    have hle : s.maxData ≤ maxPayload ∧ s.maxData ≤ D.limit := by
      rw [hmax]
      exact ⟨Nat.min_le_left .., Nat.min_le_right ..⟩
    rw [heq]
    refine h.sending _ s.resizePending ?_ ?_
    · split
      · rw [length_v2packet]
        omega
      · omega
    · have hsmall : (cut s.maxData chunk).1.length < 2 ^ 32 := by
        rw [maxPayload] at hle
        omega
      rw [← h.v2, stdinPayload_data s.v2 _ _ hsmall, hq, flatten_append, ← append_assoc, happend]
      rfl

/-! The events that send no bytes of the user. -/

/-- Nothing has happened to the stream but that it may have been closed, and messages
without a payload may have gone out. -/
structure Quiet (s s' : Shell) : Prop where
  v2 : s'.v2 = s.v2
  ready : s'.ready = s.ready
  maxData : s'.maxData = s.maxData
  writing : s'.writing = s.writing
  outq : s'.outq = s.outq
  resizePending : s'.resizePending = s.resizePending
  sent : ∃ more, s'.sent = s.sent ++ more ∧ ∀ m ∈ more, m.cmd ≠ .wrte ∧ m.data = []
  socketOpen : s'.socketOpen = true → s.socketOpen = true
  closed : s'.closed = false → s.closed = false

theorem Quiet.refl (s : Shell) : Quiet s s :=
  ⟨rfl, rfl, rfl, rfl, rfl, rfl, ⟨[], by simp⟩, id, id⟩

theorem Quiet.trans {s'' : Shell} (h : Quiet s s') (h' : Quiet s' s'') : Quiet s s'' := by
  obtain ⟨more, hsent, hmore⟩ := h.sent
  obtain ⟨more', hsent', hmore'⟩ := h'.sent
  refine ⟨h'.v2.trans h.v2, h'.ready.trans h.ready, h'.maxData.trans h.maxData,
    h'.writing.trans h.writing, h'.outq.trans h.outq, h'.resizePending.trans h.resizePending,
    ⟨more ++ more', ?_, ?_⟩, h.socketOpen ∘ h'.socketOpen, h.closed ∘ h'.closed⟩
  · rw [hsent', hsent, append_assoc]
  · intro m hm
    rcases mem_append.mp hm with hm | hm
    · exact hmore m hm
    · exact hmore' m hm

theorem Quiet.call (s : Shell) (c : Callback) : Quiet s (s.call c) :=
  ⟨rfl, rfl, rfl, rfl, rfl, rfl, ⟨[], by simp [Shell.call]⟩, id, id⟩

theorem Quiet.send (s : Shell) {cmd : Cmd} (a0 a1 : BitVec 32) (h : cmd ≠ .wrte) :
    Quiet s (s.send cmd a0 a1 []) := by
  refine ⟨by simp, by simp, by simp, by simp, by simp, by simp, ⟨_, send_sent .., ?_⟩, by simp,
    by simp⟩
  intro m hm
  split at hm
  case isTrue =>
    rw [mem_singleton.mp hm]
    exact ⟨h, rfl⟩
  case isFalse => cases hm

/-- Closing the socket, or noting that the stream is over. -/
theorem Quiet.over (s : Shell) (socketOpen closed : Bool)
    (hopen : socketOpen = true → s.socketOpen = true)
    (hclosed : closed = false → s.closed = false) :
    Quiet s { s with socketOpen := socketOpen, closed := closed } :=
  ⟨rfl, rfl, rfl, rfl, rfl, rfl, ⟨[], by simp⟩, hopen, hclosed⟩

theorem Quiet.window (s : Shell) (cols rows : BitVec 32) :
    Quiet s { s with cols := cols, rows := rows } :=
  ⟨rfl, rfl, rfl, rfl, rfl, rfl, ⟨[], by simp⟩, id, id⟩

theorem Quiet.v2buf (s : Shell) (buf : List UInt8) : Quiet s { s with v2buf := buf } :=
  ⟨rfl, rfl, rfl, rfl, rfl, rfl, ⟨[], by simp⟩, id, id⟩

theorem Quiet.onPacket (s : Shell) (id : UInt8) (body : List UInt8) :
    Quiet s (s.onPacket id body) := by
  rw [Shell.onPacket]
  split
  · exact .call ..
  · split
    · exact (Quiet.over s s.socketOpen true (fun h => h) nofun).trans
        (.call ..)
    · exact .refl s

theorem Quiet.drainV2 (s : Shell) : Quiet s s.drainV2 := by
  induction s using drainV2.induct with
  | case1 s h =>
    rw [Shell.drainV2]
    split
    · exact .refl s
    · simp_all
  | case2 s id body rest h this ih =>
    rw [Shell.drainV2]
    split
    · simp_all
    · next id' body' rest' h' =>
        obtain ⟨⟨rfl, rfl⟩, rfl⟩ : (id' = id ∧ body' = body) ∧ rest' = rest := by
          simpa [h] using h'.symm
        exact (Quiet.v2buf s rest').trans ((Quiet.onPacket ..).trans ih)

theorem Quiet.handle (shellV2 : List UInt8 → Bool) (s : Shell) {m : Msg} (hcnxn : m.cmd ≠ .cnxn)
    (hokay : m.cmd ≠ .okay) : Quiet s (s.handle shellV2 m) := by
  rw [Shell.handle]
  split
  case h_1 hcmd => exact absurd hcmd hcnxn
  case h_2 => exact (Quiet.call s _).trans (.over _ false s.closed nofun id)
  case h_3 hcmd => exact absurd hcmd hokay
  case h_4 =>
    refine (Quiet.send s localId s.remote (show Cmd.okay ≠ .wrte by decide)).trans ?_
    dsimp only
    split
    · exact (Quiet.v2buf ..).trans (.drainV2 _)
    · exact .call ..
  case h_5 =>
    split
    · exact .over s false s.closed nofun id
    · refine (Quiet.over s s.socketOpen true id nofun).trans
        ((Quiet.call _ (.onExit (-1))).trans ?_)
      exact .over _ false true nofun nofun
  case h_6 => exact .refl s

theorem Keeps.quiet (h : Keeps D W s) (hq : Quiet s s') : Keeps D W s' := by
  obtain ⟨more, hsent, hmore⟩ := hq.sent
  have hstdin : stdin D.v2 s'.sent = stdin D.v2 s.sent := by
    rw [hsent, stdin_append, stdin_eq_nil fun m hm => (hmore m hm).1, append_nil]
  refine ⟨hq.v2.trans h.v2, hq.maxData.trans h.maxData, ?_, ?_, ?_⟩
  · rw [hsent]
    intro m hm hcmd
    rcases mem_append.mp hm with hm | hm
    · exact h.within m hm hcmd
    · simp [(hmore m hm).2]
  · rw [hstdin]
    exact h.sent_leads
  · intro hopen
    obtain ⟨ignored, hW, hignored⟩ := h.queued (hq.socketOpen hopen)
    rw [hstdin, hq.outq]
    exact ⟨ignored, hW, fun hclosed => hignored (hq.closed hclosed)⟩

theorem Keeps.queue (h : Keeps D W s) (hclosed : s.closed = false) (x : List UInt8) :
    Keeps D (W ++ x) (s.queue x) := by
  refine Keeps.pump ⟨h.v2, h.maxData, h.within, ?_, ?_⟩
  · exact h.sent_leads.trans (prefix_append ..)
  · intro hopen
    obtain ⟨ignored, hW, hignored⟩ := h.queued hopen
    rw [hignored hclosed, append_nil] at hW
    refine ⟨[], ?_, fun _ => rfl⟩
    rw [← hW]
    simp

theorem Keeps.ignore (h : Keeps D W s) (hclosed : s.closed = true) (x : List UInt8) :
    Keeps D (W ++ x) s := by
  refine { h with sent_leads := h.sent_leads.trans (prefix_append ..), queued := ?_ }
  intro hopen
  obtain ⟨ignored, hW, -⟩ := h.queued hopen
  refine ⟨ignored ++ x, ?_, by simp [hclosed]⟩
  rw [← hW]
  simp

/-! Acknowledgements. -/

/-- The number of `WRTE`s sent. -/
def wrtes (s : Shell) : ℕ := s.sent.countP fun m => decide (m.cmd = .wrte)

theorem wrtes_send (s : Shell) (cmd : Cmd) (a0 a1 : BitVec 32) (data : List UInt8) :
    (s.send cmd a0 a1 data).wrtes ≤ s.wrtes + (decide (cmd = .wrte)).toNat := by
  rw [wrtes, send_sent, countP_append]
  refine Nat.add_le_add_left ?_ _
  split
  · simp [countP_singleton]
    split <;> simp_all
  · simp

theorem wrtes_pump (s : Shell) :
    s.pump.wrtes + s.writing.toNat ≤ s.wrtes + s.pump.writing.toNat := by
  rcases s.pump_cases with ⟨-, heq⟩ | ⟨hwriting, -, ⟨-, heq⟩ | ⟨-, heq⟩ | ⟨chunk, rest, -, -, heq⟩⟩
  · rw [heq]
  · have hbusy : s.pumpWindow.writing = true := by simp [pumpWindow]
    rw [heq, hwriting, hbusy]
    exact wrtes_send { s with resizePending := false, writing := true } .wrte ..
  · rw [heq]
  · have hbusy : (s.pumpChunk chunk rest).writing = true := by simp [pumpChunk]
    rw [heq, hwriting, hbusy]
    exact wrtes_send { s with outq := _, writing := true } .wrte ..

theorem writing_pump (s : Shell) : s.writing.toNat ≤ s.pump.writing.toNat := by
  rcases s.pump_cases with ⟨-, heq⟩ | ⟨hwriting, -⟩
  · rw [heq]
  · rw [hwriting]
    exact Nat.zero_le _

theorem Quiet.wrtes (hq : Quiet s s') : s'.wrtes = s.wrtes := by
  obtain ⟨more, hsent, hmore⟩ := hq.sent
  have hnone : more.countP (fun m => decide (m.cmd = .wrte)) = 0 :=
    countP_eq_zero.mpr fun m hm => by simpa using (hmore m hm).1
  rw [Shell.wrtes, Shell.wrtes, hsent, countP_append, hnone, Nat.add_zero]

/-! What is still to be sent. -/

def pieces (maxData n : ℕ) : ℕ := (n - 1) / (maxData - 5) + 1

def waiting (s : Shell) : ℕ :=
  (s.outq.map fun chunk => pieces s.maxData chunk.length).sum + (s.resizePending && s.v2).toNat

theorem pieces_of_lt {maxData n : ℕ} (h : 6 ≤ maxData) (hn : maxData - 5 < n) :
    pieces maxData n = pieces maxData (n - (maxData - 5)) + 1 := by
  obtain ⟨k, rfl⟩ : ∃ k, n = k + (maxData - 5) + 1 := ⟨n - (maxData - 5) - 1, by omega⟩
  have hsub : k + (maxData - 5) + 1 - (maxData - 5) - 1 = k := by omega
  rw [pieces, pieces, hsub, Nat.add_sub_cancel, Nat.add_div_right k (by omega)]

theorem waiting_pump (h : 6 ≤ s.maxData) (hwriting : s.writing = false) (hready : s.ready = true) :
    s.pump.waiting = s.waiting - 1 := by
  rcases s.pump_cases with ⟨hbusy, -⟩ | ⟨-, -, ⟨hwindow, heq⟩ | ⟨⟨hnone, hq⟩, heq⟩ |
    ⟨chunk, rest, hnone, hq, heq⟩⟩
  · simp [hwriting, hready] at hbusy
  · rw [heq]
    simp [waiting, pumpWindow, hwindow]
  · rw [heq]
    simp [waiting, hnone, hq]
  · have hpieces : ((cut s.maxData chunk).2.toList.map fun c => pieces s.maxData c.length).sum
        = pieces s.maxData chunk.length - 1 := by
      rw [cut_of_lt h]
      split
      case isTrue hlt => simp [pieces_of_lt h hlt]
      case isFalse hle =>
        simp [pieces, Nat.div_eq_of_lt (show chunk.length - 1 < s.maxData - 5 by omega)]
    have hpos : 0 < pieces s.maxData chunk.length := Nat.succ_pos _
    rw [heq]
    simp only [waiting, pumpChunk, send_outq, send_maxData, send_resizePending, send_v2, hnone, hq,
      map_append, sum_append, hpieces, map_cons, sum_cons, Bool.toNat_false]
    omega

theorem waiting_pump_le (h : 6 ≤ s.maxData) : s.pump.waiting ≤ s.waiting := by
  rcases s.pump_cases with ⟨-, heq⟩ | ⟨hwriting, hready, -⟩
  · rw [heq]
  · rw [waiting_pump h hwriting hready]
    exact Nat.sub_le ..

theorem outq_of_waiting (h : s.waiting = 0) : s.outq = [] := by
  cases hq : s.outq with
  | nil => rfl
  | cons chunk rest =>
    have hpos : 0 < pieces s.maxData chunk.length := Nat.succ_pos _
    rw [waiting, hq, map_cons, sum_cons] at h
    omega

end Shell

end Bootbox.Adb
