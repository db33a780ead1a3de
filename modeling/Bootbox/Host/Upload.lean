import Bootbox.Host.Respond
import Bootbox.Lib.Publish

/-!
Uploads of saved states: `receiveRequest` and `handleUpload` in `LocalServer.swift`. A
body is written to `<name>.part`, which is moved to `<name>` when as many bytes have
been received as `Content-Length` says.

Any number of uploads run in steps that interleave, one step for each call that
touches the folder. Each call may fail; the code looks at none of the failures except
that of opening the temporary file.
-/

namespace Bootbox.Host

open Lib Lib.Trace Lib.PathNames List Option Function

variable {head initialBody : List UInt8} {pieces : List (List UInt8 × Bool)}

/-! ### Receiving the head -/

/-- `"\r\n\r\n"`. -/
def headEnd : List UInt8 := [13, 10, 13, 10]

/-- The bytes before the first `"\r\n\r\n"`, and those behind it. -/
def cutHead : List UInt8 → Option (List UInt8 × List UInt8)
  | [] => none
  | b :: rest =>
    if headEnd <+: b :: rest then some ([], (b :: rest).drop 4)
    else (cutHead rest).map fun (head, body) => (b :: head, body)

inductive Received
  | waiting
  | cancelled
  /-- The head is complete: what follows it so far, and what is still to come. -/
  | request (head initialBody : List UInt8) (rest : List (List UInt8 × Bool))

/-- `receiveRequest`, on the pieces that arrive, each with a flag that the connection has ended
or failed. -/
def receiveRequest (buffer : List UInt8) : List (List UInt8 × Bool) → Received
  | [] => .waiting
  | (data, ended) :: rest =>
    let buf := buffer ++ data
    match cutHead buf with
    | some (head, initialBody) => .request head initialBody rest
    | none =>
      if ended then .cancelled
      else if buf.length < 64 * 1024 then receiveRequest buf rest
      else .cancelled

theorem length_of_cutHead {xs body : List UInt8} (h : cutHead xs = some (head, body)) :
    4 ≤ xs.length := by
  induction xs generalizing head body with
  | nil => cases h
  | cons b rest ih =>
    rw [cutHead] at h
    split at h
    case isTrue hend => exact hend.length_le
    case isFalse =>
      obtain ⟨⟨head', body'⟩, hcut, -⟩ := map_eq_some_iff.mp h
      exact Nat.le_succ_of_le (ih hcut)

theorem cutHead_append {xs body : List UInt8} (h : cutHead xs = some (head, body))
    (ys : List UInt8) : cutHead (xs ++ ys) = some (head, body ++ ys) := by
  induction xs generalizing head body with
  | nil => cases h
  | cons b rest ih =>
    have hlen := length_of_cutHead h
    rw [cutHead] at h
    rw [cons_append, cutHead]
    split at h
    case isTrue hend =>
      cases h
      have hstart : headEnd <+: b :: (rest ++ ys) :=
        hend.trans (prefix_append (b :: rest) ys)
      rw [if_pos hstart, ← cons_append, drop_append_of_le_length hlen]
    case isFalse hend =>
      -- the end is not found earlier: the bytes that would be it are all there
      have hnot : ¬ headEnd <+: b :: (rest ++ ys) := fun hstart =>
        hend (prefix_of_prefix_length_le hstart (prefix_append (b :: rest) ys) hlen)
      obtain ⟨⟨head', body'⟩, hcut, heq⟩ := map_eq_some_iff.mp h
      cases heq
      rw [if_neg hnot, ih hcut]
      rfl

/-- However the request is cut, its head is found, and what comes with the head is the
beginning of its body. -/
theorem receiveRequest_spec {buffer : List UInt8} {rest : List (List UInt8 × Bool)}
    (h : receiveRequest buffer pieces = .request head initialBody rest) :
    cutHead (buffer ++ (pieces.map (·.1)).flatten) =
      some (head, initialBody ++ (rest.map (·.1)).flatten) := by
  fun_induction receiveRequest buffer pieces with
  | case2 buffer data ended pieces buf head' body' hcut =>
    cases h
    rw [map_cons, flatten_cons, ← append_assoc]
    exact cutHead_append hcut _
  | case4 buffer data ended pieces buf hcut hended hlt ih =>
    rw [map_cons, flatten_cons, ← append_assoc]
    exact ih h
  | _ => cases h

/-! ### The uploads -/

/-- `Int(text)`. -/
def int? (text : List Char) : Option ℤ :=
  let negative := text.head? = some '-'
  let digits := if negative ∨ text.head? = some '+' then text.tail else text
  if digits = [] ∨ ¬ digits.all Char.isDigit then none
  else
    let value : ℤ := if negative then -digitsValue digits else digitsValue digits
    if -2 ^ 63 ≤ value ∧ value < 2 ^ 63 then some value else none

/-- An upload that `handleUpload` does not refuse: all that the client means to send, its head
and the text it is decoded to, the body behind it, and the name its path leads to. -/
structure Upload where
  request : List UInt8
  headerData : List UInt8
  body : List UInt8
  cut : cutHead request = some (headerData, body)
  head : List Char
  method : "POST ".toList <+: head ∨ "PUT ".toList <+: head
  name : List Char
  named : (requestPath (splitLines head)).bind saveName = some name

namespace Upload

def contentLength (u : Upload) : ℤ :=
  ((fieldValue? "content-length:".toList (splitLines u.head).tail).bind int?).getD 0

def tmp (u : Upload) : List Char := u.name ++ ".part".toList

theorem initialBody_of_received (u : Upload) (hpieces : (pieces.map (·.1)).flatten <+: u.request)
    (h : receiveRequest [] pieces = .request head initialBody []) : initialBody <+: u.body := by
  obtain ⟨later, hlater⟩ := hpieces
  have hcut := cutHead_append (receiveRequest_spec h) later
  rw [nil_append, hlater, u.cut, some.injEq, Prod.mk.injEq] at hcut
  rw [hcut.2, append_assoc]
  exact prefix_append _ _

end Upload

/-- Where `handleUpload` is: before its next call, or before `conn.receive` calls back. -/
inductive Phase
  /-- The head has not been received. -/
  | waiting
  /-- Before the removal of the temporary file, with a part of the body received. -/
  | removeTmp (initialBody : List UInt8)
  | createTmp (initialBody : List UInt8)
  | openTmp (initialBody : List UInt8)
  /-- Before data is written, the last to be received if the connection has ended. -/
  | writing (data : List UInt8) (ended : Bool)
  | receiving
  | removeDest
  | moveTmp
  /-- `ok` has been answered. -/
  | answered
  | cancelled
  deriving DecidableEq

/-- An upload's variables: the file behind its handle and the position there, and `written`. -/
structure Job where
  phase : Phase
  file : ℕ
  pos : ℕ
  written : ℕ

/-- The imports folder, the uploads, and the answers: who was answered `ok`, and what was under
the name then. -/
structure Uploads (ι : Type*) where
  store : FileStore (List Char)
  jobs : ι → Job
  answers : List (ι × Option (List UInt8))

/-- What an upload does next, with what the system makes of it. -/
inductive Call
  /-- The head has come, in these pieces. -/
  | head (pieces : List (List UInt8 × Bool))
  | removeTmp (ok : Bool)
  | createTmp (ok : Bool)
  | openTmp (ok : Bool)
  /-- A write of which so many bytes reach the file: it fails if these are not all. -/
  | write (count : ℕ)
  /-- `conn.receive` calls back with so many bytes. -/
  | receive (count : ℕ) (ended : Bool)
  | removeDest (ok : Bool)
  | moveTmp (ok : Bool)

section Code

variable {ι : Type*} [DecidableEq ι] (uploads : ι → Upload)

/-- Behind a write: `finish` if enough has been received, else the next `receive`. -/
def afterWrite (u : Upload) (written : ℕ) (ended : Bool) : Phase :=
  if u.contentLength ≤ written then .removeDest else if ended then .cancelled else .receiving

def Uploads.set (s : Uploads ι) (i : ι) (job : Job) : Uploads ι :=
  { s with jobs := update s.jobs i job }

def Uploads.withStore (s : Uploads ι) (store : FileStore (List Char)) : Uploads ι :=
  { s with store := store }

def Uploads.answer (s : Uploads ι) (i : ι) (content : Option (List UInt8)) : Uploads ι :=
  { s with answers := s.answers ++ [(i, content)] }

def uploadStep (s : Uploads ι) (i : ι) (call : Call) : Option (Uploads ι) :=
  let u := uploads i
  let job := s.jobs i
  match job.phase, call with
  | .waiting, .head pieces =>
    -- a connection that ends within the head touches nothing
    match receiveRequest [] pieces with
    | .request _ initialBody [] =>
      if (pieces.map (·.1)).flatten <+: u.request then
        some (s.set i { job with phase := .removeTmp initialBody })
      else none
    | _ => none
  | .removeTmp initialBody, .removeTmp ok =>
    some ((s.withStore (if ok then s.store.remove u.tmp else s.store)).set i
      { job with phase := .createTmp initialBody })
  | .createTmp initialBody, .createTmp ok =>
    some ((s.withStore (if ok then s.store.create u.tmp else s.store)).set i
      { job with phase := .openTmp initialBody })
  | .openTmp initialBody, .openTmp ok =>
    match if ok then s.store.dir u.tmp else none with
    | none => some (s.set i { job with phase := .cancelled })
    | some file =>
      let phase :=
        if initialBody = [] then afterWrite u 0 false else Phase.writing initialBody false
      some (s.set i ⟨phase, file, 0, 0⟩)
  | .writing data ended, .write count =>
    if count ≤ data.length then
      some ((s.withStore (s.store.writeAt job.file job.pos (data.take count))).set i
        { job with
          pos := job.pos + count
          -- a failed write is counted like any other
          written := job.written + data.length
          phase := afterWrite u (job.written + data.length) ended })
    else none
  | .receiving, .receive count ended =>
    if job.written + count ≤ u.body.length then
      let data := (u.body.drop job.written).take count
      let phase :=
        if count = 0 then afterWrite u job.written ended else Phase.writing data ended
      some (s.set i { job with phase := phase })
    else none
  | .removeDest, .removeDest ok =>
    some ((s.withStore (if ok then s.store.remove u.name else s.store)).set i
      { job with phase := .moveTmp })
  | .moveTmp, .moveTmp ok =>
    let store := if ok then (s.store.move u.tmp u.name).getD s.store else s.store
    -- `ok` is answered whatever has happened
    some (((s.withStore store).set i { job with phase := .answered }).answer i
      (store.content u.name))
  | _, _ => none

end Code

def Uploads.init {ι : Type*} (store : FileStore (List Char)) : Uploads ι where
  store := store
  jobs _ := ⟨.waiting, 0, 0, 0⟩
  answers := []

/-! ### The condition -/

def Phase.IsActive : Phase → Prop
  | .waiting | .answered | .cancelled => False
  | _ => True

/-- The calls with which uploads do what they are for: `Content-Length` is the length of the
body, no two uploads are under way for one name, no name is that of another's temporary file,
the temporary file is empty when it is opened, every write is complete, and the file that is
replaced can be removed and the new one moved. -/
def Allowed {ι : Type*} (uploads : ι → Upload) (s : Uploads ι) (i : ι) : Call → Prop
  | .head _ =>
    (uploads i).contentLength = (uploads i).body.length ∧ (uploads i).name ≠ ['.'] ∧
    (∀ j, (s.jobs j).phase.IsActive → (uploads j).name ≠ (uploads i).name) ∧
    ∀ j, (s.jobs j).phase ≠ .waiting →
      (uploads j).name ≠ (uploads i).tmp ∧ (uploads i).name ≠ (uploads j).tmp
  | .openTmp ok => ok = true → ∀ file, s.store.dir (uploads i).tmp = some file →
      s.store.data file = []
  | .write count => ∀ data ended, (s.jobs i).phase = .writing data ended → count = data.length
  | .removeDest ok => ok = true ∨ s.store.dir (uploads i).name = none
  | .moveTmp ok => ok = true
  | _ => True

def AllowedStep {ι : Type*} [DecidableEq ι] (uploads : ι → Upload) (s : Uploads ι)
    (e : ι × Call) (s' : Uploads ι) : Prop :=
  uploadStep uploads s e.1 e.2 = some s' ∧ Allowed uploads s e.1 e.2

/-! ### Uploads publish their bodies -/

section Publishing

open Publish

variable {ι : Type*} (uploads : ι → Upload)

variable {before store : FileStore (List Char)} {file pos written : ℕ} {ended : Bool}

def plan : Plan ι (List Char) := ⟨fun i => (uploads i).name, fun i => (uploads i).tmp⟩

def stageOf (u : Upload) (job : Job) : Stage :=
  match job.phase with
  | .waiting => .idle
  | .removeTmp _ | .createTmp _ | .openTmp _ => .prep
  | .writing _ _ | .receiving => .filling job.file u.body job.written
  | .removeDest => .full job.file u.body
  | .moveTmp => .gap job.file u.body
  | .answered => .done u.body
  | .cancelled => .dead

def world (s : Uploads ι) : World ι (List Char) :=
  ⟨s.store, fun i => stageOf (uploads i) (s.jobs i), fun _ => False⟩

def JobInv (u : Upload) (job : Job) : Prop :=
  match job.phase with
  | .removeTmp initialBody | .createTmp initialBody | .openTmp initialBody =>
    u.contentLength = u.body.length ∧ initialBody <+: u.body
  | .writing data _ =>
    u.contentLength = u.body.length ∧ job.pos = job.written ∧ job.written ≤ u.body.length ∧
      data <+: u.body.drop job.written
  | .receiving =>
    u.contentLength = u.body.length ∧ job.pos = job.written ∧ job.written ≤ u.body.length
  | _ => True

variable {uploads} {s s' : Uploads ι} {i : ι}

variable {u : Upload} {job : Job}

theorem stageOf_isActive : (stageOf u job).IsActive ↔ job.phase.IsActive := by
  rw [stageOf]
  cases job.phase <;> rfl

theorem stageOf_idle : stageOf u job = .idle ↔ job.phase = .waiting := by
  rw [stageOf]
  cases job.phase <;> simp

theorem free_of_allowed (h : Allowed uploads s i (.head pieces)) :
    Free (plan uploads) (world uploads s) i := by
  obtain ⟨-, -, halone, hapart⟩ := h
  refine ⟨fun j hj => halone j (stageOf_isActive.mp hj), not_false, fun heq => ?_, fun j hj => ?_⟩
  · have hlen := congrArg length heq
    simp [plan, Upload.tmp] at hlen
  · obtain ⟨hname, htmp⟩ := hapart j fun hwait => hj (stageOf_idle.mpr hwait)
    exact ⟨hname, htmp, fun heq => append_cancel_right heq⟩

theorem answered_of_isPublished {text : List UInt8} (h : (stageOf u job).IsPublished text) :
    job.phase = .answered ∧ text = u.body := by
  rw [stageOf] at h
  cases hphase : job.phase <;> simp_all [Stage.IsPublished]

theorem moveTmp_of_leavesGap (h : (stageOf u job).LeavesGap) : job.phase = .moveTmp := by
  rw [stageOf] at h
  cases hphase : job.phase <;> simp_all [Stage.LeavesGap]

/-- What holds throughout a run of allowed calls. -/
structure UploadsInv (uploads : ι → Upload) (before : FileStore (List Char)) (s : Uploads ι) :
    Prop where
  publish : Inv (plan uploads) before (world uploads s)
  jobs : ∀ i, JobInv (uploads i) (s.jobs i)
  answers : ∀ a ∈ s.answers, a.2 = some (uploads a.1).body

theorem UploadsInv.init (uploads : ι → Upload) (before : FileStore (List Char)) :
    UploadsInv uploads before (.init before) where
  publish := Inv.init (plan uploads) before
  jobs _ := trivial
  answers _ ha := by cases ha

theorem UploadsInv.content (hinv : UploadsInv uploads before s) (hi : (s.jobs i).phase ≠ .waiting)
    (hquiet : ∀ j, (uploads j).name = (uploads i).name → (s.jobs j).phase ≠ .moveTmp) :
    s.store.content (uploads i).name = before.content (uploads i).name ∨
      ∃ j, (uploads j).name = (uploads i).name ∧ (s.jobs j).phase = .answered ∧
        s.store.content (uploads i).name = some (uploads j).body := by
  have hbegun : (world uploads s).stage i ≠ .idle := fun h => hi (stageOf_idle.mp h)
  rcases hinv.publish.holds (uploads i).name not_false
    fun j hj => hinv.publish.apart i j hbegun hj with hsame | ⟨j, text, hj, hp, hc⟩ | ⟨-, j, hj, hg⟩
  · exact .inl hsame
  · obtain ⟨hphase, rfl⟩ := answered_of_isPublished hp
    exact .inr ⟨j, hj, hphase, hc⟩
  · exact absurd (moveTmp_of_leavesGap hg) (hquiet j hj)

variable [DecidableEq ι]

theorem world_set (s : Uploads ι) (store : FileStore (List Char)) (i : ι) (job : Job) :
    world uploads ((s.withStore store).set i job) =
      ((world uploads s).withStore store).set i (stageOf (uploads i) job) := by
  have hstage : (fun j => stageOf (uploads j) (update s.jobs i job j)) =
      update (fun j => stageOf (uploads j) (s.jobs j)) i (stageOf (uploads i) job) :=
    funext (apply_update (fun j => stageOf (uploads j)) s.jobs i job)
  simp only [world, Uploads.set, Uploads.withStore, World.set, World.withStore, hstage]

theorem run_afterWrite {w : World ι (List Char)}
    (hlength : (uploads i).contentLength = (uploads i).body.length)
    (h : w.stage i = .filling file (uploads i).body written) :
    ∃ is, Run (Step (plan uploads)) w is (w.set i
      (stageOf (uploads i) ⟨afterWrite (uploads i) written ended, file, pos, written⟩)) := by
  rw [afterWrite]
  split
  case isTrue hle =>
    have hcount : (uploads i).body.length ≤ written := by
      rw [hlength] at hle
      exact_mod_cast hle
    exact Step.once (.completed h hcount)
  case isFalse =>
    split
    case isTrue =>
      exact Step.once (.quit (h ▸ trivial) (.refl _ _ _))
    case isFalse =>
      exact ⟨[], Run.nil_iff.mpr (World.set_eq_self h).symm⟩

theorem run_filled {w w' : World ι (List Char)}
    (hlength : (uploads i).contentLength = (uploads i).body.length)
    (h : Step (plan uploads) w i (w'.set i (.filling file (uploads i).body written))) :
    ∃ is, Run (Step (plan uploads)) w is (w'.set i
      (stageOf (uploads i) ⟨afterWrite (uploads i) written ended, file, pos, written⟩)) := by
  obtain ⟨is, hrun⟩ := run_afterWrite hlength (World.stage_set_self w' i _)
  rw [World.set_set] at hrun
  exact ⟨i :: is, .cons h hrun⟩

/-- What is shown of a call: it is a run of the publishing protocol, it keeps the upload's
invariant and leaves the other uploads alone, and `ok` is answered with the body in place. -/
structure Sound (uploads : ι → Upload) (s : Uploads ι) (i : ι) (s' : Uploads ι) : Prop where
  run : ∃ is, Run (Step (plan uploads)) (world uploads s) is (world uploads s')
  job : JobInv (uploads i) (s'.jobs i)
  others : ∀ j, j ≠ i → s'.jobs j = s.jobs j
  answers : ∀ a ∈ s'.answers, a ∈ s.answers ∨ a = (i, some (uploads i).body)

theorem Sound.set (hrun : ∃ is, Run (Step (plan uploads)) (world uploads s) is
      (((world uploads s).withStore store).set i (stageOf (uploads i) job)))
    (hjob : JobInv (uploads i) job) : Sound uploads s i ((s.withStore store).set i job) where
  run := by
    rw [world_set]
    exact hrun
  job := by
    change JobInv (uploads i) (update s.jobs i job i)
    rwa [update_self]
  others _ hj := update_of_ne hj ..
  answers _ ha := .inl ha

theorem sound_prepare (hstage : (world uploads s).stage i = .prep)
    (hstore : s.store.Frame (· = (uploads i).tmp)
      (fun k => s.store.dir (uploads i).tmp = some k) store)
    (hprep : stageOf (uploads i) job = .prep) (hjob : JobInv (uploads i) job) :
    Sound uploads s i ((s.withStore store).set i job) := by
  refine .set ⟨[i], .cons (.prepare (hstage ▸ trivial) hstore) ?_⟩ hjob
  rw [hprep]
  exact .nil _

theorem jobInv_afterWrite (hlength : u.contentLength = u.body.length)
    (hle : written ≤ u.body.length) :
    JobInv u ⟨afterWrite u written ended, file, written, written⟩ := by
  rw [afterWrite]
  split
  · trivial
  · split
    · trivial
    · exact ⟨hlength, rfl, hle⟩

/-- The temporary file is opened, and the beginning of the body is at hand. -/
theorem sound_opened (hstage : (world uploads s).stage i = .prep)
    (hopen : s.store.dir (uploads i).tmp = some file) (hdata : s.store.data file = [])
    (hjob : (uploads i).contentLength = (uploads i).body.length ∧
      initialBody <+: (uploads i).body) :
    Sound uploads s i (s.set i ⟨if initialBody = [] then afterWrite (uploads i) 0 false
      else .writing initialBody false, file, 0, 0⟩) := by
  obtain ⟨hlength, hstart⟩ := hjob
  have hopened : Step (plan uploads) (world uploads s) i
      ((world uploads s).set i (.filling file (uploads i).body 0)) := .opened hstage hopen hdata
  split
  · exact Sound.set (run_filled hlength hopened) (jobInv_afterWrite hlength (Nat.zero_le _))
  · exact Sound.set (Step.once hopened) ⟨hlength, rfl, Nat.zero_le _, hstart⟩

theorem sound_write {data : List UInt8} (hstage : (world uploads s).stage i =
      .filling (s.jobs i).file (uploads i).body (s.jobs i).written)
    (hdata : s.store.data (s.jobs i).file = (uploads i).body.take (s.jobs i).written)
    (hjob : (uploads i).contentLength = (uploads i).body.length ∧
      (s.jobs i).pos = (s.jobs i).written ∧ (s.jobs i).written ≤ (uploads i).body.length ∧
      data <+: (uploads i).body.drop (s.jobs i).written) :
    Sound uploads s i ((s.withStore (s.store.writeAt (s.jobs i).file (s.jobs i).pos
      (data.take data.length))).set i
        ⟨afterWrite (uploads i) ((s.jobs i).written + data.length) ended,
        (s.jobs i).file, (s.jobs i).pos + data.length, (s.jobs i).written + data.length⟩) := by
  obtain ⟨hlength, hpos, hle, hpiece⟩ := hjob
  have hlen : data.length ≤ ((uploads i).body.drop (s.jobs i).written).length := hpiece.length_le
  rw [length_drop] at hlen
  rw [take_length, hpos]
  -- the piece goes behind what is in the file
  have hwrite : (s.store.writeAt (s.jobs i).file (s.jobs i).written data).data (s.jobs i).file =
      (uploads i).body.take ((s.jobs i).written + data.length) := by
    have hend : (s.store.data (s.jobs i).file).length = (s.jobs i).written := by
      rw [hdata, length_take, Nat.min_eq_left hle]
    have happend := s.store.data_writeAt_end (s.jobs i).file data
    rw [hend] at happend
    rw [happend, hdata, take_add, ← prefix_iff_eq_take.mp hpiece]
  have hfill : Step (plan uploads) (world uploads s) i
      (((world uploads s).withStore _).set i (.filling (s.jobs i).file (uploads i).body
        ((s.jobs i).written + data.length))) :=
    .fill hstage (FileStore.Frame.writeAt _ _ _ _) hwrite
  exact Sound.set (run_filled hlength hfill) (jobInv_afterWrite hlength (by omega))

/-- The last call: the file gets its name, and `ok` is answered. -/
theorem sound_answer (hinv : Inv (plan uploads) before (world uploads s))
    (hstage : (world uploads s).stage i = .gap file (uploads i).body)
    (hmove : s.store.move (uploads i).tmp (uploads i).name = some store) :
    Sound uploads s i (((s.withStore store).set i ⟨.answered, file, pos, written⟩).answer i
      (store.content (uploads i).name)) := by
  have hcontent : store.content (uploads i).name = some (uploads i).body := by
    have hpublished := (hinv.publish hstage hmove).knows i
    rwa [World.stage_set_self] at hpublished
  have hset : Sound uploads s i ((s.withStore store).set i ⟨.answered, file, pos, written⟩) := by
    apply Sound.set
    · refine ⟨[i, i], .cons (.publish hstage hmove) ?_⟩
      have hrelease := Step.release (P := plan uploads)
        (World.stage_set_self ((world uploads s).withStore store) i (.published (uploads i).body))
      rw [World.set_set] at hrelease
      exact .cons hrelease (.nil _)
    · trivial
  refine ⟨hset.run, hset.job, hset.others, fun a ha => ?_⟩
  rcases mem_append.mp ha with hold | hnew
  · exact .inl hold
  · rw [mem_singleton.mp hnew, hcontent]
    exact .inr rfl

theorem uploadStep_sound {call : Call} (hinv : Inv (plan uploads) before (world uploads s))
    (hjob : JobInv (uploads i) (s.jobs i)) (hallowed : Allowed uploads s i call)
    (h : uploadStep uploads s i call = some s') : Sound uploads s i s' := by
  have hknows := hinv.knows i
  have hstage : (world uploads s).stage i = stageOf (uploads i) (s.jobs i) := rfl
  rw [hstage] at hknows
  revert h
  fun_cases uploadStep uploads s i call
  all_goals rintro ⟨⟩
  all_goals
    have hphase := ‹(s.jobs i).phase = _›
    simp only [JobInv, hphase] at hjob
    simp only [stageOf, hphase] at hknows hstage
  case case1 hreceived hpieces =>
    refine .set (Step.once (.start hstage (free_of_allowed hallowed))) ?_
    exact ⟨hallowed.1, (uploads i).initialBody_of_received hpieces hreceived⟩
  case case4 ok _ =>
    refine sound_prepare hstage (.ite ?_ ok) rfl hjob
    exact (FileStore.Frame.remove _ _).mono (fun _ h => h) fun _ h => h.elim
  case case5 ok _ => exact sound_prepare hstage (.ite (FileStore.Frame.create _ _) ok) rfl hjob
  case case6 => exact .set (Step.once (.quit (hstage ▸ trivial) (.refl _ _ _))) trivial
  case case7 ok _ file hopen _ =>
    cases ok with
    | false => cases hopen
    | true => exact sound_opened hstage hopen (hallowed rfl file hopen) hjob
  case case8 data ended count _ _ =>
    obtain rfl := hallowed data ended hphase
    exact sound_write hstage hknows.2 hjob
  case case10 phase =>
    obtain ⟨hlength, hpos, hle⟩ := hjob
    dsimp only [phase]
    split
    · apply Sound.set (run_afterWrite hlength hstage)
      rw [hpos]
      exact jobInv_afterWrite hlength hle
    · exact Sound.set (World.stays hstage) ⟨hlength, hpos, hle, take_prefix _ _⟩
  case case12 ok _ =>
    have hremove : (if ok = true then s.store.remove (uploads i).name else s.store) =
        s.store.remove (uploads i).name := by
      split
      · rfl
      · rw [FileStore.remove_of_none (hallowed.resolve_left ‹_›)]
    rw [hremove]
    exact .set (Step.once (.drop hstage)) trivial
  case case13 ok _ after =>
    obtain rfl : ok = true := hallowed
    obtain ⟨store, hmove⟩ := FileStore.exists_move hknows.1 hknows.2.2
    have hstore : after = store := congrArg (getD · s.store) hmove
    rw [hstore]
    exact sound_answer hinv hstage hmove

theorem UploadsInv.step {e : ι × Call} (hinv : UploadsInv uploads before s)
    (hstep : AllowedStep uploads s e s') : UploadsInv uploads before s' := by
  have hsound := uploadStep_sound hinv.publish (hinv.jobs e.1) hstep.2 hstep.1
  obtain ⟨is, hrun⟩ := hsound.run
  refine ⟨Run.inv hrun hinv.publish, fun j => ?_, fun a ha => ?_⟩
  · rcases eq_or_ne j e.1 with rfl | hj
    · exact hsound.job
    · rw [hsound.others j hj]
      exact hinv.jobs j
  · rcases hsound.answers a ha with hold | rfl
    · exact hinv.answers a hold
    · rfl

end Publishing

/-- Uploads store their bodies or nothing: over every run of allowed calls, in which uploads of
any number interleave and end anywhere, a file that uploads are for is what it was or the whole
body of one that has been answered, but for the moment between the last two calls of `finish`,
and `ok` is only answered with the whole body in place. -/
theorem uploads_complete {ι : Type*} [DecidableEq ι] (uploads : ι → Upload)
    (before : FileStore (List Char)) {es : List (ι × Call)} {s : Uploads ι}
    (hrun : Run (AllowedStep uploads) (Uploads.init before) es s) :
    (∀ i, (s.jobs i).phase ≠ .waiting →
      (∀ j, (uploads j).name = (uploads i).name → (s.jobs j).phase ≠ .moveTmp) →
      s.store.content (uploads i).name = before.content (uploads i).name ∨
        ∃ j, (uploads j).name = (uploads i).name ∧ (s.jobs j).phase = .answered ∧
          s.store.content (uploads i).name = some (uploads j).body) ∧
      ∀ a ∈ s.answers, a.2 = some (uploads a.1).body := by
  have hinv : UploadsInv uploads before s :=
    hrun.invariant (fun h hstep => h.step hstep) (.init uploads before)
  exact ⟨fun i hi hquiet => hinv.content hi hquiet, hinv.answers⟩

def sampleHead (b : Bool) : String :=
  "PUT /save/" ++ (if b then "b" else "a") ++ " HTTP/1.1\r\nContent-Length: 1"

/-- Uploads of one byte, to `a` and to `b`. -/
def sampleUpload (b : Bool) : Upload where
  request := (sampleHead b).toUTF8.toList ++ headEnd ++ [7]
  headerData := (sampleHead b).toUTF8.toList
  body := [7]
  cut := by cases b <;> decide +kernel
  head := (sampleHead b).toList
  method := by cases b <;> decide +kernel
  name := if b then ['b'] else ['a']
  named := by
    have hpath : requestPath (splitLines (sampleHead b).toList) =
        some (if b then "/save/b".toList else "/save/a".toList) := by cases b <;> decide +kernel
    have hplain (c : Bool) : saveName (if c then "/save/b".toList else "/save/a".toList) =
        some (if c then ['b'] else ['a']) := by
      rw [saveName, show (if c then "/save/b".toList else "/save/a".toList).takeWhile (· != '?') =
          if c then "/save/b".toList else "/save/a".toList by cases c <;> decide,
        removingPercentEncoding_plain (by cases c <;> decide)]
      cases c <;> decide +kernel
    rw [hpath, bind_some, hplain]

theorem uploadStep_head {ι : Type*} [DecidableEq ι] {uploads : ι → Upload} {s : Uploads ι} {i : ι}
    (h : (s.jobs i).phase = .waiting) :
    uploadStep uploads s i (.head [((uploads i).request, false)]) =
      some (s.set i { s.jobs i with phase := .removeTmp (uploads i).body }) := by
  simp [uploadStep, h, receiveRequest, (uploads i).cut]

def sampleCalls {ι : Type*} (i : ι) (b : Bool) (count : ℕ) : List (ι × Call) :=
  [.head [((sampleUpload b).request, false)], .removeTmp true, .createTmp true, .openTmp true,
    .write count, .removeDest true, .moveTmp true].map (i, ·)

/-- Two uploads that take turns are both answered with their byte in place. -/
theorem uploads_complete_sample :
    ∃ s : Uploads Bool, Run (AllowedStep sampleUpload) (.init .empty)
        (((sampleCalls false false 1).zip (sampleCalls true true 1)).flatMap
          fun e => [e.1, e.2]) s ∧
      s.answers.length = 2 ∧ ∀ a ∈ s.answers, a.2 = some (sampleUpload a.1).body := by
  obtain ⟨s, hrun, hlength⟩ : ∃ s : Uploads Bool, Run (AllowedStep sampleUpload) (.init .empty)
        (((sampleCalls false false 1).zip (sampleCalls true true 1)).flatMap
          fun e => [e.1, e.2]) s ∧
      s.answers.length = 2 := by
    refine Run.exists_cons ⟨uploadStep_head rfl, by decide +kernel, by decide,
      fun _ hactive => hactive.elim, fun _ hbegun => absurd rfl hbegun⟩ ?_
    refine Run.exists_cons ⟨uploadStep_head rfl, by decide +kernel, by decide,
      fun j hactive => ?_, fun j hbegun => ?_⟩ ?_
    · cases j with
      | false => decide
      | true => exact hactive.elim
    · cases j with
      | false => decide
      | true => exact absurd rfl hbegun
    iterate 4 refine Run.exists_cons ⟨rfl, trivial⟩ ?_
    iterate 2
      refine Run.exists_cons ⟨rfl, fun _ file hfile => ?_⟩ ?_
      · cases hfile
        rfl
    iterate 2
      refine Run.exists_cons ⟨rfl, fun data ended hphase => ?_⟩ ?_
      · cases hphase
        rfl
    iterate 2 refine Run.exists_cons ⟨rfl, .inl rfl⟩ ?_
    iterate 2 refine Run.exists_cons ⟨rfl, rfl⟩ ?_
    exact ⟨_, .nil _, rfl⟩
  exact ⟨s, hrun, hlength, (uploads_complete _ _ hrun).2⟩

/-- An upload whose byte is not written is answered `ok`, with an empty file under the name. -/
theorem failed_write_is_answered_ok :
    ∃ s : Uploads Unit,
      Run (fun s e s' => uploadStep (fun _ => sampleUpload false) s e.1 e.2 = some s')
        (.init .empty) (sampleCalls () false 0) s ∧
      s.answers = [((), some [])] ∧ s.store.content (sampleUpload false).name = some [] ∧
      (sampleUpload false).body = [7] := by
  refine Run.exists_cons (uploadStep_head rfl) ?_
  iterate 6 refine Run.exists_cons rfl ?_
  exact ⟨_, .nil _, rfl, rfl, rfl⟩

end Bootbox.Host
