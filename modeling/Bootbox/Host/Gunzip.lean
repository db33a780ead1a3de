import Bootbox.Host.GunzipStream
import Bootbox.Host.Paths
import Bootbox.Lib.Publish

/-!
Expanding downloaded images: the `gunzip` action of `BinaryBridge.swift`. An image is
expanded into `<name>.part`, which is moved to `<name>` when the decoder has come to
the end of the data.

Any number of requests run in steps that interleave, one step for each call that
touches the folder, and the app may be killed between any two of them. Each call may
fail. The source is a file that is read through a handle, so what is read is what was
under its name when it was opened. The folder holds files, and requests name files in it:
an empty name or `.` would be the folder itself.
-/

namespace Bootbox.Host

open Lib Lib.Trace Lib.ByteMemory Lib.PathNames List Option Function

variable {out : List UInt8}

/-! ### Correct decoders -/

section Correctness

variable {σ : Type*}

/-- Calls that hand over a body in order, all of which have returned `ok`: how much has been used,
what has been produced, and the state that the decoder is in. -/
inductive Session (d : Decoder σ) (body : List UInt8) : ℕ → List UInt8 → σ → Prop
  | start : Session d body 0 [] d.start
  | call {used : ℕ} {out src : List UInt8} {state : σ} {finalize : Bool}
      (h : Session d body used out state) (hsrc : src <+: body.drop used)
      (hfinalize : finalize = true → used = body.length)
      (hok : (d.process state src finalize).status = .ok) :
      Session d body (used + (d.process state src finalize).used)
        (out ++ (d.process state src finalize).produced) (d.process state src finalize).state

/-- What a body decodes to, and how long the data are if their end is in it. -/
abbrev Inflation := List UInt8 → List UInt8 × Option ℕ

/-- A decoder that gets a body in order: what it produces is the beginning of what the body
decodes to, and all of it when it reports the end. -/
structure Decodes (d : Decoder σ) (decode : Inflation) : Prop where
  produced : ∀ {body used out state src finalize}, Session d body used out state →
    src <+: body.drop used → (finalize = true → used = body.length) →
      out ++ (d.process state src finalize).produced <+: (decode body).1
  finished : ∀ {body used out state src finalize}, Session d body used out state →
    src <+: body.drop used → (finalize = true → used = body.length) →
      (d.process state src finalize).status = .finished →
        out ++ (d.process state src finalize).produced = (decode body).1 ∧ (decode body).2.isSome

end Correctness

/-- What stands behind the first member of a file: its data, and eight bytes of check sum and
length. -/
def behindMember (body : List UInt8) (length : ℕ) : List UInt8 := body.drop (length + 8)

/-- An image is the complete expansion of a gzip file: of all its members. -/
inductive Expands (decode : Inflation) : List UInt8 → List UInt8 → Prop
  | last {header body image : List UInt8} {length : ℕ} (hheader : Gzip.IsHeader header)
      (hbody : decode body = (image, some length))
      (hlast : Gzip.headerLength? (behindMember body length) = none) :
      Expands decode (header ++ body) image
  | member {header body image more : List UInt8} {length : ℕ} (hheader : Gzip.IsHeader header)
      (hbody : decode body = (image, some length))
      (hmore : Expands decode (behindMember body length) more) :
      Expands decode (header ++ body) (image ++ more)

/-- No second member follows the first. -/
def SingleMember (decode : Inflation) (gz : List UInt8) : Prop :=
  ∀ n ∈ Gzip.headerLength? gz, ∀ length ∈ (decode (gz.drop n)).2,
    Gzip.headerLength? (behindMember (gz.drop n) length) = none

/-! ### The requests -/

structure GunzipRequest where
  src : List Char
  dst : List Char
  src_isFileName : IsFileName src
  dst_isFileName : IsFileName dst

/-- `partURL`. -/
def GunzipRequest.part (r : GunzipRequest) : List Char := r.dst ++ ".part".toList

/-- The places that a request touches are those of its three names in the imports folder. -/
theorem GunzipRequest.place_of_mem_accesses (r : GunzipRequest) {L : Layout} {disk : Disk L}
    {a : Access} (h : a ∈ accesses L disk (.gunzip r.src r.dst)) :
    ∃ name ∈ [r.src, r.dst, r.part], a.place = L.importsDir ++ [name] := by
  have hsrc : (importUrl L r.src).place = L.importsDir ++ [r.src] := r.src_isFileName.walk _
  have hdst : (importUrl L r.dst).place = L.importsDir ++ [r.dst] := r.dst_isFileName.walk _
  have hname : IsFileName r.part := by
    refine ⟨?_, stepOf_of_length ?_⟩
    · rw [GunzipRequest.part, mem_append, not_or]
      exact ⟨r.dst_isFileName.1, by decide⟩
    · rw [GunzipRequest.part, length_append]
      exact Nat.le_add_left_of_le (by decide)
  have hpart : ((importUrl L r.dst).appendingPathExtension "part".toList).place =
      L.importsDir ++ [r.part] := by
    obtain ⟨htrim, hne⟩ := r.dst_isFileName.trimSlashes
    rw [Url.appendingPathExtension, importUrl, htrim, if_neg hne]
    exact hname.walk _
  simp only [accesses, hsrc, hdst, hpart] at h
  split at h
  · simp_all
  · split at h
    · simp only [mem_cons, not_mem_nil, or_false] at h
      rcases h with rfl | rfl | rfl | rfl | rfl | rfl | rfl <;> simp
    · cases h

/-- What a job that has stopped has left under its destination. -/
inductive Left
  | nothing
  | gap
  | image

inductive GunzipPhase (σ : Type*)
  | waiting
  | cached
  | refused
  | removePart
  | openSource
  | createPart
  | openPart
  | decoding (l : Loop σ)
  /-- Before the chunk that a call of the decoder has produced is written. -/
  | writing (chunk : List UInt8) (status : Status) (l : Loop σ)
  | removeDst
  /-- Before the move, with what was under the destination perhaps still there. -/
  | movePart (kept : Bool)
  | removeSrc
  /-- `ok` has been reported. -/
  | finished
  /-- Before the removal of the part in `catch`. -/
  | failing (inGap : Bool)
  /-- It has failed, or has been killed. -/
  | stopped (left : Left)

/-- A request's variables: the bytes of the source that has been opened, the file behind the
handle, and how much has been written to it. -/
structure GunzipJob (σ : Type*) where
  phase : GunzipPhase σ
  source : List UInt8
  file : ℕ
  written : ℕ

inductive GunzipEvent
  | cached
  | ok
  | sourceRemoved
  deriving DecidableEq

/-- Something that a request has done, and what was under its destination then. -/
structure GunzipEntry (ι : Type*) where
  job : ι
  event : GunzipEvent
  image : Option (List UInt8)

/-- The imports folder, the requests, and what they have reported and removed. -/
structure Gunzips (ι σ : Type*) where
  store : FileStore (List Char)
  jobs : ι → GunzipJob σ
  log : List (GunzipEntry ι)

/-- What a request does next, with what the system makes of it. -/
inductive GunzipCall
  /-- The handler, with the outcome of its removal of the source. -/
  | request (ok : Bool)
  | removePart (ok : Bool)
  | openSource
  | createPart (ok : Bool)
  | openPart (ok : Bool)
  | decode
  /-- A write of which so many bytes reach the file: it fails if these are not all. -/
  | write (count : ℕ)
  | removeDst (ok : Bool)
  | movePart (ok : Bool)
  | removeSrc (ok : Bool)
  | cleanup (ok : Bool)
  | kill

section Code

variable {ι σ : Type*} [DecidableEq ι]

/-- The requests, how the reads of their sources fall, what is in their buffers before anything
is, and the decoder. -/
structure GunzipSetup (ι σ : Type*) where
  requests : ι → GunzipRequest
  reads : ι → Reads
  srcBuf : ι → Bytes
  decoder : Decoder σ

def Gunzips.set (s : Gunzips ι σ) (i : ι) (job : GunzipJob σ) : Gunzips ι σ :=
  { s with jobs := update s.jobs i job }

def Gunzips.withStore (s : Gunzips ι σ) (store : FileStore (List Char)) : Gunzips ι σ :=
  { s with store := store }

def Gunzips.note (s : Gunzips ι σ) (c : GunzipSetup ι σ) (i : ι) (event : GunzipEvent) :
    Gunzips ι σ :=
  { s with log := s.log ++ [⟨i, event, s.store.content (c.requests i).dst⟩] }

def Gunzips.dropSource (s : Gunzips ι σ) (c : GunzipSetup ι σ) (i : ι) (ok : Bool) :
    Gunzips ι σ :=
  if ok then (s.withStore (s.store.remove (c.requests i).src)).note c i .sourceRemoved else s

def afterCall (status : Status) (l : Loop σ) : GunzipPhase σ :=
  match status with
  | .ok => .decoding l
  | .finished => .removeDst
  | .failed => .failing false

def GunzipPhase.left : GunzipPhase σ → Option Left
  | .waiting | .cached | .refused | .finished | .stopped _ => none
  | .movePart false | .failing true => some .gap
  | .removeSrc => some .image
  | _ => some .nothing

def gunzipStep (c : GunzipSetup ι σ) (s : Gunzips ι σ) (i : ι) (call : GunzipCall) :
    Option (Gunzips ι σ) :=
  let r := c.requests i
  let job := s.jobs i
  match job.phase, call with
  | .waiting, .request ok =>
    if (s.store.dir r.dst).isSome then
      some (((s.dropSource c i ok).set i { job with phase := .cached }).note c i .cached)
    else if (s.store.dir r.src).isSome then some (s.set i { job with phase := .removePart })
    else some (s.set i { job with phase := .refused })
  | .removePart, .removePart ok =>
    some ((s.withStore (if ok then s.store.remove r.part else s.store)).set i
      { job with phase := .openSource })
  | .openSource, .openSource =>
    -- a source that cannot be opened is read as if it were empty
    let source := (s.store.content r.src).getD []
    some (s.set i { job with phase := .createPart, source := source })
  | .createPart, .createPart ok =>
    some ((s.withStore (if ok then s.store.create r.part else s.store)).set i
      { job with phase := .openPart })
  | .openPart, .openPart ok =>
    match if ok then s.store.dir r.part else none with
    | none => some (s.set i { job with phase := .failing false })
    | some file =>
      match parseHeader job.source (c.reads i) (.init (c.srcBuf i)) with
      | .error _ => some (s.set i { job with phase := .failing false })
      | .ok (pos, src) =>
        some (s.set i ⟨.decoding (startLoop c.decoder pos src), job.source, file, 0⟩)
  | .decoding l, .decode =>
    let l := refill job.source (c.reads i) l
    let result := (handOver c.decoder l).result
    let l := advance l result
    let phase :=
      if result.produced = [] then afterCall result.status l
      else .writing result.produced result.status l
    some (s.set i { job with phase := phase })
  | .writing chunk status l, .write count =>
    if count ≤ chunk.length then
      let phase := if count = chunk.length then afterCall status l else .failing false
      some ((s.withStore (s.store.writeAt job.file job.written (chunk.take count))).set i
        { job with phase := phase, written := job.written + count })
    else none
  | .removeDst, .removeDst ok =>
    let store := if ok then s.store.remove r.dst else s.store
    some ((s.withStore store).set i { job with phase := .movePart (store.dir r.dst).isSome })
  | .movePart kept, .movePart ok =>
    match if ok then s.store.move r.part r.dst else none with
    | some store => some ((s.withStore store).set i { job with phase := .removeSrc })
    | none => some (s.set i { job with phase := .failing !kept })
  | .removeSrc, .removeSrc ok =>
    some (((s.dropSource c i ok).set i { job with phase := .finished }).note c i .ok)
  | .failing inGap, .cleanup ok =>
    some ((s.withStore (if ok then s.store.remove r.part else s.store)).set i
      { job with phase := .stopped (if inGap then .gap else .nothing) })
  | phase, .kill => phase.left.map fun left => s.set i { job with phase := .stopped left }
  | _, _ => none

end Code

def Gunzips.init {ι σ : Type*} (store : FileStore (List Char)) : Gunzips ι σ where
  store := store
  jobs _ := ⟨.waiting, [], 0, 0⟩
  log := []

/-! ### The condition -/

def GunzipPhase.IsActive {σ : Type*} : GunzipPhase σ → Prop
  | .waiting | .cached | .refused | .finished | .stopped _ => False
  | _ => True

def GunzipPhase.HasMoved {σ : Type*} : GunzipPhase σ → Prop
  | .removeSrc | .finished | .stopped .image => True
  | _ => False

/-- No request's source or destination is the part of a request, or a source a destination. -/
structure NamesApart {ι : Type*} (requests : ι → GunzipRequest) : Prop where
  src_dst : ∀ i j, (requests i).src ≠ (requests j).dst
  src_part : ∀ i j, (requests i).src ≠ (requests j).part
  dst_part : ∀ i j, (requests i).dst ≠ (requests j).part

/-- The calls with which requests do what they are for: no two jobs expand into one destination at
once, the source has one member, and the part is empty when it is opened. -/
def GunzipAllowed {ι σ : Type*} (c : GunzipSetup ι σ) (decode : Inflation) (s : Gunzips ι σ)
    (i : ι) : GunzipCall → Prop
  | .request _ => s.store.dir (c.requests i).dst = none →
      ∀ j, (s.jobs j).phase.IsActive → (c.requests j).dst ≠ (c.requests i).dst
  | .openPart ok => ok = true → SingleMember decode (s.jobs i).source ∧
      ∀ file, s.store.dir (c.requests i).part = some file → s.store.data file = []
  | _ => True

def GunzipAllowedStep {ι σ : Type*} [DecidableEq ι] (c : GunzipSetup ι σ) (decode : Inflation)
    (s : Gunzips ι σ) (e : ι × GunzipCall) (s' : Gunzips ι σ) : Prop :=
  gunzipStep c s e.1 e.2 = some s' ∧ GunzipAllowed c decode s e.1 e.2

/-! ### How far the decoder is -/

section Progress

variable {σ : Type*} {d : Decoder σ} {decode : Inflation}
variable {source out : List UInt8} {status : Status} {l : Loop σ}

def expansion (decode : Inflation) (source : List UInt8) : List UInt8 :=
  ((Gzip.headerLength? source).map fun n => (decode (source.drop n)).1).getD []

/-- Behind a call that has returned a status, with all that has been produced. -/
structure Progress (d : Decoder σ) (decode : Inflation)
    (source out : List UInt8) (status : Status) (l : Loop σ) : Prop where
  single : SingleMember decode source
  start : out <+: expansion decode source
  ok : status = .ok → ∃ n used, Gzip.headerLength? source = some n ∧ Handing source n used l ∧
    Session d (source.drop n) used out l.state
  finished : status = .finished → out = expansion decode source ∧ Expands decode source out

theorem progress_start {reads : Reads} {srcBuf : Bytes} {pos : ℕ} {src : Source}
    (hsingle : SingleMember decode source)
    (h : parseHeader source reads (.init srcBuf) = .ok (pos, src)) :
    Progress d decode source [] .ok (startLoop d pos src) := by
  refine ⟨hsingle, nil_prefix, fun _ => ?_, fun hstatus => by cases hstatus⟩
  have hspec := parseHeader_spec (Filled.init source srcBuf) reads
  cases hlength : Gzip.headerLength? source with
  | none =>
    rw [hlength] at hspec
    obtain ⟨e, he⟩ := hspec
    cases he.symm.trans h
  | some n =>
    rw [hlength] at hspec
    obtain ⟨src', hsrc', hfilled, hle⟩ := hspec
    cases hsrc'.symm.trans h
    exact ⟨pos, 0, rfl, hfilled.handing hle, .start⟩

theorem Progress.call (hd : Decodes d decode) (h : Progress d decode source out .ok l)
    (reads : Reads) :
    let l' := refill source reads l
    let result := (handOver d l').result
    Progress d decode source (out ++ result.produced) result.status (advance l' result) := by
  obtain ⟨n, used, hlength, hhanding, hsession⟩ := h.ok rfl
  obtain ⟨h', hdrained⟩ := hhanding.refill reads
  have hstate : (refill source reads l).state = l.state := by
    rw [refill]
    split
    · dsimp only
      split <;> rfl
    · rfl
  rw [← hstate] at hsession
  generalize refill source reads l = l' at h' hdrained hsession ⊢
  have hexpansion : expansion decode source = (decode (source.drop n)).1 := by
    rw [expansion, hlength]
    rfl
  have hsrc : (handOver d l').src <+: (source.drop n).drop used := by
    rw [drop_drop]
    change load _ _ _ <+: _
    rw [h'.cursor]
    exact take_prefix _ _
  have hfinalize : l'.flags = true → used = (source.drop n).length := by
    intro hflag
    rw [h'.flags] at hflag
    obtain ⟨hzero, hall⟩ := h'.ended hflag
    have hcons := h'.consumed
    rw [length_drop]
    omega
  have hused : (handOver d l').result.used ≤ l'.srcSize := by
    rw [← length_load l'.source.srcBuf l'.srcPtr l'.srcSize]
    exact d.used_le _ _ _
  refine ⟨h.single, ?_,
    fun hok => ⟨n, _, hlength, h'.advance hused, .call hsession hsrc hfinalize hok⟩,
    fun hend => ?_⟩
  · rw [hexpansion]
    exact hd.produced hsession hsrc hfinalize
  · obtain ⟨hall, hend⟩ := hd.finished hsession hsrc hfinalize hend
    obtain ⟨length, hbody⟩ := isSome_iff_exists.mp hend
    refine ⟨hall.trans hexpansion.symm, ?_⟩
    rw [← take_append_drop n source]
    exact .last (Gzip.isHeader_of_headerLength? hlength).1 (Prod.ext hall.symm hbody)
      (h.single n hlength length hbody)

end Progress

/-! ### The requests publish their images -/

section Publishing

open Publish

variable {ι σ : Type*} {c : GunzipSetup ι σ} {decode : Inflation}
variable {s s' : Gunzips ι σ} {i : ι}

variable {image : List UInt8} {before store : FileStore (List Char)} {file written : ℕ}

def gunzipPlan (c : GunzipSetup ι σ) : Plan ι (List Char) :=
  ⟨fun i => (c.requests i).dst, fun i => (c.requests i).part⟩

/-- How far a request is in publishing its image. -/
def gunzipStage (decode : Inflation) (job : GunzipJob σ) : Stage :=
  let image := expansion decode job.source
  match job.phase with
  | .waiting | .cached | .refused => .idle
  | .removePart | .openSource | .createPart | .openPart | .failing false => .prep
  | .decoding _ | .writing _ _ _ => .filling job.file image job.written
  | .removeDst | .movePart true => .full job.file image
  | .movePart false | .failing true => .gap job.file image
  | .removeSrc => .published image
  | .finished | .stopped .image => .done image
  | .stopped .nothing => .dead
  | .stopped .gap => .lost

/-- The names that have been touched are those of removed sources. -/
def gunzipWorld (c : GunzipSetup ι σ) (decode : Inflation)
    (s : Gunzips ι σ) : World ι (List Char) :=
  ⟨s.store, fun i => gunzipStage decode (s.jobs i),
    fun n => ∃ e ∈ s.log, e.event = .sourceRemoved ∧ n = (c.requests e.job).src⟩

def GunzipJobInv (d : Decoder σ) (decode : Inflation) (job : GunzipJob σ) :
    Prop :=
  match job.phase with
  | .decoding l => ∃ out, Progress d decode job.source out .ok l ∧ job.written = out.length
  | .writing chunk status l =>
    ∃ out, Progress d decode job.source (out ++ chunk) status l ∧ job.written = out.length
  | .removeDst | .movePart _ | .removeSrc | .finished | .stopped .image =>
    Expands decode job.source (expansion decode job.source)
  | _ => True

variable {job : GunzipJob σ}

theorem gunzipStage_isActive : (gunzipStage decode job).IsActive ↔ job.phase.IsActive := by
  rw [gunzipStage]
  split <;> rename_i hphase <;> simp [hphase, Stage.IsActive, GunzipPhase.IsActive]

theorem gunzipWorld_note (s : Gunzips ι σ) (i : ι) {event : GunzipEvent}
    (h : event ≠ .sourceRemoved) :
    gunzipWorld c decode (s.note c i event) = gunzipWorld c decode s := by
  have htouched : (gunzipWorld c decode (s.note c i event)).touched =
      (gunzipWorld c decode s).touched := by
    funext n
    apply propext
    simp [gunzipWorld, Gunzips.note, h]
  rw [gunzipWorld, gunzipWorld, World.mk.injEq]
  exact ⟨rfl, rfl, htouched⟩

theorem gunzipWorld_dropSource (s : Gunzips ι σ) (i : ι) :
    gunzipWorld c decode (s.dropSource c i true) = { gunzipWorld c decode s with
      store := s.store.remove (c.requests i).src
      touched := fun n => (gunzipWorld c decode s).touched n ∨ n = (c.requests i).src } := by
  have htouched : (gunzipWorld c decode (s.dropSource c i true)).touched =
      fun n => (gunzipWorld c decode s).touched n ∨ n = (c.requests i).src := by
    funext n
    apply propext
    simp [gunzipWorld, Gunzips.dropSource, Gunzips.note, Gunzips.withStore, or_and_right, exists_or]
  rw [← htouched]
  rfl

/-- An image is what was under the destination before, or the complete expansion of the source of
a request for it that has brought it there. -/
def Complete (c : GunzipSetup ι σ) (decode : Inflation)
    (before : FileStore (List Char)) (s : Gunzips ι σ) (dst : List Char) (image : List UInt8) :
    Prop :=
  before.content dst = some image ∨
    ∃ j, (c.requests j).dst = dst ∧ (s.jobs j).phase.HasMoved ∧
      Expands decode (s.jobs j).source image

/-- What holds throughout a run of allowed calls. -/
structure GunzipInv (c : GunzipSetup ι σ) (decode : Inflation)
    (before : FileStore (List Char)) (s : Gunzips ι σ) : Prop where
  publish : Inv (gunzipPlan c) before (gunzipWorld c decode s)
  jobs : ∀ i, GunzipJobInv c.decoder decode (s.jobs i)
  log : ∀ e ∈ s.log, ∃ image, e.image = some image ∧
    Complete c decode before s (c.requests e.job).dst image

theorem GunzipInv.init (c : GunzipSetup ι σ) (decode : Inflation)
    (before : FileStore (List Char)) : GunzipInv c decode before (.init before) where
  publish := by
    have hworld : gunzipWorld c decode (.init before) = World.init before := by
      rw [gunzipWorld, World.init, World.mk.injEq]
      refine ⟨rfl, rfl, ?_⟩
      funext n
      simp [Gunzips.init]
    rw [hworld]
    exact Inv.init (gunzipPlan c) before
  jobs _ := trivial
  log _ he := by cases he

theorem moved_of_isPublished {d : Decoder σ} (hinv : GunzipJobInv d decode job)
    (h : (gunzipStage decode job).IsPublished image) :
    job.phase.HasMoved ∧ Expands decode job.source image := by
  obtain ⟨phase, source, file, written⟩ := job
  cases phase with
  | removeSrc | finished =>
    rcases h with h | h <;> cases h
    exact ⟨trivial, hinv⟩
  | stopped left =>
    cases left with
    | image =>
      rcases h with h | h <;> cases h
      exact ⟨trivial, hinv⟩
    | nothing | gap => rcases h with h | h <;> cases h
  | movePart kept => cases kept <;> rcases h with h | h <;> cases h
  | failing inGap => cases inGap <;> rcases h with h | h <;> cases h
  | _ => rcases h with h | h <;> cases h

theorem complete_of_content (hapart : NamesApart c.requests)
    (hinv : Inv (gunzipPlan c) before (gunzipWorld c decode s))
    (hjobs : ∀ j, GunzipJobInv c.decoder decode (s.jobs j))
    (h : s.store.content (c.requests i).dst = some image) :
    Complete c decode before s (c.requests i).dst image := by
  have huntouched : ¬ (gunzipWorld c decode s).touched (c.requests i).dst := by
    rintro ⟨e, -, -, he⟩
    exact hapart.src_dst e.job i he.symm
  rcases hinv.holds _ huntouched fun j _ => hapart.dst_part i j with
    hsame | ⟨j, text, hj, hp, hc⟩ | ⟨hnone, -⟩
  · exact .inl (hsame.symm.trans h)
  · obtain rfl : text = image := some.inj (hc.symm.trans h)
    exact .inr ⟨j, hj, moved_of_isPublished (hjobs j) hp⟩
  · cases hnone.symm.trans h

variable [DecidableEq ι]

theorem gunzipWorld_set (s : Gunzips ι σ) (store : FileStore (List Char)) (i : ι)
    (job : GunzipJob σ) :
    gunzipWorld c decode ((s.withStore store).set i job) =
      ((gunzipWorld c decode s).withStore store).set i (gunzipStage decode job) := by
  have hstage : (fun j => gunzipStage decode (update s.jobs i job j)) =
      update (fun j => gunzipStage decode (s.jobs j)) i (gunzipStage decode job) :=
    funext (apply_update (fun _ => gunzipStage decode) s.jobs i job)
  simp only [gunzipWorld, Gunzips.set, Gunzips.withStore, World.set, World.withStore, hstage]

/-- What is shown of a call: it is a run of the publishing protocol, it keeps the request's
invariant and leaves the other requests alone, and what it notes it does with a file under the
destination. -/
structure GunzipSound (c : GunzipSetup ι σ) (decode : Inflation)
    (s : Gunzips ι σ) (i : ι) (s' : Gunzips ι σ) : Prop where
  run : ∃ is, Run (Step (gunzipPlan c)) (gunzipWorld c decode s) is (gunzipWorld c decode s')
  job : GunzipJobInv c.decoder decode (s'.jobs i)
  others : ∀ j, j ≠ i → s'.jobs j = s.jobs j
  moved : (s.jobs i).phase.HasMoved →
    (s'.jobs i).phase.HasMoved ∧ (s'.jobs i).source = (s.jobs i).source
  log : ∀ e ∈ s'.log, e ∈ s.log ∨
    e.job = i ∧ e.image = s'.store.content (c.requests i).dst ∧ e.image ≠ none

theorem GunzipSound.set (hrun : ∃ is, Run (Step (gunzipPlan c)) (gunzipWorld c decode s) is
      (((gunzipWorld c decode s).withStore store).set i (gunzipStage decode job)))
    (hjob : GunzipJobInv c.decoder decode job)
    (hmoved : (s.jobs i).phase.HasMoved → job.phase.HasMoved ∧ job.source = (s.jobs i).source) :
    GunzipSound c decode s i ((s.withStore store).set i job) where
  run := by
    rw [gunzipWorld_set]
    exact hrun
  job := by
    change GunzipJobInv _ _ (update s.jobs i job i)
    rwa [update_self]
  others _ hj := update_of_ne hj ..
  moved h := by
    change (update s.jobs i job i).phase.HasMoved ∧
      (update s.jobs i job i).source = _
    rw [update_self]
    exact hmoved h
  log _ he := .inl he

omit [DecidableEq ι] in
theorem stage_of_job (h : s.jobs i = job) :
    (gunzipWorld c decode s).stage i = gunzipStage decode job :=
  congrArg (gunzipStage decode) h

theorem GunzipSound.of_working {old : GunzipJob σ} (hold : s.jobs i = old)
    (hquiet : ¬ old.phase.HasMoved)
    (hrun : ∃ is, Run (Step (gunzipPlan c)) (gunzipWorld c decode s) is
      (((gunzipWorld c decode s).withStore store).set i (gunzipStage decode job)))
    (hjob : GunzipJobInv c.decoder decode job) :
    GunzipSound c decode s i ((s.withStore store).set i job) :=
  .set hrun hjob fun h => absurd (hold ▸ h) hquiet

theorem sound_report (hapart : NamesApart c.requests) {event : GunzipEvent}
    (hevent : event ≠ .sourceRemoved) (ok : Bool) (hdst : s.store.content (c.requests i).dst ≠ none)
    (hrun : ∀ w : World ι (List Char), w.stage i = gunzipStage decode (s.jobs i) →
      ∃ is, Run (Step (gunzipPlan c)) w is (w.set i (gunzipStage decode job)))
    (hjob : GunzipJobInv c.decoder decode job)
    (hmoved : (s.jobs i).phase.HasMoved → job.phase.HasMoved ∧ job.source = (s.jobs i).source) :
    GunzipSound c decode s i (((s.dropSource c i ok).set i job).note c i event) := by
  have hcontent : (s.store.remove (c.requests i).src).content (c.requests i).dst =
      s.store.content (c.requests i).dst :=
    (FileStore.Frame.remove _ _).content (hapart.src_dst i i).symm fun _ _ => not_false
  have hjobs : (s.dropSource c i ok).jobs = s.jobs := by
    cases ok <;> rfl
  have hstore : (s.dropSource c i ok).store.content (c.requests i).dst =
      s.store.content (c.requests i).dst := by
    cases ok
    · rfl
    · exact hcontent
  have hset : GunzipSound c decode (s.dropSource c i ok) i
      (((s.dropSource c i ok).set i job).note c i event) := by
    have hplain :
        GunzipSound c decode (s.dropSource c i ok) i ((s.dropSource c i ok).set i job) := by
      refine .set (hrun _ ?_) hjob ?_
      · change gunzipStage decode ((s.dropSource c i ok).jobs i) = _
        rw [hjobs]
      · rw [hjobs]
        exact hmoved
    refine ⟨?_, hplain.job, hplain.others, hplain.moved, fun e he => ?_⟩
    · rw [gunzipWorld_note _ _ hevent]
      exact hplain.run
    · rcases mem_append.mp he with hold | hnew
      · exact .inl hold
      · rw [mem_singleton.mp hnew]
        refine .inr ⟨rfl, rfl, ?_⟩
        change (s.dropSource c i ok).store.content _ ≠ none
        rwa [hstore]
  obtain ⟨is, hruns⟩ := hset.run
  refine ⟨?_, hset.job, ?_, ?_, fun e he => ?_⟩
  · cases ok with
    | false => exact ⟨is, hruns⟩
    | true =>
      rw [gunzipWorld_dropSource] at hruns
      refine ⟨i :: is,
        .cons (.outside (· = (c.requests i).src) (FileStore.Frame.remove _ _) ?_) hruns⟩
      exact fun j _ => ⟨(hapart.src_dst i j).symm, (hapart.src_part i j).symm⟩
  · rw [← hjobs]
    exact hset.others
  · rw [← hjobs]
    exact hset.moved
  · rcases hset.log e he with hold | hnew
    · cases ok with
      | false => exact .inl hold
      | true =>
        rcases mem_append.mp hold with hold | hnew
        · exact .inl hold
        · rw [mem_singleton.mp hnew]
          refine .inr ⟨rfl, rfl, ?_⟩
          change (s.store.remove _).content _ ≠ none
          rwa [hcontent]
    · exact .inr hnew

/-- Behind a call of the decoder the request goes on, completes its image, or fails. -/
theorem run_afterCall {w : World ι (List Char)} {source : List UInt8} {status : Status} {l : Loop σ}
    (h : w.stage i = .filling file (expansion decode source) out.length)
    (hprogress : Progress c.decoder decode source out status l) :
    ∃ is, Run (Step (gunzipPlan c)) w is
      (w.set i (gunzipStage decode ⟨afterCall status l, source, file, out.length⟩)) := by
  cases status with
  | ok => exact ⟨[], Run.nil_iff.mpr (World.set_eq_self h).symm⟩
  | finished =>
    have hall := (hprogress.finished rfl).1
    exact Step.once (.completed h (Nat.le_of_eq (congrArg length hall.symm)))
  | failed => exact Step.once (.prepare (h ▸ trivial) (.refl _ _ _))

theorem run_written {w w' : World ι (List Char)} {source : List UInt8} {status : Status}
    {l : Loop σ}
    (h : Step (gunzipPlan c) w i (w'.set i (.filling file (expansion decode source) out.length)))
    (hprogress : Progress c.decoder decode source out status l) :
    ∃ is, Run (Step (gunzipPlan c)) w is
      (w'.set i (gunzipStage decode ⟨afterCall status l, source, file, out.length⟩)) := by
  obtain ⟨is, hrun⟩ := run_afterCall (World.stage_set_self w' i _) hprogress
  rw [World.set_set] at hrun
  exact ⟨i :: is, .cons h hrun⟩

theorem jobInv_afterCall {source : List UInt8} {status : Status} {l : Loop σ} {d : Decoder σ}
    (h : Progress d decode source out status l) :
    GunzipJobInv d decode ⟨afterCall status l, source, file, out.length⟩ := by
  cases status with
  | ok => exact ⟨out, h, rfl⟩
  | finished =>
    obtain ⟨hall, hexpands⟩ := h.finished rfl
    rw [hall] at hexpands
    exact hexpands
  | failed => trivial

theorem sound_decode (hd : Decodes c.decoder decode) {source : List UInt8} {l : Loop σ}
    (hjob : s.jobs i = ⟨.decoding l, source, file, written⟩)
    (hinv : GunzipJobInv c.decoder decode (s.jobs i)) :
    let l := refill source (c.reads i) l
    let result := (handOver c.decoder l).result
    let l := advance l result
    GunzipSound c decode s i (s.set i ⟨if result.produced = [] then afterCall result.status l
      else .writing result.produced result.status l, source, file, written⟩) := by
  intro l₁ result l₂
  rw [hjob] at hinv
  obtain ⟨out, hprogress, hwritten⟩ := hinv
  have hnext : Progress c.decoder decode source (out ++ result.produced) result.status l₂ :=
    hprogress.call hd (c.reads i)
  have hstage : (gunzipWorld c decode s).stage i =
      .filling file (expansion decode source) written := stage_of_job hjob
  split
  case isTrue hnone =>
    rw [hnone, append_nil] at hnext
    rw [show written = out.length from hwritten] at hstage ⊢
    exact .of_working hjob id (run_afterCall hstage hnext) (jobInv_afterCall hnext)
  case isFalse =>
    refine .of_working hjob id (World.stays hstage) ?_
    exact ⟨out, hnext, hwritten⟩

theorem sound_writeChunk {chunk source : List UInt8} {status : Status} {l : Loop σ} {count : ℕ}
    (hcount : count ≤ chunk.length)
    (hjob : s.jobs i = ⟨.writing chunk status l, source, file, written⟩)
    (hinv : GunzipJobInv c.decoder decode (s.jobs i))
    (hdata : s.store.data file = (expansion decode source).take written) :
    GunzipSound c decode s i ((s.withStore (s.store.writeAt file written (chunk.take count))).set i
      ⟨if count = chunk.length then afterCall status l else .failing false, source, file,
        written + count⟩) := by
  rw [hjob] at hinv
  obtain ⟨out, hprogress, hwritten⟩ := hinv
  have hstage : (gunzipWorld c decode s).stage i =
      .filling file (expansion decode source) written := stage_of_job hjob
  obtain rfl : written = out.length := hwritten
  have hstart : out <+: expansion decode source :=
    (prefix_append out chunk).trans hprogress.start
  have hout : (expansion decode source).take out.length = out :=
    (prefix_iff_eq_take.mp hstart).symm
  -- what is written goes behind what is in the file
  have hfile : (s.store.writeAt file out.length (chunk.take count)).data file =
      (expansion decode source).take (out.length + count) := by
    have happend := s.store.data_writeAt_end file (chunk.take count)
    rw [hdata, hout] at happend
    rw [happend]
    have hpiece : out ++ chunk.take count <+: expansion decode source :=
      ((prefix_append_right_inj out).mpr ( take_prefix count chunk)).trans hprogress.start
    rw [prefix_iff_eq_take.mp hpiece, length_append, length_take, Nat.min_eq_left hcount]
  have hfill : Step (gunzipPlan c) (gunzipWorld c decode s) i
      (((gunzipWorld c decode s).withStore _).set i (.filling file (expansion decode source)
        (out.length + count))) := .fill hstage (FileStore.Frame.writeAt _ _ _ _) hfile
  split
  case isTrue hall =>
    have hlen : out.length + count = (out ++ chunk).length := by
      rw [length_append, hall]
    rw [hlen] at hfill ⊢
    exact .of_working hjob id (run_written hfill hprogress) (jobInv_afterCall hprogress)
  case isFalse =>
    refine .of_working hjob id ⟨[i, i], .cons hfill (.cons (.prepare ?_ (.refl _ _ _)) ?_)⟩ trivial
    · rw [World.stage_set_self]
      trivial
    · rw [show ∀ w : World ι (List Char), w.withStore w.store = w from fun _ => rfl, World.set_set]
      exact .nil _

theorem sound_removeDst {source : List UInt8}
    (hjob : s.jobs i = ⟨.removeDst, source, file, written⟩)
    (hinv : GunzipJobInv c.decoder decode ⟨.removeDst, source, file, written⟩) (ok : Bool) :
    let store := if ok then s.store.remove (c.requests i).dst else s.store
    GunzipSound c decode s i ((s.withStore store).set i
      ⟨.movePart (store.dir (c.requests i).dst).isSome, source, file, written⟩) := by
  intro store
  have hstage : (gunzipWorld c decode s).stage i = .full file (expansion decode source) :=
    stage_of_job hjob
  cases hkept : (store.dir (c.requests i).dst).isSome with
  | true =>
    have hstore : store = s.store := by
      cases ok with
      | false => rfl
      | true =>
        change (update s.store.dir _ none _).isSome = true at hkept
        rw [update_self] at hkept
        cases hkept
    rw [hstore]
    exact .of_working hjob id (World.stays hstage) hinv
  | false =>
    have hstore : store = s.store.remove (c.requests i).dst := by
      cases ok with
      | true => rfl
      | false =>
        refine (FileStore.remove_of_none ?_).symm
        exact not_isSome_iff_eq_none.mp (Bool.eq_false_iff.mp hkept)
    rw [hstore]
    exact .of_working hjob id (Step.once (.drop hstage)) hinv

theorem sound_moved {source : List UInt8} {kept : Bool}
    (hjob : s.jobs i = ⟨.movePart kept, source, file, written⟩)
    (hinv : GunzipJobInv c.decoder decode ⟨.movePart kept, source, file, written⟩)
    (hmove : s.store.move (c.requests i).part (c.requests i).dst = some store) :
    GunzipSound c decode s i ((s.withStore store).set i ⟨.removeSrc, source, file, written⟩) := by
  have hstage : (gunzipWorld c decode s).stage i = _ := stage_of_job hjob
  cases kept with
  | false => exact .of_working hjob id (Step.once (.publish hstage hmove)) hinv
  | true =>
    -- what was under the destination has gone away in the meantime
    have hnone := (FileStore.move_eq_some hmove).2.1
    have hdrop : Step (gunzipPlan c) (gunzipWorld c decode s) i
        (((gunzipWorld c decode s).withStore _).set i (.gap file (expansion decode source))) :=
      .drop hstage
    have hsame : (gunzipWorld c decode s).store.remove ((gunzipPlan c).dest i) = s.store :=
      FileStore.remove_of_none hnone
    rw [hsame] at hdrop
    have hpublish := Step.publish (P := gunzipPlan c)
      (World.stage_set_self (gunzipWorld c decode s) i (.gap file (expansion decode source))) hmove
    refine .of_working hjob id ⟨[i, i], .cons hdrop (.cons hpublish ?_)⟩ hinv
    exact Run.nil_iff.mpr (World.set_set ((gunzipWorld c decode s).withStore store) i _ _)

theorem sound_notMoved {source : List UInt8} {kept : Bool}
    (hjob : s.jobs i = ⟨.movePart kept, source, file, written⟩) :
    GunzipSound c decode s i (s.set i ⟨.failing !kept, source, file, written⟩) := by
  have hstage : (gunzipWorld c decode s).stage i = _ := stage_of_job hjob
  cases kept with
  | false =>
    exact .of_working hjob id (World.stays hstage) trivial
  | true =>
    refine .of_working hjob id (Step.once (.prepare ?_ (.refl _ _ _))) trivial
    rw [hstage]
    trivial

theorem sound_kill {left : Left} (hinv : GunzipJobInv c.decoder decode (s.jobs i))
    (hleft : (s.jobs i).phase.left = some left) :
    GunzipSound c decode s i (s.set i { s.jobs i with phase := .stopped left }) := by
  have hstage : (gunzipWorld c decode s).stage i = gunzipStage decode (s.jobs i) := rfl
  generalize hjob : s.jobs i = job at hinv hleft hstage ⊢
  obtain ⟨phase, source, file, written⟩ := job
  -- a job that has not touched its destination leaves nothing
  have hworking : left = .nothing → (gunzipStage decode (s.jobs i)).IsWorking →
      ¬ (s.jobs i).phase.HasMoved →
      GunzipSound c decode s i (s.set i ⟨.stopped left, source, file, written⟩) := by
    rintro rfl hworking hquiet
    exact .of_working rfl hquiet (Step.once (.quit hworking (.refl _ _ _))) trivial
  have hgap : left = .gap → (∃ text, gunzipStage decode (s.jobs i) = .gap file text) →
      ¬ (s.jobs i).phase.HasMoved →
      GunzipSound c decode s i (s.set i ⟨.stopped left, source, file, written⟩) := by
    rintro rfl ⟨text, hgap⟩ hquiet
    exact .of_working rfl hquiet (Step.once (.abandon hgap (.refl _ _ _))) trivial
  rw [hjob] at hworking hgap
  cases phase with
  | removePart | openSource | createPart | openPart | decoding l | writing chunk status l
  | removeDst => exact hworking (some.inj hleft).symm trivial id
  | movePart kept =>
    cases kept with
    | true => exact hworking (some.inj hleft).symm trivial id
    | false => exact hgap (some.inj hleft).symm ⟨_, rfl⟩ id
  | failing inGap =>
    cases inGap with
    | true => exact hgap (some.inj hleft).symm ⟨_, rfl⟩ id
    | false => exact hworking (some.inj hleft).symm trivial id
  | removeSrc =>
    cases hleft
    exact .set (Step.once (.release hstage)) hinv fun _ => ⟨trivial, by rw [hjob]⟩
  | _ => cases hleft

theorem gunzipStep_sound (hapart : NamesApart c.requests) (hd : Decodes c.decoder decode)
    {call : GunzipCall} (hinv : Inv (gunzipPlan c) before (gunzipWorld c decode s))
    (hjobs : GunzipJobInv c.decoder decode (s.jobs i)) (hallowed : GunzipAllowed c decode s i call)
    (h : gunzipStep c s i call = some s') : GunzipSound c decode s i s' := by
  have hknows := hinv.knows i
  have hstage : (gunzipWorld c decode s).stage i = gunzipStage decode (s.jobs i) := rfl
  rw [hstage] at hknows
  generalize hjob : s.jobs i = job at hjobs hstage hknows
  obtain ⟨phase, source, file, written⟩ := job
  rw [gunzipStep.eq_def, hjob] at h
  dsimp only at h
  split at h
  case h_13 => cases h
  case h_1 ok =>
    split at h
    case isTrue hdst =>
      cases h
      refine sound_report hapart (by simp) ok ?_ (fun w hw => ⟨[], ?_⟩) trivial
        fun hmoved => False.elim (by rwa [hjob] at hmoved)
      · exact fun hnone => isSome_iff_ne_none.mp hdst (map_eq_none_iff.mp hnone)
      · rw [hjob] at hw
        exact Run.nil_iff.mpr (World.set_eq_self hw).symm
    case isFalse hdst =>
      rw [not_isSome_iff_eq_none] at hdst
      split at h
      case isTrue =>
        cases h
        refine .of_working hjob id (Step.once (.start hstage ⟨?_, ?_, ?_, ?_⟩)) trivial
        · exact fun j hj => hallowed hdst j (gunzipStage_isActive.mp hj)
        · rintro ⟨e, -, -, he⟩
          exact hapart.src_dst e.job i he.symm
        · exact (hapart.dst_part i i).symm
        · exact fun j _ => ⟨hapart.dst_part j i, hapart.dst_part i j, append_cancel_right⟩
      case isFalse =>
        cases h
        exact .of_working hjob id (World.stays hstage) trivial
  case h_2 ok =>
    cases h
    refine .of_working hjob id (Step.once (.prepare (hstage ▸ trivial) (.ite ?_ ok))) trivial
    exact (FileStore.Frame.remove _ _).mono (fun _ h => h) fun _ h => h.elim
  case h_3 =>
    cases h
    exact .of_working hjob id (World.stays hstage) trivial
  case h_4 ok =>
    cases h
    refine .of_working hjob id (Step.once (.prepare (hstage ▸ trivial) (.ite ?_ ok))) trivial
    exact FileStore.Frame.create _ _
  case h_5 ok =>
    have hfail : GunzipSound c decode s i (s.set i ⟨.failing false, source, file, written⟩) :=
      .of_working hjob id (World.stays hstage) trivial
    split at h
    case h_1 =>
      cases h
      exact hfail
    case h_2 file' hopen =>
      cases ok with
      | false => cases hopen
      | true =>
        split at h
        case h_1 =>
          cases h
          exact hfail
        case h_2 pos src hheader =>
          cases h
          have hsingle := (hallowed rfl).1
          rw [hjob] at hsingle
          exact .of_working rfl (hjob ▸ id)
            (Step.once (.opened hstage hopen ((hallowed rfl).2 file' hopen)))
            ⟨[], progress_start hsingle hheader, rfl⟩
  case h_6 l =>
    cases h
    exact sound_decode hd hjob (hjob ▸ hjobs)
  case h_7 chunk status l count =>
    split at h
    case isFalse => cases h
    case isTrue hcount =>
      cases h
      exact sound_writeChunk hcount hjob (hjob ▸ hjobs) hknows.2
  case h_8 ok =>
    cases h
    exact sound_removeDst hjob hjobs ok
  case h_9 kept ok =>
    split at h
    case h_1 store hmove =>
      cases h
      exact sound_moved hjob hjobs (ite_none_right_eq_some.mp hmove).2
    case h_2 =>
      cases h
      exact sound_notMoved hjob
  case h_10 ok =>
    cases h
    have hdst : s.store.content (c.requests i).dst = some (expansion decode source) := hknows
    refine sound_report hapart (by simp) ok (by simp [hdst]) (fun w hw => ⟨[i], ?_⟩) hjobs ?_
    · rw [hjob] at hw
      exact .cons (.release hw) (.nil _)
    · rw [hjob]
      exact fun _ => ⟨trivial, rfl⟩
  case h_11 inGap ok =>
    cases h
    have hframe : (gunzipWorld c decode s).store.Frame (· = (gunzipPlan c).tmp i) (fun _ => False)
        (if ok = true then s.store.remove (c.requests i).part else s.store) :=
      .ite (FileStore.Frame.remove _ _) ok
    cases inGap with
    | true => exact .of_working hjob id (Step.once (.abandon hstage hframe)) trivial
    | false => exact .of_working hjob id (Step.once (.quit (hstage ▸ trivial) hframe)) trivial
  case h_12 =>
    obtain ⟨left, hleft, rfl⟩ := map_eq_some_iff.mp h
    have hkill := sound_kill (hjob ▸ hjobs) (by rw [hjob]; exact hleft)
    rw [hjob] at hkill
    exact hkill

/-- What is complete stays so: a job that has moved its part does not open its source again. -/
theorem GunzipSound.complete (h : GunzipSound c decode s i s') {dst : List Char}
    (hc : Complete c decode before s dst image) : Complete c decode before s' dst image := by
  rcases hc with hbefore | ⟨j, hj, hmoved, hexpands⟩
  · exact .inl hbefore
  · refine .inr ⟨j, hj, ?_⟩
    rcases eq_or_ne j i with rfl | hne
    · obtain ⟨hmoved', hsource⟩ := h.moved hmoved
      rw [hsource]
      exact ⟨hmoved', hexpands⟩
    · rw [h.others j hne]
      exact ⟨hmoved, hexpands⟩

theorem GunzipInv.step (hapart : NamesApart c.requests) (hd : Decodes c.decoder decode)
    {e : ι × GunzipCall} (hinv : GunzipInv c decode before s)
    (hstep : GunzipAllowedStep c decode s e s') :
    GunzipInv c decode before s' := by
  have hsound := gunzipStep_sound hapart hd hinv.publish (hinv.jobs e.1) hstep.2 hstep.1
  obtain ⟨is, hrun⟩ := hsound.run
  have hpublish := Run.inv hrun hinv.publish
  have hjobs : ∀ j, GunzipJobInv c.decoder decode (s'.jobs j) := by
    intro j
    rcases eq_or_ne j e.1 with rfl | hne
    · exact hsound.job
    · rw [hsound.others j hne]
      exact hinv.jobs j
  refine ⟨hpublish, hjobs, fun x hx => ?_⟩
  rcases hsound.log x hx with hold | ⟨hjob, himage, hsome⟩
  · obtain ⟨image, himage, hcomplete⟩ := hinv.log x hold
    exact ⟨image, himage, hsound.complete hcomplete⟩
  · obtain ⟨image, hi⟩ := ne_none_iff_exists'.mp hsome
    refine ⟨image, hi, ?_⟩
    rw [hjob]
    exact complete_of_content hapart hpublish hjobs (himage.symm.trans hi)

end Publishing

theorem copyDecoder_session {body : List UInt8} {used : ℕ} {state : Unit}
    (h : Session copyDecoder body used out state) : out = body.take used := by
  induction h with
  | start => rfl
  | call h hsrc hfinalize hok ih =>
    rw [take_add, ih]
    exact congrArg _ (prefix_iff_eq_take.mp hsrc)

/-- What the copying decoder takes a body for. -/
def copied (body : List UInt8) : List UInt8 × Option ℕ := (body, some body.length)

theorem copyDecoder_decodes : Decodes copyDecoder copied where
  produced {body used out state src finalize} h hsrc hfinalize := by
    rw [copyDecoder_session h]
    obtain ⟨rest, hrest⟩ := hsrc
    refine ⟨rest, ?_⟩
    rw [append_assoc]
    exact (congrArg _ hrest).trans (take_append_drop used body)
  finished {body used out state src finalize} h hsrc hfinalize hend := by
    have hflag : finalize = true := by
      cases finalize with
      | true => rfl
      | false => cases hend
    rw [hfinalize hflag, drop_length] at hsrc
    rw [copyDecoder_session h, hfinalize hflag, take_length, prefix_nil.mp hsrc]
    exact ⟨append_nil body, rfl⟩

theorem copied_single (gz : List UInt8) : SingleMember copied gz := by
  intro n _ length hlength
  obtain rfl : (gz.drop n).length = length := some.inj hlength
  rw [behindMember, drop_eq_nil_of_le (Nat.le_add_right _ _)]
  rfl

theorem exists_header_of_expands {decode : Inflation} {gz image : List UInt8}
    (h : Expands decode gz image) :
    ∃ header body, Gzip.IsHeader header ∧ gz = header ++ body ∧ (decode body).1 <+: image := by
  cases h with
  | @last header body _ length hheader hbody => exact ⟨header, body, hheader, rfl, by rw [hbody]⟩
  | @member header body image more length hheader hbody =>
    exact ⟨header, body, hheader, rfl, by rw [hbody]; exact prefix_append image more⟩

def sampleGz : List UInt8 := [0x1f, 0x8b, 0x08, 0, 0, 0, 0, 0, 0, 3, 5]

def sampleSetup (ι : Type) : GunzipSetup ι Unit where
  requests _ := ⟨"a.gz".toList, "a".toList, by decide, by decide⟩
  reads _ := .full
  srcBuf _ := fun _ => 0
  decoder := copyDecoder

theorem sampleGz_parse : parseHeader sampleGz .full (.init fun _ => 0) =
    .ok (10, ⟨store (fun _ => 0) 0 sampleGz, cap, 11, false, 11⟩) := by
  have hfill : fill sampleGz .full 10 (.init fun _ => 0) =
      ⟨store (fun _ => 0) 0 sampleGz, cap, 11, false, 11⟩ := by
    have hall : Reads.full.read sampleGz 0 cap = sampleGz := by
      apply take_of_length_le
      decide
    have hgrow : (Source.init fun _ => 0).grow 10 = .init fun _ => 0 := if_neg (by decide)
    rw [fill, dif_pos (by decide)]
    dsimp only
    rw [hgrow]
    simp only [Source.init, Nat.sub_zero, hall]
    rw [dif_neg (by decide), fill, dif_neg (by decide)]
    rfl
  rw [parseHeader, hfill]
  rfl

theorem sample_openPart (s : Gunzips Bool Unit) (i : Bool) (file : ℕ)
    (hphase : s.jobs i = ⟨.openPart, sampleGz, 0, 0⟩)
    (hopen : s.store.dir ("a".toList ++ ".part".toList) = some file) :
    gunzipStep (sampleSetup Bool) s i (.openPart true) = some (s.set i
      ⟨.decoding (startLoop copyDecoder 10 ⟨store (fun _ => 0) 0 sampleGz, cap, 11, false, 11⟩),
        sampleGz, file, 0⟩) := by
  rw [gunzipStep.eq_def, hphase]
  dsimp only
  rw [if_pos rfl]
  change (match s.store.dir ("a".toList ++ ".part".toList) with
    | none => _
    | some file => _) = _
  rw [hopen]
  dsimp only
  change (match parseHeader sampleGz .full (.init fun _ => 0) with
    | .error _ => _
    | .ok (pos, src) => _) = _
  rw [sampleGz_parse]
  rfl

def sampleFolder : FileStore (List Char) := FileStore.empty.put "a.gz".toList sampleGz

theorem sampleSetup_apart (ι : Type) : NamesApart (sampleSetup ι).requests where
  src_dst _ _ := by
    change "a.gz".toList ≠ "a".toList
    decide
  src_part _ _ := by
    change "a.gz".toList ≠ "a".toList ++ ".part".toList
    decide
  dst_part _ _ := by
    change "a".toList ≠ "a".toList ++ ".part".toList
    decide

/-- The calls of a request that nothing disturbs. -/
def undisturbed : List (Bool × GunzipCall) :=
  [(false, .request true), (false, .removePart true), (false, .openSource),
    (false, .createPart true), (false, .openPart true), (false, .decode), (false, .write 1),
    (false, .decode), (false, .removeDst true), (false, .movePart true), (false, .removeSrc true)]

end Bootbox.Host
