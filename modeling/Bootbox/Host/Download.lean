import Bootbox.Host.Paths
import Bootbox.Lib.Trace

/-!
Downloads into the imports folder: the `download` action of `BinaryBridge.swift` and
the session callbacks of `Downloader.swift`.

Any number of requests run in steps that interleave, one step for each call that
touches the folder. A response may be of any kind and have any body; removals, moves
and copies may fail. The folder holds files, and requests name files in it: an empty name
or `.` would be the folder itself, which a request with a size removes.
-/

namespace Bootbox.Host

open Lib.Trace Lib.PathNames List Function

/-- A request: the name of the file, and its size, which is not checked unless it is positive. -/
structure DownloadRequest where
  dest : List Char
  expectedSize : ℤ
  isFileName : IsFileName dest

/-- Beside the URL's, a request touches one place: that of its name in the imports folder. -/
theorem DownloadRequest.place_of_mem_accesses (r : DownloadRequest) {L : Layout} {disk : Disk L}
    {url : DownloadUrl} {a : Access}
    (h : a ∈ accesses L disk (.download url r.dest r.expectedSize)) :
    a ∈ url.accesses ∨ a.place = L.importsDir ++ [r.dest] := by
  have hdest : (importUrl L r.dest).place = L.importsDir ++ [r.dest] := r.isFileName.walk _
  simp only [accesses, hdest, downloadJob] at h
  split at h
  · split at h
    · simp_all
    · simp only [mem_cons, mem_append, not_mem_nil, or_false] at h
      rcases h with rfl | rfl | h | rfl | rfl | rfl | rfl <;> simp [*]
  · simp only [mem_cons, mem_append, not_mem_nil, or_false] at h
    rcases h with h | rfl | rfl | rfl | rfl <;> simp [*]

/-- `task.response`. -/
inductive DownloadResponse
  | http (statusCode : ℤ)
  /-- None, or not an `HTTPURLResponse`. -/
  | other
  deriving DecidableEq

/-- Where a request is: before its next call, or before the next callback of the session. -/
inductive DownloadPhase
  | waiting
  | cached
  | removeOld
  | loading
  | removeDest
  | moveBody
  /-- `didFinishDownloadingTo` has returned. -/
  | landed
  | checkSize
  | removeWrong
  | removeFailed
  | reportOk
  | reported
  deriving DecidableEq

/-- A request's variables: the response, and the body in the temporary file. -/
structure DownloadJob where
  phase : DownloadPhase
  response : DownloadResponse
  body : List UInt8

structure DownloadEntry (ι : Type*) where
  job : ι
  ok : Bool
  content : Option (List UInt8)

/-- The imports folder, the requests, and what they have reported. -/
structure Downloads (ι : Type*) where
  files : List Char → Option (List UInt8)
  jobs : ι → DownloadJob
  log : List (DownloadEntry ι)

/-- What a request does next, or what the session calls back with. -/
inductive DownloadCall
  | request
  | removeOld (ok : Bool)
  | didFinish (response : DownloadResponse) (body : List UInt8)
  | removeDest (ok : Bool)
  /-- `moveItem`, or else `copyItem`. -/
  | moveBody (ok : Bool)
  | didComplete (error : Bool)
  | checkSize
  | removeWrong (ok : Bool)
  | removeFailed (ok : Bool)
  | reportOk

/-- The size is given and is not that of the file. -/
def DownloadRequest.Mismatch (r : DownloadRequest) (bytes : List UInt8) : Prop :=
  0 < r.expectedSize ∧ (bytes.length : ℤ) ≠ r.expectedSize

instance (r : DownloadRequest) (bytes : List UInt8) : Decidable (r.Mismatch bytes) :=
  inferInstanceAs (Decidable (_ ∧ _))

/-- What `didFinishDownloadingTo` does with a response: one with another status than 200 is left
where it is. -/
def afterFinish : DownloadResponse → DownloadPhase
  | .http statusCode => if statusCode ≠ 200 then .landed else .removeDest
  | .other => .removeDest

/-- The checks of `didCompleteWithError` up to that of the size. -/
def afterComplete (r : DownloadRequest) (response : DownloadResponse) (error present : Bool) :
    DownloadPhase :=
  if error ∨ ¬ present then .removeFailed
  else
    match response with
    | .http statusCode =>
      if statusCode ≠ 200 then .removeFailed
      else if 0 < r.expectedSize then .checkSize else .reportOk
    | .other => if 0 < r.expectedSize then .checkSize else .reportOk

section Code

variable {ι : Type*} [DecidableEq ι] (requests : ι → DownloadRequest)

def Downloads.set (s : Downloads ι) (i : ι) (job : DownloadJob) : Downloads ι :=
  { s with jobs := update s.jobs i job }

/-- `try? removeItem`. -/
def Downloads.remove (s : Downloads ι) (dest : List Char) (ok : Bool) : Downloads ι :=
  if ok then { s with files := update s.files dest none } else s

def Downloads.put (s : Downloads ι) (dest : List Char) (ok : Bool) (body : List UInt8) :
    Downloads ι :=
  if ok ∧ s.files dest = none then { s with files := update s.files dest (some body) }
  else s

def Downloads.report (s : Downloads ι) (i : ι) (ok : Bool) : Downloads ι :=
  { s with log := s.log ++ [⟨i, ok, s.files (requests i).dest⟩] }

def downloadStep (s : Downloads ι) (i : ι) (call : DownloadCall) : Option (Downloads ι) :=
  let r := requests i
  let job := s.jobs i
  match job.phase, call with
  | .waiting, .request =>
    match s.files r.dest with
    | some bytes =>
      some (s.set i { job with phase := if r.Mismatch bytes then .removeOld else .cached })
    | none => some (s.set i { job with phase := .loading })
  | .removeOld, .removeOld ok =>
    some ((s.remove r.dest ok).set i { job with phase := .loading })
  | .loading, .didFinish response body => some (s.set i ⟨afterFinish response, response, body⟩)
  | .removeDest, .removeDest ok =>
    some ((s.remove r.dest ok).set i { job with phase := .moveBody })
  | .moveBody, .moveBody ok =>
    some ((s.put r.dest ok job.body).set i { job with phase := .landed })
  -- without an error only behind `didFinishDownloadingTo`
  | .loading, .didComplete true => some (s.set i { job with phase := .removeFailed })
  | .landed, .didComplete error =>
    let phase := afterComplete r job.response error (s.files r.dest).isSome
    some (s.set i { job with phase := phase })
  | .checkSize, .checkSize =>
    let got := (s.files r.dest).map fun bytes => (bytes.length : ℤ)
    let phase := if got = some r.expectedSize then DownloadPhase.reportOk else .removeWrong
    some (s.set i { job with phase := phase })
  | .removeWrong, .removeWrong ok =>
    some ((s.remove r.dest ok).set i { job with phase := .removeFailed })
  | .removeFailed, .removeFailed ok =>
    some (((s.remove r.dest ok).report requests i false).set i { job with phase := .reported })
  | .reportOk, .reportOk =>
    some ((s.report requests i true).set i { job with phase := .reported })
  | _, _ => none

end Code

def Downloads.init {ι : Type*} (files : List Char → Option (List UInt8)) : Downloads ι where
  files := files
  jobs _ := ⟨.waiting, .other, []⟩
  log := []

/-! ### The condition -/

def DownloadPhase.IsActive : DownloadPhase → Prop
  | .waiting | .cached | .reported => False
  | _ => True

section Spec

variable {ι : Type*} (requests : ι → DownloadRequest)

variable {body : List UInt8}

/-- The calls with which downloads do what they are for: no two are under way to one place, none
is asked for with another size at a place that has been reported complete, and responses are
HTTP. -/
def DownloadAllowed (s : Downloads ι) (i : ι) : DownloadCall → Prop
  | .request =>
    (∀ j, (s.jobs j).phase.IsActive → (requests j).dest ≠ (requests i).dest) ∧
    ∀ e ∈ s.log, e.ok = true → (requests e.job).dest = (requests i).dest →
      ∀ bytes, s.files (requests i).dest = some bytes → ¬ (requests i).Mismatch bytes
  | .didFinish response _ => response ≠ .other
  | _ => True

def DownloadAllowedStep [DecidableEq ι] (s : Downloads ι) (e : ι × DownloadCall)
    (s' : Downloads ι) : Prop :=
  downloadStep requests s e.1 e.2 = some s' ∧ DownloadAllowed requests s e.1 e.2

/-- A body that a request has received with status 200, of the size that was given. -/
def Delivered (r : DownloadRequest) (job : DownloadJob) (body : List UInt8) : Prop :=
  job.response = .http 200 ∧ job.body = body ∧ ¬ r.Mismatch body

/-! ### The invariant -/

/-- There is nothing at the place, or a file of a wrong size. -/
def Unfit (r : DownloadRequest) (content : Option (List UInt8)) : Prop :=
  ∀ bytes, content = some bytes → r.Mismatch bytes

def DownloadKnows (r : DownloadRequest) (content : Option (List UInt8))
    (job : DownloadJob) : Prop :=
  match job.phase with
  | .removeOld | .loading => Unfit r content
  | .removeDest | .moveBody => Unfit r content ∧ job.response = .http 200
  | .landed => job.response ≠ .other ∧
      (Unfit r content ∨ job.response = .http 200 ∧ content = some job.body)
  | .checkSize => job.response = .http 200 ∧ 0 < r.expectedSize ∧
      (Unfit r content ∨ content = some job.body)
  | .reportOk => content = some job.body ∧ Delivered r job job.body
  | _ => True

/-- What holds throughout a run of allowed calls: what has been reported is still there, and no
request is under way that would change it. -/
structure DownloadInv (s : Downloads ι) : Prop where
  alone : ∀ i j, (s.jobs i).phase.IsActive → (s.jobs j).phase.IsActive →
    (requests i).dest = (requests j).dest → i = j
  knows : ∀ i, DownloadKnows (requests i) (s.files (requests i).dest) (s.jobs i)
  reported : ∀ e ∈ s.log, e.ok = true → ∃ body, e.content = some body ∧
    s.files (requests e.job).dest = some body ∧ (s.jobs e.job).phase = .reported ∧
    Delivered (requests e.job) (s.jobs e.job) body ∧
    ∀ j, (s.jobs j).phase.IsActive → (requests j).dest ≠ (requests e.job).dest

structure DownloadOwn (s : Downloads ι) (i : ι) (s' : Downloads ι) : Prop where
  unreported : (s.jobs i).phase ≠ .reported
  others : ∀ j, j ≠ i → s'.jobs j = s.jobs j
  files : ∀ n, n ≠ (requests i).dest ∨ ¬ (s.jobs i).phase.IsActive → s'.files n = s.files n
  knows : DownloadKnows (requests i) (s'.files (requests i).dest) (s'.jobs i)
  starts : (s'.jobs i).phase.IsActive → ¬ (s.jobs i).phase.IsActive →
    (∀ j, (s.jobs j).phase.IsActive → (requests j).dest ≠ (requests i).dest) ∧
    ∀ e ∈ s.log, e.ok = true → (requests e.job).dest = (requests i).dest →
      s.files (requests i).dest = none
  log : ∀ e ∈ s'.log, e ∈ s.log ∨ e.ok = false ∨ e.job = i ∧ (s.jobs i).phase.IsActive ∧
    (s'.jobs i).phase = .reported ∧ ∃ body, e.content = some body ∧
      s'.files (requests i).dest = some body ∧ Delivered (requests i) (s'.jobs i) body

variable {requests} {s s' : Downloads ι} {i : ι}

variable {job : DownloadJob}

/-- A call of an active request that reports no success. -/
theorem DownloadOwn.set [DecidableEq ι] {t : Downloads ι} (hactive : (s.jobs i).phase.IsActive)
    (hjobs : t.jobs = s.jobs) (hfiles : ∀ n, n ≠ (requests i).dest → t.files n = s.files n)
    (hknows : DownloadKnows (requests i) (t.files (requests i).dest) job)
    (hlog : ∀ e ∈ t.log, e ∈ s.log ∨ e.ok = false) : DownloadOwn requests s i (t.set i job) where
  unreported h := by
    rw [h] at hactive
    exact hactive
  others _ hj := (update_of_ne hj ..).trans (congrFun hjobs _)
  files n hn := hfiles n (hn.resolve_right (not_not.mpr hactive))
  knows := by
    change DownloadKnows _ _ (update t.jobs i job i)
    rwa [update_self]
  starts _ hidle := absurd hactive hidle
  log e he := (hlog e he).imp_right .inl

theorem jobs_remove (s : Downloads ι) (dest : List Char) (ok : Bool) :
    (s.remove dest ok).jobs = s.jobs := by
  cases ok <;> rfl

theorem log_remove (s : Downloads ι) (dest : List Char) (ok : Bool) :
    (s.remove dest ok).log = s.log := by
  cases ok <;> rfl

theorem files_remove (s : Downloads ι) (dest : List Char) (ok : Bool) {n : List Char}
    (hn : n ≠ dest) : (s.remove dest ok).files n = s.files n := by
  cases ok with
  | true => exact update_of_ne hn ..
  | false => rfl

variable {r : DownloadRequest}

theorem Unfit.remove (h : Unfit r (s.files r.dest)) (ok : Bool) :
    Unfit r ((s.remove r.dest ok).files r.dest) := by
  cases ok with
  | true =>
    intro bytes hbytes
    change update s.files _ none _ = _ at hbytes
    rw [update_self] at hbytes
    cases hbytes
  | false => exact h

theorem DownloadOwn.remove [DecidableEq ι] {ok : Bool} (hactive : (s.jobs i).phase.IsActive)
    (hknows : DownloadKnows (requests i)
      ((s.remove (requests i).dest ok).files (requests i).dest) job) :
    DownloadOwn requests s i ((s.remove (requests i).dest ok).set i job) :=
  .set hactive (jobs_remove ..) (fun _ hn => files_remove s _ ok hn) hknows
    fun _ he => .inl (log_remove s _ ok ▸ he)

theorem own_request [DecidableEq ι] (hwaiting : (s.jobs i).phase = .waiting)
    (hactive : job.phase.IsActive →
      (∀ j, (s.jobs j).phase.IsActive → (requests j).dest ≠ (requests i).dest) ∧
      ∀ e ∈ s.log, e.ok = true → (requests e.job).dest = (requests i).dest →
        s.files (requests i).dest = none)
    (hknows : DownloadKnows (requests i) (s.files (requests i).dest) job) :
    DownloadOwn requests s i (s.set i job) where
  unreported h := by cases hwaiting.symm.trans h
  others _ hj := update_of_ne hj ..
  files _ _ := rfl
  knows := by
    change DownloadKnows _ _ (update s.jobs i job i)
    rwa [update_self]
  starts h _ := by
    change (update s.jobs i job i).phase.IsActive at h
    rw [update_self] at h
    exact hactive h
  log _ he := .inl he

theorem own_moveBody [DecidableEq ι] (hjob : s.jobs i = ⟨.moveBody, .http 200, body⟩)
    (hunfit : Unfit (requests i) (s.files (requests i).dest)) (ok : Bool) :
    DownloadOwn requests s i
      ((s.put (requests i).dest ok body).set i ⟨.landed, .http 200, body⟩) := by
  have hactive : (s.jobs i).phase.IsActive := by
    rw [hjob]
    trivial
  rw [Downloads.put]
  split
  · refine .set hactive rfl (fun n hn => update_of_ne hn ..) ⟨by simp, .inr ⟨rfl, ?_⟩⟩
      fun e he => .inl he
    exact update_self ..
  · exact .set hactive rfl (fun _ _ => rfl) ⟨by simp, .inl hunfit⟩ fun e he => .inl he

variable {response : DownloadResponse}

theorem knows_afterComplete {content : Option (List UInt8)} (error : Bool)
    (h : response ≠ .other ∧ (Unfit r content ∨ response = .http 200 ∧ content = some body)) :
    DownloadKnows r content ⟨afterComplete r response error content.isSome, response, body⟩ := by
  obtain ⟨hhttp, hcontent⟩ := h
  rw [afterComplete.eq_def]
  split
  · trivial
  · rename_i hpresent
    rw [not_or, not_not] at hpresent
    cases response with
    | other => exact absurd rfl hhttp
    | http statusCode =>
      dsimp only
      split
      · trivial
      · rename_i hstatus
        obtain rfl : statusCode = 200 := not_not.mp hstatus
        split
        case isTrue hsize => exact ⟨rfl, hsize, hcontent.imp_right And.right⟩
        case isFalse hsize =>
          -- without a size nothing is unfit but no file
          have hbody : content = some body := by
            refine (hcontent.resolve_left fun hunfit => ?_).2
            obtain ⟨bytes, hbytes⟩ := Option.isSome_iff_exists.mp hpresent.2
            exact hsize (hunfit bytes hbytes).1
          exact ⟨hbody, rfl, rfl, fun hmismatch => hsize hmismatch.1⟩

theorem knows_checkSize {content : Option (List UInt8)}
    (h : response = .http 200 ∧ 0 < r.expectedSize ∧ (Unfit r content ∨ content = some body)) :
    DownloadKnows r content ⟨if (content.map fun bytes => (bytes.length : ℤ)) = some r.expectedSize
      then .reportOk else .removeWrong, response, body⟩ := by
  obtain ⟨hresponse, hsize, hcontent⟩ := h
  split
  case isTrue hgot =>
    obtain ⟨bytes, hbytes, hlength⟩ := Option.map_eq_some_iff.mp hgot
    have hbody : content = some body := by
      refine hcontent.resolve_left fun hunfit => ?_
      exact (hunfit bytes hbytes).2 hlength
    obtain rfl : bytes = body := Option.some.inj (hbytes.symm.trans hbody)
    exact ⟨hbody, hresponse, rfl, fun hmismatch => hmismatch.2 hlength⟩
  case isFalse => trivial

theorem own_reportOk [DecidableEq ι] (hjob : s.jobs i = ⟨.reportOk, response, body⟩)
    (hknows : s.files (requests i).dest = some body ∧
      Delivered (requests i) ⟨.reportOk, response, body⟩ body) :
    DownloadOwn requests s i ((s.report requests i true).set i ⟨.reported, response, body⟩) := by
  have hset : DownloadOwn requests s i (s.set i ⟨.reported, response, body⟩) := by
    refine .set ?_ rfl (fun _ _ => rfl) trivial fun e he => .inl he
    rw [hjob]
    trivial
  refine { hset with log := fun e he => ?_ }
  rcases mem_append.mp he with hold | hnew
  · exact .inl hold
  · rw [mem_singleton.mp hnew]
    refine .inr (.inr ⟨rfl, ?_, ?_⟩)
    · rw [hjob]
      trivial
    · change (update s.jobs i _ i).phase = _ ∧ ∃ body, _ ∧ _ ∧
        Delivered _ (update s.jobs i _ i) body
      rw [update_self]
      exact ⟨rfl, body, hknows.1, hknows.1, hknows.2⟩

theorem downloadStep_own [DecidableEq ι] {call : DownloadCall}
    (hknows : DownloadKnows (requests i) (s.files (requests i).dest) (s.jobs i))
    (hallowed : DownloadAllowed requests s i call)
    (h : downloadStep requests s i call = some s') : DownloadOwn requests s i s' := by
  generalize hjob : s.jobs i = job at hknows
  obtain ⟨phase, response, body⟩ := job
  rw [downloadStep.eq_def, hjob] at h
  dsimp only at h
  have hactive : phase.IsActive → (s.jobs i).phase.IsActive := by
    rw [hjob]
    exact id
  split at h
  case h_12 => cases h
  case h_1 =>
    have hwaiting : (s.jobs i).phase = .waiting := by rw [hjob]
    split at h
    case h_1 bytes hbytes =>
      cases h
      split
      case isTrue hmismatch =>
        refine own_request hwaiting (fun _ => ⟨hallowed.1, fun e he hok hdest => ?_⟩) ?_
        · exact absurd hmismatch (hallowed.2 e he hok hdest bytes hbytes)
        · intro bytes' hbytes'
          cases hbytes.symm.trans hbytes'
          exact hmismatch
      case isFalse => exact own_request hwaiting (fun h => h.elim) trivial
    case h_2 hnone =>
      cases h
      refine own_request hwaiting (fun _ => ⟨hallowed.1, fun _ _ _ _ => hnone⟩) ?_
      rw [hnone]
      exact fun bytes hbytes => by cases hbytes
  case h_2 ok =>
    cases h
    exact .remove (hactive trivial) (Unfit.remove hknows ok)
  case h_3 response' body' =>
    cases h
    refine .set (hactive trivial) rfl (fun _ _ => rfl) ?_ fun e he => .inl he
    cases response' with
    | other => exact absurd rfl hallowed
    | http statusCode =>
      rw [afterFinish]
      split
      case isTrue => exact ⟨hallowed, .inl hknows⟩
      case isFalse hstatus =>
        obtain rfl : statusCode = 200 := not_not.mp hstatus
        exact ⟨hknows, rfl⟩
  case h_4 ok =>
    cases h
    exact .remove (hactive trivial) ⟨Unfit.remove hknows.1 ok, hknows.2⟩
  case h_5 ok =>
    cases h
    obtain rfl : response = .http 200 := hknows.2
    exact own_moveBody hjob hknows.1 ok
  case h_6 =>
    cases h
    exact .set (hactive trivial) rfl (fun _ _ => rfl) trivial fun e he => .inl he
  case h_7 error =>
    cases h
    exact .set (hactive trivial) rfl (fun _ _ => rfl) (knows_afterComplete error hknows)
      fun e he => .inl he
  case h_8 =>
    cases h
    exact .set (hactive trivial) rfl (fun _ _ => rfl) (knows_checkSize hknows) fun e he => .inl he
  case h_9 ok =>
    cases h
    exact .remove (hactive trivial) trivial
  case h_10 ok =>
    cases h
    refine .set (hactive trivial) (jobs_remove ..) (fun n hn => files_remove s _ ok hn) trivial
      fun e he => ?_
    rcases mem_append.mp he with hold | hnew
    · exact .inl (log_remove s _ ok ▸ hold)
    · exact .inr (by rw [mem_singleton.mp hnew])
  case h_11 =>
    cases h
    exact own_reportOk hjob hknows

theorem DownloadInv.init (requests : ι → DownloadRequest)
    (files : List Char → Option (List UInt8)) : DownloadInv requests (.init files) where
  alone _ _ hi := hi.elim
  knows _ := trivial
  reported _ he := by cases he

theorem DownloadOwn.inv (h : DownloadOwn requests s i s') (hinv : DownloadInv requests s) :
    DownloadInv requests s' := by
  -- a request that is active now was so before, or starts where no other is
  have hbefore : ∀ {j}, j ≠ i → (s'.jobs j).phase.IsActive → (s.jobs j).phase.IsActive := by
    intro j hj hactive
    rwa [h.others j hj] at hactive
  have halone : (s'.jobs i).phase.IsActive → ∀ j, j ≠ i → (s'.jobs j).phase.IsActive →
      (requests j).dest ≠ (requests i).dest := by
    intro hi j hj hactive hdest
    by_cases hwas : (s.jobs i).phase.IsActive
    · exact hj (hinv.alone j i (hbefore hj hactive) hwas hdest)
    · exact (h.starts hi hwas).1 j (hbefore hj hactive) hdest
  refine ⟨fun j k hj hk hdest => ?_, fun j => ?_, fun e he hok => ?_⟩
  · by_cases hji : j = i <;> by_cases hki : k = i
    · rw [hji, hki]
    · rw [hji] at hj hdest
      exact absurd hdest.symm (halone hj k hki hk)
    · rw [hki] at hk hdest
      exact absurd hdest (halone hk j hji hj)
    · exact hinv.alone j k (hbefore hji hj) (hbefore hki hk) hdest
  · by_cases hji : j = i
    · rw [hji]
      exact h.knows
    · have hknows := hinv.knows j
      rw [h.others j hji]
      by_cases hactive : (s.jobs j).phase.IsActive
      · rwa [h.files]
        by_cases hwas : (s.jobs i).phase.IsActive
        · exact .inl fun hdest => hji (hinv.alone j i hactive hwas hdest)
        · exact .inr hwas
      · generalize s.jobs j = job at hactive
        obtain ⟨phase, response, body⟩ := job
        cases phase <;> first | trivial | exact absurd trivial hactive
  · rcases h.log e he with hold | hfalse | ⟨rfl, hwas, hphase, body, hcontent, hfile, hdelivered⟩
    · obtain ⟨body, hcontent, hfile, hphase, hdelivered, hquiet⟩ := hinv.reported e hold hok
      have hne : e.job ≠ i := by
        rintro rfl
        exact h.unreported hphase
      rw [h.others _ hne]
      refine ⟨body, hcontent, ?_, hphase, hdelivered, fun j hj => ?_⟩
      · rw [h.files, hfile]
        by_cases hwas : (s.jobs i).phase.IsActive
        · exact .inl (hquiet i hwas).symm
        · exact .inr hwas
      · by_cases hji : j = i
        · rw [hji] at hj ⊢
          by_cases hwas : (s.jobs i).phase.IsActive
          · exact hquiet i hwas
          · -- where a download has been reported the next one is answered from what is there
            intro hdest
            have hnone := (h.starts hj hwas).2 e hold hok hdest.symm
            rw [hdest, hfile] at hnone
            cases hnone
        · exact hquiet j (hbefore hji hj)
    · cases hfalse.symm.trans hok
    · refine ⟨body, hcontent, hfile, hphase, hdelivered, fun j hj => ?_⟩
      by_cases hji : j = e.job
      · rw [hji, hphase] at hj
        exact hj.elim
      · exact fun hdest => hji (hinv.alone j e.job (hbefore hji hj) hwas hdest)

end Spec

/-- Over every run of allowed calls, in which any number of downloads interleave and end in any
way: when success was reported the file was the body that had been received with status 200, of
the size that was given, and it is there still. -/
theorem downloads_keep {ι : Type*} [DecidableEq ι] (requests : ι → DownloadRequest)
    (files : List Char → Option (List UInt8)) {es : List (ι × DownloadCall)} {s : Downloads ι}
    (hrun : Run (DownloadAllowedStep requests) (.init files) es s) :
    ∀ e ∈ s.log, e.ok = true → ∃ body, e.content = some body ∧
      s.files (requests e.job).dest = some body ∧
      Delivered (requests e.job) (s.jobs e.job) body := by
  have hinv : DownloadInv requests s := hrun.invariant (fun h hstep =>
    (downloadStep_own (h.knows _) hstep.2 hstep.1).inv h) (.init requests files)
  intro e he hok
  obtain ⟨body, hcontent, hfile, -, hdelivered, -⟩ := hinv.reported e he hok
  exact ⟨body, hcontent, hfile, hdelivered⟩

def sampleRequests (_ : Bool) : DownloadRequest := ⟨['a'], 0, by decide⟩

def successful (i : Bool) : List (Bool × DownloadCall) :=
  [.didFinish (.http 200) [1], .removeDest true, .moveBody true, .didComplete false,
    .reportOk].map (i, ·)

theorem downloads_keep_sample :
    ∃ s : Downloads Bool,
      Run (DownloadAllowedStep sampleRequests) (.init fun _ => none)
        ((false, .request) :: successful false) s ∧
      s.log.map (fun e => (e.job, e.ok, e.content)) = [(false, true, some [1])] ∧
      s.files ['a'] = some [1] := by
  obtain ⟨s, hrun, hlog⟩ : ∃ s : Downloads Bool,
      Run (DownloadAllowedStep sampleRequests) (.init fun _ => none)
        ((false, .request) :: successful false) s ∧ s.log = [⟨false, true, some [1]⟩] := by
    refine Run.exists_cons ⟨rfl, fun _ h => h.elim, fun _ h => by cases h⟩ ?_
    refine Run.exists_cons ⟨rfl, by simp [DownloadAllowed]⟩ ?_
    iterate 4 refine Run.exists_cons ⟨rfl, trivial⟩ ?_
    exact ⟨_, .nil _, rfl⟩
  obtain ⟨body, hcontent, hfile, -⟩ :=
    downloads_keep sampleRequests _ hrun ⟨false, true, some [1]⟩ (by rw [hlog]; simp) rfl
  cases hcontent
  exact ⟨s, hrun, by rw [hlog]; rfl, hfile⟩

/-- Two downloads to one place: the first reports success, then the second fails and deletes the
file. -/
theorem failed_download_deletes :
    ∃ s : Downloads Bool,
      Run (fun s e s' => downloadStep sampleRequests s e.1 e.2 = some s') (.init fun _ => none)
        ((false, .request) :: (true, .request) :: successful false ++
          [(true, .didComplete true), (true, .removeFailed true)]) s ∧
      s.log.map (fun e => (e.job, e.ok, e.content)) =
        [(false, true, some [1]), (true, false, none)] ∧
      s.files ['a'] = none := by
  iterate 9 refine Run.exists_cons rfl ?_
  exact ⟨_, .nil _, rfl, rfl⟩

end Bootbox.Host
