import Bootbox.Host.Paths
import Bootbox.Lib.ShortReads
import Mathlib.Algebra.Group.Int.Defs
import Mathlib.Algebra.Group.Nat.Defs

/-!
Serving a file with `Range` support: `respond` and `streamBody` of `LocalServer.swift`
and the two handlers `webView(_:start:)` of `ISOSchemeHandler.swift` and
`AppSchemeHandler.swift`, which hold the same code.

Texts are lists of characters, a character being what Swift's `Character` is, with
`"\r\n"` written as two. Numbers are `UInt64`; the sum in `length` traps when it
overflows, and the model returns `none` there. The file does not change while it is
served.
-/

namespace Bootbox.Host

open Lib Lib.PathNames List Option

variable {chunk : ℕ} {range : Option (List Char)}

/-! ### Text -/

def splitLines : List Char → List (List Char)
  | '\r' :: '\n' :: rest => [] :: splitLines rest
  | c :: rest => (splitLines rest).modifyHead (c :: ·)
  | [] => [[]]

def lowercased (text : List Char) : List Char := text.map Char.toLower

/-- `CharacterSet.whitespaces`: the Unicode category `Zs` and the tab. -/
def isWhitespace (c : Char) : Bool :=
  c == '\t' || c == ' ' || c.toNat == 0xA0 || c.toNat == 0x1680 ||
    (0x2000 ≤ c.toNat && c.toNat ≤ 0x200A) || c.toNat == 0x202F || c.toNat == 0x205F ||
    c.toNat == 0x3000

def trimmed (text : List Char) : List Char := (text.dropWhile isWhitespace).rdropWhile isWhitespace

def digitsValue (digits : List Char) : ℕ :=
  digits.foldl (fun v c => 10 * v + (c.toNat - '0'.toNat)) 0

/-- `UInt64(text)`: digits behind an optional plus, and `nil` for a number that does not fit.
(A minus cannot occur: the texts are pieces between minuses.) -/
def uint64? (text : List Char) : Option ℕ :=
  let digits := if text.head? = some '+' then text.tail else text
  if digits = [] ∨ ¬ digits.all Char.isDigit then none
  else if digitsValue digits < 2 ^ 64 then some (digitsValue digits)
  else none

/-- The value of a header field, given its name in lower case and the colon: that of its last
line. -/
def fieldValue? (name : List Char) (lines : List (List Char)) : Option (List Char) :=
  lines.foldl (fun value l =>
    if name <+: lowercased l then some (trimmed (l.drop name.length)) else value) none

/-! ### The window -/

/-- A file, of a size that `UInt64` can hold. -/
structure File where
  bytes : List UInt8
  size_lt : bytes.length < 2 ^ 64

structure Window where
  start : ℕ
  stop : ℕ
  isPartial : Bool
  deriving DecidableEq

/-- The numbers before the first and behind the last minus of a `Range` header. -/
def rangeNumbers : Option (List Char) → Option ℕ × Option ℕ
  | some r =>
    if "bytes=".toList <+: r then
      let spec := (r.drop 6).splitOn '-'
      (spec.head?.bind uint64?, if 1 < spec.length then spec.getLast?.bind uint64? else none)
    else (none, none)
  | none => (none, none)

/-- `start`, `end` and `partial`. -/
def window (total : ℕ) (range : Option (List Char)) : Window :=
  let w : Window := ⟨0, if total = 0 then 0 else total - 1, false⟩
  let (s, e) := rangeNumbers range
  let w := match s with
    | some sv => { w with start := sv, isPartial := true }
    | none => w
  let w := match e with
    | some ev => { w with stop := ev }
    | none => w
  if 0 < total then { w with stop := min w.stop (total - 1) } else w

/-- `length`; `none` when `end - start + 1` overflows. -/
def Window.length (w : Window) : Option ℕ :=
  if w.start ≤ w.stop then
    if w.stop - w.start + 1 < 2 ^ 64 then some (w.stop - w.start + 1) else none
  else some 0

def Window.contentRange (w : Window) (total : ℕ) : String :=
  "bytes " ++ toString w.start ++ "-" ++ toString w.stop ++ "/" ++ toString total

/-- A success: the status, the header fields with the numbers in them, and the body in the
pieces in which it is sent. -/
structure Response where
  status : ℕ
  fields : List (String × String)
  contentLength : ℕ
  contentRange : Option (ℕ × ℕ × ℕ)
  body : List (List UInt8)
  deriving DecidableEq

/-- The code that the three handlers share, with each one's header fields and chunk size. -/
def answer (reads : Reads) (chunk : ℕ) (fields : Window → ℕ → List (String × String))
    (file : File) (range : Option (List Char)) : Option Response :=
  let total := file.bytes.length
  let w := window total range
  w.length.map fun length =>
    { status := if w.isPartial then 206 else 200
      fields := fields w length
      contentLength := length
      contentRange := if w.isPartial then some (w.start, w.stop, total) else none
      body := reads.pieces file.bytes chunk w.start length }

inductive Reply
  /-- The connection is dropped. -/
  | cancelled
  /-- `404 Not Found`, or `didFailWithError` with code 404. -/
  | notFound
  | success (r : Response)
  deriving DecidableEq

/-! ### The three handlers -/

def serverFields (contentType : String) (gzipEncoded : Bool) (total : ℕ) (w : Window)
    (length : ℕ) : List (String × String) :=
  [("Content-Type", contentType), ("Content-Length", toString length)] ++
    (if gzipEncoded then [] else [("Accept-Ranges", "bytes")]) ++
    [("Cross-Origin-Resource-Policy", "cross-origin"),
      ("Cross-Origin-Opener-Policy", "same-origin"),
      ("Cross-Origin-Embedder-Policy", "require-corp")] ++
    (if gzipEncoded then [("Content-Encoding", "gzip")] else []) ++
    (if w.isPartial then [("Content-Range", w.contentRange total)] else []) ++
    [("Cache-Control", "no-store"), ("Connection", "close")]

def vmresFields (total : ℕ) (w : Window) (length : ℕ) : List (String × String) :=
  [("Accept-Ranges", "bytes"), ("Content-Type", "application/octet-stream"),
    ("Content-Length", toString length), ("Access-Control-Allow-Origin", "*"),
    ("Access-Control-Expose-Headers",
      "Content-Range, Content-Length, Accept-Ranges, Content-Type"),
    ("Cross-Origin-Resource-Policy", "cross-origin"), ("Cache-Control", "no-store")] ++
    (if w.isPartial then [("Content-Range", w.contentRange total)] else [])

def miniappFields (contentType : String) (total : ℕ) (w : Window) (length : ℕ) :
    List (String × String) :=
  [("Content-Type", contentType), ("Content-Length", toString length),
    ("Accept-Ranges", "bytes"), ("Cross-Origin-Resource-Policy", "cross-origin"),
    ("Cross-Origin-Opener-Policy", "same-origin"),
    ("Cross-Origin-Embedder-Policy", "require-corp"), ("Access-Control-Allow-Origin", "*"),
    ("Cache-Control", "no-store")] ++
    (if w.isPartial then [("Content-Range", w.contentRange total)] else [])

/-- The device: the folders, what is on the disk, how reads fall, and the types of files. -/
structure Device where
  layout : Layout
  disk : Disk layout
  /-- What can be opened for reading at a place. -/
  contents : Place → Option File
  reads : Reads
  mime : Url → String

def requestPath (lines : List (List Char)) : Option (List Char) :=
  (((lines.headD []).splitOn ' ').filter (· ≠ []))[1]?

/-- The file that `respond` opens, its URL, whether it is sent packed, and the `Range` it is
sent with. -/
def serverTarget (d : Device) (head : List Char) :
    Option (File × Url × Bool × Option (List Char)) :=
  let lines := splitLines head
  (requestPath lines).bind fun path =>
    let rangeHeader := fieldValue? "range:".toList lines.tail
    let acceptsGzip := lines.tail.any fun l =>
      "accept-encoding:".toList <+: lowercased l ∧ "gzip".toList <:+: lowercased l
    (servedFile d.layout d.disk path acceptsGzip).bind fun (url, gzipEncoded) =>
      (d.contents url.place).map fun file =>
        (file, url, gzipEncoded, if gzipEncoded then none else rangeHeader)

/-- `respond` and `streamBody`. -/
def respond (d : Device) (head : List Char) : Option Reply :=
  if requestPath (splitLines head) = none then some .cancelled
  else
    match serverTarget d head with
    | none => some .notFound
    | some (file, url, gzipEncoded, range) =>
      (answer d.reads (256 * 1024) (serverFields (d.mime url) gzipEncoded file.bytes.length)
        file range).map .success

/-- `webView(_:start:)` of the `vmres` scheme, for the file its URL names. -/
def vmresStart (d : Device) (file : Option File) (range : Option (List Char)) : Option Reply :=
  match file with
  | none => some .notFound
  | some file =>
    (answer d.reads (2 ^ 20) (vmresFields file.bytes.length) file range).map .success

/-- `webView(_:start:)` of the `miniapp` scheme, for the file its URL names. -/
def miniappStart (d : Device) (file : Option (File × Url)) (range : Option (List Char)) :
    Option Reply :=
  match file with
  | none => some .notFound
  | some (file, url) =>
    (answer d.reads (2 ^ 20) (miniappFields (d.mime url) file.bytes.length) file range).map
      .success

inductive Query
  | server (head : List Char)
  | vmres (file : Option File) (range : Option (List Char))
  | miniapp (file : Option (File × Url)) (range : Option (List Char))

def serve (d : Device) : Query → Option Reply
  | .server head => respond d head
  | .vmres file range => vmresStart d file range
  | .miniapp file range => miniappStart d file range

/-- The file that is served, and the `Range` header it is served for. -/
def target (d : Device) : Query → Option (File × Option (List Char))
  | .server head => (serverTarget d head).map fun (file, _, _, range) => (file, range)
  | .vmres file range => file.map (·, range)
  | .miniapp file range => file.map fun (file, _) => (file, range)

/-! ### What a consistent answer is -/

/-- The `N` of a header `bytes=-N`. -/
def suffixLength : Option (List Char) → Option ℕ
  | some r =>
    let digits := r.drop 7
    if "bytes=-".toList <+: r ∧ digits ≠ [] ∧ digits.all Char.isDigit then
      some (digitsValue digits)
    else none
  | none => none

structure Answers (file : File) (range : Option (List Char)) (r : Response) : Prop where
  /-- A 206 names a range inside the file and carries it. -/
  part : r.status = 206 → ∃ a b, r.contentRange = some (a, b, file.bytes.length) ∧ a ≤ b ∧
    b < file.bytes.length ∧ r.body.flatten = (file.bytes.drop a).take (b - a + 1)
  /-- Any other success carries the file. -/
  whole : r.status ≠ 206 → r.body.flatten = file.bytes
  announced : r.contentLength = r.body.flatten.length
  suffix : ∀ n, suffixLength range = some n →
    r.body.flatten = file.bytes.drop (file.bytes.length - n) ∨ r.body.flatten = file.bytes

/-- There is an answer, and a success is a consistent one. -/
def Consistent (d : Device) (q : Query) : Prop :=
  ∃ reply, serve d q = some reply ∧ ∀ r, reply = .success r →
    ∃ file range, target d q = some (file, range) ∧ Answers file range r

/-- When the window is what the header asks for: the file is not empty, a range begins inside
the file and not behind its own end, and without a first number the last one does not cut the
file short. -/
def RangeOk (total : ℕ) (range : Option (List Char)) : Prop :=
  0 < total ∧
    match rangeNumbers range with
    | (some sv, some ev) => sv < total ∧ sv ≤ ev
    | (some sv, none) => sv < total
    | (none, some ev) => total ≤ ev + 1
    | (none, none) => True

/-! ### The window, from the numbers of the header -/

theorem window_start (total : ℕ) (range : Option (List Char)) :
    (window total range).start = (rangeNumbers range).1.getD 0 := by
  rw [window]
  rcases rangeNumbers range with ⟨_ | sv, _ | ev⟩ <;> by_cases h : 0 < total <;> simp [h]

theorem window_isPartial (total : ℕ) (range : Option (List Char)) :
    (window total range).isPartial = (rangeNumbers range).1.isSome := by
  rw [window]
  rcases rangeNumbers range with ⟨_ | sv, _ | ev⟩ <;> by_cases h : 0 < total <;> simp [h]

theorem window_stop {total : ℕ} (h : 0 < total) (range : Option (List Char)) :
    (window total range).stop = min ((rangeNumbers range).2.getD (total - 1)) (total - 1) := by
  have hne : total ≠ 0 := by omega
  rw [window]
  rcases rangeNumbers range with ⟨_ | sv, _ | ev⟩ <;> simp [h, hne]

variable {file : File}

theorem answer_eq_some {reads : Reads} (hchunk : 0 < chunk)
    {fields : Window → ℕ → List (String × String)} {r : Response}
    (h : answer reads chunk fields file range = some r) :
    ∃ length, (window file.bytes.length range).length = some length ∧ r.contentLength = length ∧
      (r.status = 206 ↔ (window file.bytes.length range).isPartial = true) ∧
      ((window file.bytes.length range).isPartial = true → r.contentRange =
        some ((window file.bytes.length range).start, (window file.bytes.length range).stop,
          file.bytes.length)) ∧
      r.body.flatten = (file.bytes.drop (window file.bytes.length range).start).take length := by
  obtain ⟨length, hlength, rfl⟩ := map_eq_some_iff.mp h
  refine ⟨length, hlength, rfl, ?_, ?_, reads.flatten_pieces file.bytes hchunk _ _⟩
  · by_cases hp : (window file.bytes.length range).isPartial = true <;> simp [hp]
  · intro hp
    simp [hp]

theorem first_eq_none_of_suffix {n : ℕ} (h : suffixLength range = some n) :
    (rangeNumbers range).1 = none := by
  cases range with
  | none => cases h
  | some r =>
    rw [suffixLength] at h
    split at h
    case isFalse => cases h
    case isTrue hr =>
      obtain ⟨rest, rfl⟩ := hr.1
      have hbytes : "bytes=".toList <+: "bytes=-".toList ++ rest :=
        (show "bytes=".toList <+: "bytes=-".toList by decide).trans (prefix_append _ _)
      have hspec : (("bytes=-".toList ++ rest).drop 6).splitOn '-' = [] :: rest.splitOn '-' :=
        splitOn_append_cons_self [] rest
      rw [rangeNumbers, if_pos hbytes, hspec]
      rfl

theorem Window.length_cases {w : Window} {n : ℕ} (h : w.length = some n) :
    (w.start ≤ w.stop ∧ n = w.stop - w.start + 1) ∨ (w.stop < w.start ∧ n = 0) := by
  rw [Window.length] at h
  split at h
  case isTrue hle =>
    split at h
    case isTrue => exact .inl ⟨hle, (some.inj h).symm⟩
    case isFalse => cases h
  case isFalse hlt => exact .inr ⟨by omega, (some.inj h).symm⟩

theorem rangeOk_iff (total : ℕ) (range : Option (List Char)) :
    RangeOk total range ↔ 0 < total ∧
      (window total range).start ≤ (window total range).stop ∧
      ((rangeNumbers range).1 = none → (window total range).stop = total - 1) := by
  refine and_congr_right fun hpos => ?_
  rw [window_start, window_stop hpos]
  rcases rangeNumbers range with ⟨_ | sv, _ | ev⟩ <;>
    simp only [getD_none, getD_some, reduceCtorEq, forall_const, IsEmpty.forall_iff,
      and_true, true_iff] <;>
    omega

theorem rangeOk_of_answers {reads : Reads} (hchunk : 0 < chunk)
    {fields : Window → ℕ → List (String × String)} {r : Response}
    (h : answer reads chunk fields file range = some r) (hr : Answers file range r) :
    RangeOk file.bytes.length range := by
  obtain ⟨length, hlength, hannounced, hstatus, hcontent, hbody⟩ := answer_eq_some hchunk h
  have hlen := hr.announced
  rw [hannounced, hbody, List.length_take, List.length_drop] at hlen
  have hcases := Window.length_cases hlength
  have hstart := window_start file.bytes.length range
  have hpart := window_isPartial file.bytes.length range
  rw [rangeOk_iff]
  cases hfirst : (rangeNumbers range).1 with
  | some sv =>
    -- the answer is a 206, which names a range inside the file
    rw [hfirst] at hpart
    obtain ⟨a, b, hab, hle, hlt, -⟩ := hr.part (hstatus.mpr hpart)
    rw [hcontent hpart, Option.some.injEq, Prod.mk.injEq, Prod.mk.injEq] at hab
    obtain ⟨rfl, rfl, -⟩ := hab
    exact ⟨by omega, hle, fun hnone => by cases hnone⟩
  | none =>
    -- the answer carries the whole file, from its beginning
    rw [hfirst] at hstart hpart
    have h200 : r.status ≠ 206 := by
      rw [ne_eq, hstatus, hpart]
      decide
    have hall := congrArg List.length (hr.whole h200)
    rw [hbody, List.length_take, List.length_drop] at hall
    rw [Option.getD_none] at hstart
    exact ⟨by omega, by omega, fun _ => by omega⟩

theorem answers_of_rangeOk (reads : Reads) (hchunk : 0 < chunk)
    (fields : Window → ℕ → List (String × String)) (h : RangeOk file.bytes.length range) :
    ∃ r, answer reads chunk fields file range = some r ∧ Answers file range r := by
  obtain ⟨hpos, hle, hlast⟩ := (rangeOk_iff _ _).mp h
  have hlt : (window file.bytes.length range).stop < file.bytes.length := by
    rw [window_stop hpos]
    omega
  have hlength : (window file.bytes.length range).length =
      some ((window file.bytes.length range).stop -
        (window file.bytes.length range).start + 1) := by
    have := file.size_lt
    rw [Window.length, if_pos hle, if_pos (by omega)]
  obtain ⟨r, hr⟩ : ∃ r, answer reads chunk fields file range = some r := by
    rw [answer, hlength]
    exact ⟨_, rfl⟩
  refine ⟨r, hr, ?_⟩
  obtain ⟨length, hlength', hannounced, hstatus, hcontent, hbody⟩ := answer_eq_some hchunk hr
  obtain rfl := some.inj (hlength.symm.trans hlength')
  have hwhole : (rangeNumbers range).1 = none → r.body.flatten = file.bytes := by
    intro hnone
    have hstart := window_start file.bytes.length range
    rw [hnone, getD_none] at hstart
    rw [hbody, hstart, drop_zero, take_of_length_le (by have := hlast hnone; omega)]
  refine ⟨fun h206 => ?_, fun h200 => ?_, ?_, fun n hn => ?_⟩
  · exact ⟨_, _, hcontent (hstatus.mp h206), hle, hlt, hbody⟩
  · apply hwhole
    rw [ne_eq, hstatus, window_isPartial] at h200
    simpa using h200
  · rw [hannounced, hbody, length_take, length_drop]
    omega
  · exact .inr (hwhole (first_eq_none_of_suffix hn))

/-- The shared code answers consistently exactly when the window is what was asked for. -/
theorem answer_consistent_iff (reads : Reads) (hchunk : 0 < chunk)
    (fields : Window → ℕ → List (String × String)) (file : File) (range : Option (List Char)) :
    (∃ r, answer reads chunk fields file range = some r ∧ Answers file range r) ↔
      RangeOk file.bytes.length range :=
  ⟨fun ⟨_, h, hr⟩ => rangeOk_of_answers hchunk h hr, answers_of_rangeOk reads hchunk fields⟩

/-- A request leads to no file and fails, or to a file that the shared code serves. -/
theorem serve_cases (d : Device) (q : Query) :
    (target d q = none ∧ (serve d q = some .cancelled ∨ serve d q = some .notFound)) ∨
      ∃ file range chunk fields, 0 < chunk ∧ target d q = some (file, range) ∧
        serve d q = (answer d.reads chunk fields file range).map .success := by
  cases q with
  | server head =>
    by_cases hpath : requestPath (splitLines head) = none
    · refine .inl ⟨?_, .inl ?_⟩
      · rw [target, serverTarget, hpath]
        rfl
      · exact if_pos hpath
    · cases htarget : serverTarget d head with
      | none =>
        refine .inl ⟨?_, .inr ?_⟩
        · rw [target, htarget]
          rfl
        · change respond d head = _
          rw [respond, if_neg hpath, htarget]
      | some t =>
        obtain ⟨file, url, gzipEncoded, range⟩ := t
        refine .inr ⟨file, range, 256 * 1024,
          serverFields (d.mime url) gzipEncoded file.bytes.length, by decide, ?_, ?_⟩
        · rw [target, htarget]
          rfl
        · change respond d head = _
          rw [respond, if_neg hpath, htarget]
  | vmres file range =>
    cases file with
    | none => exact .inl ⟨rfl, .inr rfl⟩
    | some file => exact .inr ⟨file, range, 2 ^ 20, _, by decide, rfl, rfl⟩
  | miniapp file range =>
    cases file with
    | none => exact .inl ⟨rfl, .inr rfl⟩
    | some file => exact .inr ⟨file.1, range, 2 ^ 20, _, by decide, rfl, rfl⟩

/-- Every request to the server and to the two schemes is answered consistently, and without a
trap, exactly when the window of the file it leads to is the one that its `Range` header asks
for. -/
theorem serve_consistent_iff (d : Device) (q : Query) :
    Consistent d q ↔
      ∀ file range, target d q = some (file, range) → RangeOk file.bytes.length range := by
  rcases serve_cases d q with
    ⟨hnone, hserve⟩ | ⟨file, range, chunk, fields, hchunk, htarget, hserve⟩
  · -- nothing is served
    refine ⟨fun _ file range hsome => ?_, fun _ => ?_⟩
    · rw [hnone] at hsome
      cases hsome
    · rcases hserve with h | h
      · exact ⟨_, h, fun r hr => by cases hr⟩
      · exact ⟨_, h, fun r hr => by cases hr⟩
  · have hsame : (∀ file' range', target d q = some (file', range') →
        RangeOk file'.bytes.length range') ↔ RangeOk file.bytes.length range := by
      rw [htarget]
      exact ⟨fun h => h file range rfl, fun h file' range' heq => by cases heq; exact h⟩
    rw [hsame, ← answer_consistent_iff d.reads hchunk fields, Consistent, hserve, htarget]
    constructor
    · rintro ⟨reply, hreply, hsuccess⟩
      obtain ⟨r, hr, rfl⟩ := map_eq_some_iff.mp hreply
      obtain ⟨file', range', heq, hanswers⟩ := hsuccess r rfl
      cases heq
      exact ⟨r, hr, hanswers⟩
    · rintro ⟨r, hr, hanswers⟩
      refine ⟨.success r, by rw [hr]; rfl, fun r' heq => ?_⟩
      cases heq
      exact ⟨file, range, rfl, hanswers⟩

def sampleDevice : Device where
  layout := sampleLayout
  disk := sampleDisk
  contents _ := none
  reads := .full
  mime _ := "application/octet-stream"

def emptyFile : File := ⟨[], by decide⟩

def threeBytes : File := ⟨[1, 2, 3], by decide⟩

/-- Asked for the last byte of three, the handlers answer 200 with the first two. Of an empty
file they announce one byte and send none, or trap. -/
theorem suffix_sends_the_beginning :
    (∃ r, serve sampleDevice (.vmres (some threeBytes) (some "bytes=-1".toList)) =
        some (.success r) ∧ r.status = 200 ∧ r.contentLength = 2 ∧ r.body.flatten = [1, 2]) ∧
    (∃ r, serve sampleDevice (.vmres (some emptyFile) none) = some (.success r) ∧
      r.status = 200 ∧ r.contentLength = 1 ∧ r.body.flatten = []) ∧
    serve sampleDevice (.vmres (some emptyFile) (some "bytes=-18446744073709551615".toList)) =
      none := by
  refine ⟨⟨_, rfl, rfl, rfl, ?_⟩, ⟨_, rfl, rfl, rfl, ?_⟩, ?_⟩
  · exact Reads.full.flatten_pieces threeBytes.bytes (by decide) 0 2
  · exact Reads.full.flatten_pieces [] (by decide) 0 1
  · -- `end - start + 1` is `2 ^ 64`
    have hlength : (window emptyFile.bytes.length
        (some "bytes=-18446744073709551615".toList)).length = none := by
      decide +kernel
    simp only [serve, vmresStart, answer, hlength, map_none]

end Bootbox.Host
