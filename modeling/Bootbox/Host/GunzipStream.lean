import Bootbox.Lib.ByteMemory
import Bootbox.Lib.GzipFormat
import Bootbox.Lib.ShortReads

/-!
The streaming decoder of `GunzipStream.swift`. One buffer serves three purposes in
turn: it grows while the header is read into it, its unread rest is moved to the front,
and from then on the DEFLATE decoder drains it and it is filled again.

The input stream gives as much as it likes at each read, and the decoder takes as much
as it likes at each call. Whatever they do, the decoder gets the bytes behind the
header in order, and all of them unless it stops before (`inflate_hands_over`).
-/

namespace Bootbox.Host

open Lib Lib.ByteMemory List Option

/-- `cap`: 1 MiB. -/
def cap : ℕ := 1 <<< 20

inductive GunzipError
  | notGzip
  | badHeader
  | decodeFailed
  | ioError
  deriving DecidableEq

/-- The variables around `srcBuf`: the buffer and its capacity, how many bytes are in it
(`have`), whether a read has returned nothing, and how many bytes have been read. -/
structure Source where
  srcBuf : Bytes
  srcCap : ℕ
  buffered : ℕ
  srcEOF : Bool
  consumed : ℕ

def Source.init (srcBuf : Bytes) : Source := ⟨srcBuf, cap, 0, false, 0⟩

/-! ### The header -/

section Header

variable (file : List UInt8) (reads : Reads)

/-- Make room behind what is buffered: a larger buffer if there is none. -/
def Source.grow (s : Source) (minBytes : ℕ) : Source :=
  if s.srcCap ≤ s.buffered then
    let newCap := max (max (s.srcCap * 2) minBytes) (s.buffered + cap)
    { s with srcBuf := store (fun _ => 0) 0 (load s.srcBuf 0 s.buffered), srcCap := newCap }
  else s

@[simp] theorem Source.buffered_grow (s : Source) (n : ℕ) : (s.grow n).buffered = s.buffered := by
  rw [grow]
  split <;> rfl

@[simp] theorem Source.consumed_grow (s : Source) (n : ℕ) : (s.grow n).consumed = s.consumed := by
  rw [grow]
  split <;> rfl

/-- `fill(toAtLeast:)`. -/
def fill (minBytes : ℕ) (s : Source) : Source :=
  if _hmore : s.buffered < minBytes ∧ s.srcEOF = false then
    let s' := s.grow minBytes
    let data := reads.read file s'.consumed (s'.srcCap - s'.buffered)
    if _hdata : data = [] then { s' with srcEOF := true }
    else
      fill minBytes { s' with
        srcBuf := store s'.srcBuf s'.buffered data
        buffered := s'.buffered + data.length
        consumed := s'.consumed + data.length }
  else s
termination_by minBytes - s.buffered
decreasing_by
  have hpos := length_pos_iff.mpr _hdata
  have hsame : s'.buffered = s.buffered := s.buffered_grow minBytes
  change minBytes - (s'.buffered + data.length) < minBytes - s.buffered
  omega

def need (n : ℕ) (s : Source) : Except GunzipError Source :=
  let s := if s.buffered < n then fill file reads n s else s
  if s.buffered < n then .error .badHeader else .ok s

theorem fill_counts (n : ℕ) (s : Source) :
    ∃ k, (fill file reads n s).buffered = s.buffered + k ∧
      (fill file reads n s).consumed = s.consumed + k ∧ k ≤ file.length - s.consumed := by
  fun_induction fill file reads n s with
  | case1 s hmore s' data hdata =>
    exact ⟨0, s.buffered_grow n, s.consumed_grow n, Nat.zero_le _⟩
  | case2 s hmore s' data hdata ih =>
    obtain ⟨k, hb, hc, hk⟩ := ih
    dsimp only at hb hc hk
    have hlen : data.length ≤ file.length - s'.consumed := by
      rw [← length_drop]
      exact ( take_prefix _ _).length_le
    have hb' : s'.buffered = s.buffered := s.buffered_grow n
    have hc' : s'.consumed = s.consumed := s.consumed_grow n
    refine ⟨data.length + k, ?_, ?_, ?_⟩
    · rw [hb, hb', Nat.add_assoc]
    · rw [hc, hc', Nat.add_assoc]
    · omega
  | case3 s hmore => exact ⟨0, rfl, rfl, Nat.zero_le _⟩

theorem need_counts {n : ℕ} {s s' : Source} (h : need file reads n s = .ok s') :
    n ≤ s'.buffered ∧ ∃ k, s'.buffered = s.buffered + k ∧ s'.consumed = s.consumed + k ∧
      k ≤ file.length - s.consumed := by
  rw [need] at h
  split at h
  · split at h
    · cases h
    · rename_i hle
      cases h
      exact ⟨Nat.le_of_not_lt hle, fill_counts file reads n s⟩
  · cases h
    exact ⟨Nat.le_of_not_lt ‹_›, 0, rfl, rfl, Nat.zero_le _⟩

/-- Skip bytes up to a zero: the loops for FNAME and FCOMMENT. -/
def skipText (pos : ℕ) (s : Source) : Except GunzipError (ℕ × Source) :=
  match hs : if s.buffered ≤ pos then need file reads (pos + 1) s else .ok s with
  | .error e => .error e
  | .ok s' => if s'.srcBuf pos = 0 then .ok (pos + 1, s') else skipText (pos + 1) s'
termination_by file.length - s.consumed + (s.buffered - pos)
decreasing_by
  split at hs
  case isTrue hle =>
    obtain ⟨hn, k, hk, hk', hle'⟩ := need_counts file reads hs
    omega
  case isFalse hlt =>
    cases hs
    omega

def skipExtra (pos : ℕ) (s : Source) : Except GunzipError (ℕ × Source) := do
  let s ← need file reads (pos + 2) s
  let xlen := (s.srcBuf pos).toNat ||| (s.srcBuf (pos + 1)).toNat <<< 8
  let s ← need file reads (pos + 2 + xlen) s
  return (pos + 2 + xlen, s)

def skipCrc (pos : ℕ) (s : Source) : Except GunzipError (ℕ × Source) := do
  let s ← need file reads (pos + 2) s
  return (pos + 2, s)

def onFlag (flag : Bool) (skip : ℕ → Source → Except GunzipError (ℕ × Source)) (pos : ℕ)
    (s : Source) : Except GunzipError (ℕ × Source) :=
  if flag then skip pos s else .ok (pos, s)

def skipFields (flg : UInt8) (s : Source) : Except GunzipError (ℕ × Source) := do
  let (pos, s) ← onFlag (flg &&& 0x04 ≠ 0) (skipExtra file reads) 10 s
  let (pos, s) ← onFlag (flg &&& 0x08 ≠ 0) (skipText file reads) pos s
  let (pos, s) ← onFlag (flg &&& 0x10 ≠ 0) (skipText file reads) pos s
  onFlag (flg &&& 0x02 ≠ 0) (skipCrc file reads) pos s

def parseHeader (s : Source) : Except GunzipError (ℕ × Source) :=
  let s := fill file reads 10 s
  if s.buffered < 10 ∨ s.srcBuf 0 ≠ 0x1f ∨ s.srcBuf 1 ≠ 0x8b ∨ s.srcBuf 2 ≠ 0x08 then
    .error .notGzip
  else skipFields file reads (s.srcBuf 3) s

end Header

/-! ### Decoding -/

/-- What `compression_stream_process` returns. -/
inductive Status
  | ok
  /-- The end of the DEFLATE data has been reached. -/
  | finished
  | failed
  deriving DecidableEq

/-- The outcome of a call: how many bytes were taken from the source, and what was produced. -/
structure Processed (σ : Type*) where
  state : σ
  used : ℕ
  produced : List UInt8
  status : Status

structure Decoder (σ : Type*) where
  start : σ
  process : σ → List UInt8 → Bool → Processed σ
  used_le : ∀ state src finalize, (process state src finalize).used ≤ src.length

/-- The loop's variables: `stream.src_ptr`, as an offset in the buffer, and `stream.src_size`
belong to the decoder between refills. -/
structure Loop (σ : Type*) where
  source : Source
  srcPtr : ℕ
  srcSize : ℕ
  flags : Bool
  state : σ

structure Handed (σ : Type*) where
  src : List UInt8
  finalize : Bool
  result : Processed σ

section Decoding

variable {σ : Type*} (file : List UInt8) (reads : Reads) (d : Decoder σ)

/-- Behind the header: the bytes that are left are moved to the front. -/
def startLoop (pos : ℕ) (s : Source) : Loop σ :=
  let avail := s.buffered - pos
  let srcBuf := if 0 < avail then memmove s.srcBuf 0 pos avail else s.srcBuf
  ⟨{ s with srcBuf := srcBuf, buffered := avail }, 0, avail, false, d.start⟩

def refill (l : Loop σ) : Loop σ :=
  if l.srcSize = 0 ∧ l.source.srcEOF = false then
    let data := reads.read file l.source.consumed cap
    if data = [] then { l with source := { l.source with srcEOF := true }, flags := true }
    else
      { l with
        source := { l.source with
          srcBuf := store l.source.srcBuf 0 data
          buffered := data.length
          consumed := l.source.consumed + data.length }
        srcPtr := 0
        srcSize := data.length }
  else l

def handOver (l : Loop σ) : Handed σ :=
  let src := load l.source.srcBuf l.srcPtr l.srcSize
  ⟨src, l.flags, d.process l.state src l.flags⟩

def advance (l : Loop σ) (result : Processed σ) : Loop σ :=
  { l with
    srcPtr := l.srcPtr + result.used
    srcSize := l.srcSize - result.used
    state := result.state }

/-- The first calls of the decoder, as many as are asked for if the loop goes on so long. -/
def calls : ℕ → Loop σ → List (Handed σ)
  | 0, _ => []
  | n + 1, l =>
    let l := refill file reads l
    let call := handOver d l
    call :: match call.result.status with
      | .ok => calls n (advance l call.result)
      | _ => []

/-- `inflate`, up to a number of calls of the decoder. -/
def inflate (srcBuf : Bytes) (n : ℕ) : Except GunzipError (List (Handed σ)) :=
  (parseHeader file reads (.init srcBuf)).map fun (pos, s) =>
    calls file reads d n (startLoop d pos s)

end Decoding

/-! ### Reading the header -/

section HeaderSpec

variable {file : List UInt8} {reads : Reads} {s : Source}

/-- While the header is read, the file's beginning is at the front of the buffer. -/
structure Filled (file : List UInt8) (s : Source) : Prop where
  front : load s.srcBuf 0 s.buffered = file.take s.buffered
  consumed : s.consumed = s.buffered
  le_length : s.buffered ≤ file.length
  le_cap : s.buffered ≤ s.srcCap
  cap_le : cap ≤ s.srcCap
  more : s.srcEOF = false

theorem cap_pos : 0 < cap := by decide

theorem Filled.init (file : List UInt8) (srcBuf : Bytes) : Filled file (.init srcBuf) :=
  ⟨rfl, rfl, Nat.zero_le _, Nat.zero_le _, Nat.le_refl _, rfl⟩

theorem Filled.grow (h : Filled file s) (n : ℕ) :
    Filled file (s.grow n) ∧ (s.grow n).buffered < (s.grow n).srcCap := by
  rw [Source.grow]
  have hcap := cap_pos
  split
  case isTrue hfull =>
    dsimp only
    refine ⟨⟨?_, h.consumed, h.le_length, ?_, ?_, h.more⟩, ?_⟩
    · have hload := load_store_self (fun _ => 0) 0 (load s.srcBuf 0 s.buffered)
      rw [length_load] at hload
      exact hload.trans h.front
    · dsimp only
      omega
    · dsimp only
      omega
    · omega
  case isFalse hroom => exact ⟨h, Nat.lt_of_not_le hroom⟩

/-- What is read goes behind what is buffered. -/
theorem Filled.append (h : Filled file s) (n : ℕ) (hn : n ≤ s.srcCap - s.buffered) :
    let data := reads.read file s.consumed n
    Filled file { s with
      srcBuf := store s.srcBuf s.buffered data
      buffered := s.buffered + data.length
      consumed := s.consumed + data.length } := by
  intro data
  have hcap : data.length ≤ n := reads.read_length_le file s.consumed n
  have hdrop := reads.drop_eq_read_append file s.consumed n
  have hlen : data.length ≤ file.length - s.consumed := by
    rw [← length_drop, hdrop, length_append]
    exact Nat.le_add_right _ _
  have hle := h.le_length
  have hcons := h.consumed
  have hle_cap := h.le_cap
  refine ⟨?_, ?_, ?_, ?_, h.cap_le, h.more⟩
  · dsimp only
    rw [load_add, load_store_of_disjoint (.inl (by omega)), h.front, Nat.zero_add, load_store_self,
      take_add, ← hcons, hdrop]
    change _ = _ ++ (data ++ _).take data.length
    rw [take_left]
  · dsimp only
    omega
  · dsimp only
    omega
  · dsimp only
    omega

/-- `fill` gets what is asked for if the file has it, and else finds the end. -/
theorem Filled.fill (h : Filled file s) (reads : Reads) (n : ℕ) :
    (n ≤ file.length → Filled file (fill file reads n s) ∧ n ≤ (fill file reads n s).buffered) ∧
      (file.length < n → (Host.fill file reads n s).buffered < n) := by
  fun_induction Host.fill file reads n s with
  | case1 s hmore s' data hdata =>
    obtain ⟨hgrow, hroom⟩ := h.grow n
    have hend : file.length ≤ s'.consumed :=
      (reads.read_eq_nil_iff file (Nat.sub_pos_of_lt hroom)).mp hdata
    have hb : s'.buffered = s.buffered := s.buffered_grow n
    rw [hgrow.consumed, Source.buffered_grow] at hend
    refine ⟨fun hle => ?_, fun _ => ?_⟩
    · omega
    · change s'.buffered < n
      omega
  | case2 s hmore s' data hdata ih =>
    obtain ⟨hgrow, hroom⟩ := h.grow n
    exact ih (hgrow.append _ (Nat.le_refl _))
  | case3 s hmore =>
    have hle : n ≤ s.buffered := by
      by_contra hlt
      exact hmore ⟨Nat.lt_of_not_le hlt, h.more⟩
    exact ⟨fun _ => ⟨h, hle⟩, fun hlt => absurd h.le_length (by omega)⟩

theorem Filled.need (h : Filled file s) {n : ℕ} :
    (n ≤ file.length → ∃ s', need file reads n s = .ok s' ∧ Filled file s' ∧ n ≤ s'.buffered) ∧
      (file.length < n → Host.need file reads n s = .error .badHeader) := by
  rw [Host.need]
  have hle := h.le_length
  split
  case isTrue hshort =>
    obtain ⟨hok, hbad⟩ := h.fill reads n
    refine ⟨fun hn => ?_, fun hn => if_pos (hbad hn)⟩
    exact ⟨_, if_neg (Nat.not_lt.mpr (hok hn).2), hok hn⟩
  case isFalse hlong =>
    exact ⟨fun _ => ⟨s, rfl, h, Nat.le_of_not_lt hlong⟩, fun hn => absurd hle (by omega)⟩

theorem Filled.byte (h : Filled file s) {i : ℕ} (hi : i < s.buffered) :
    file[i]? = some (s.srcBuf i) := by
  have hget := congrArg (·[i]?) h.front
  simp only [getElem?_take, if_pos hi] at hget
  rw [← hget, load, getElem?_map, getElem?_range hi, map_some, Nat.zero_add]

/-- A part of the header parser ends where it should, or it finds that the file ends. -/
inductive Lands (file : List UInt8) : Option ℕ → Except GunzipError (ℕ × Source) → Prop
  | ok {q : ℕ} {s' : Source} (h : Filled file s') (hq : q ≤ s'.buffered) :
      Lands file (some q) (.ok (q, s'))
  | bad : Lands file none (.error .badHeader)

def fieldsEnd (file : List UInt8) (pos : ℕ) (fs : List Gzip.Field) : Option ℕ :=
  (Gzip.length? fs (file.drop pos)).map (pos + ·)

theorem fieldsEnd_append (pos : ℕ) (fs gs : List Gzip.Field) :
    fieldsEnd file pos (fs ++ gs) = (fieldsEnd file pos fs).bind (fieldsEnd file · gs) := by
  rw [fieldsEnd, fieldsEnd, Gzip.length?_append]
  cases Gzip.length? fs (file.drop pos) with
  | none => rfl
  | some n =>
    rw [Option.bind_some, Option.map_some, Option.bind_some, fieldsEnd, Option.map_map,
      List.drop_drop]
    congr 1
    funext m
    exact (Nat.add_assoc pos n m).symm

theorem fieldsEnd_singleton (pos : ℕ) (f : Gzip.Field) :
    fieldsEnd file pos [f] = (f.length? (file.drop pos)).map (pos + ·) := by
  rw [fieldsEnd, Gzip.length?]
  cases f.length? (file.drop pos) <;> rfl

theorem Lands.bind {q : Option ℕ} {gs : List Gzip.Field} {r : Except GunzipError (ℕ × Source)}
    {k : ℕ × Source → Except GunzipError (ℕ × Source)} (h : Lands file q r)
    (hk : ∀ q s', Filled file s' → q ≤ s'.buffered → Lands file (fieldsEnd file q gs) (k (q, s'))) :
    Lands file (q.bind (fieldsEnd file · gs)) (r >>= k) := by
  cases h with
  | ok h hq => exact hk _ _ h hq
  | bad => exact .bad

/-- A field that is not announced is not there. -/
theorem lands_onFlag {c : Prop} [Decidable c] (h : Filled file s) {pos : ℕ}
    (hpos : pos ≤ s.buffered) {f : Gzip.Field}
    {skip : ℕ → Source → Except GunzipError (ℕ × Source)}
    (hskip : Lands file (fieldsEnd file pos [f]) (skip pos s)) :
    Lands file (fieldsEnd file pos (if c then [f] else [])) (onFlag (decide c) skip pos s) := by
  by_cases hc : c
  · rw [onFlag, if_pos hc, if_pos (decide_eq_true hc)]
    exact hskip
  · rw [onFlag, if_neg hc, if_neg (by simpa using hc)]
    exact .ok h hpos

theorem lands_need (h : Filled file s) (n : ℕ) {k : Source → Except GunzipError (ℕ × Source)}
    {q : Option ℕ} (hshort : file.length < n → q = none)
    (hk : ∀ s', Filled file s' → n ≤ s'.buffered → Lands file q (k s')) :
    Lands file q (need file reads n s >>= k) := by
  rcases Nat.lt_or_ge file.length n with hlt | hle
  · rw [hshort hlt, h.need.2 hlt]
    exact .bad
  · obtain ⟨s', hs', hfilled, hn⟩ := h.need.1 hle
    rw [hs']
    exact hk s' hfilled hn

theorem drop_eq_cons (h : Filled file s) {pos : ℕ} (hpos : pos < s.buffered) :
    file.drop pos = s.srcBuf pos :: file.drop (pos + 1) := by
  have hlt : pos < file.length := Nat.lt_of_lt_of_le hpos h.le_length
  have hbyte := h.byte hpos
  rw [getElem?_eq_getElem hlt, some.injEq] at hbyte
  rw [drop_eq_getElem_cons hlt, hbyte]

theorem lands_text (h : Filled file s) (pos : ℕ) :
    Lands file (fieldsEnd file pos [.text]) (skipText file reads pos s) := by
  rw [fieldsEnd_singleton]
  -- the next byte is at hand unless the file has ended
  have hnext : ∀ {s s' : Source} {pos}, Filled file s →
      (if s.buffered ≤ pos then need file reads (pos + 1) s else .ok s) = .ok s' →
      Filled file s' ∧ pos < s'.buffered := by
    intro s s' pos h hs
    split at hs
    case isTrue =>
      rcases Nat.lt_or_ge file.length (pos + 1) with hend | hmore
      · rw [h.need.2 hend] at hs
        cases hs
      · obtain ⟨s'', hs'', hfilled, hlt⟩ := h.need.1 hmore
        rw [hs''] at hs
        cases hs
        exact ⟨hfilled, hlt⟩
    case isFalse hlt =>
      cases hs
      exact ⟨h, Nat.lt_of_not_le hlt⟩
  fun_induction skipText file reads pos s with
  | case1 pos s e hs =>
    split at hs
    case isFalse => cases hs
    case isTrue hle =>
      rcases Nat.lt_or_ge file.length (pos + 1) with hend | hmore
      · rw [h.need.2 hend] at hs
        cases hs
        rw [List.drop_eq_nil_of_le (Nat.le_of_lt_succ hend)]
        exact .bad
      · obtain ⟨s', hs', -⟩ := h.need.1 hmore
        rw [hs'] at hs
        cases hs
  | case2 pos s s' hs hzero =>
    obtain ⟨h', hlt⟩ := hnext h hs
    rw [drop_eq_cons h' hlt, Gzip.Field.length?, Gzip.Field.textLength?, if_pos hzero]
    exact .ok h' hlt
  | case3 pos s s' hs hnonzero ih =>
    obtain ⟨h', hlt⟩ := hnext h hs
    have hrest := ih h'
    rw [Gzip.Field.length?] at hrest
    rw [drop_eq_cons h' hlt, Gzip.Field.length?, Gzip.Field.textLength?, if_neg hnonzero,
      Option.map_map]
    have hadd : (pos + ·) ∘ (· + 1) = (pos + 1 + ·) := by
      funext n
      exact Nat.add_right_comm pos n 1
    rwa [hadd]

theorem fieldsEnd_of_short {f : Gzip.Field} (hf : f ≠ .text) {pos : ℕ}
    (h : file.length < pos + 2) : fieldsEnd file pos [f] = none := by
  rw [fieldsEnd_singleton, Gzip.Field.length?_of_short hf]
  · rfl
  · rw [length_drop]
    omega

theorem lands_crc (h : Filled file s) (pos : ℕ) :
    Lands file (fieldsEnd file pos [.crc]) (skipCrc file reads pos s) := by
  apply lands_need h
  · exact fieldsEnd_of_short (by simp)
  · intro s' h' hn
    rw [fieldsEnd_singleton, drop_eq_cons h' (by omega), drop_eq_cons h' (by omega)]
    exact .ok h' hn

theorem lands_extra (h : Filled file s) (pos : ℕ) :
    Lands file (fieldsEnd file pos [.extra]) (skipExtra file reads pos s) := by
  apply lands_need h
  · exact fieldsEnd_of_short (by simp)
  · intro s' h' hn
    have hxlen : (s'.srcBuf pos).toNat ||| (s'.srcBuf (pos + 1)).toNat <<< 8 =
        (s'.srcBuf pos).toNat + 256 * (s'.srcBuf (pos + 1)).toNat := by
      have hlt : (s'.srcBuf pos).toNat < 2 ^ 8 := (s'.srcBuf pos).toNat_lt
      rw [Nat.or_comm, ← Nat.shiftLeft_add_eq_or_of_lt hlt, Nat.shiftLeft_eq]
      omega
    have hlen : (file.drop (pos + 1 + 1)).length = file.length - (pos + 2) := length_drop
    rw [fieldsEnd_singleton, drop_eq_cons h' (by omega), drop_eq_cons h' (by omega),
      Gzip.Field.length?, hxlen]
    apply lands_need h'
    · intro hshort
      have hle := h'.le_length
      rw [if_neg (by omega)]
      rfl
    · intro s'' h'' hn'
      have hle := h''.le_length
      have hend : pos + ((s'.srcBuf pos).toNat + 256 * (s'.srcBuf (pos + 1)).toNat + 2) =
          pos + 2 + ((s'.srcBuf pos).toNat + 256 * (s'.srcBuf (pos + 1)).toNat) := by
        omega
      rw [if_pos (by omega), map_some, hend]
      exact .ok h'' hn'

theorem lands_fields (h : Filled file s) (hten : 10 ≤ s.buffered) (flg : UInt8) :
    Lands file (fieldsEnd file 10 (Gzip.fieldsOf flg)) (skipFields file reads flg s) := by
  rw [Gzip.fieldsOf, append_assoc, append_assoc, fieldsEnd_append]
  refine (lands_onFlag h hten (lands_extra h 10)).bind fun q s₁ h₁ hq => ?_
  rw [fieldsEnd_append]
  refine (lands_onFlag h₁ hq (lands_text h₁ q)).bind fun q s₂ h₂ hq => ?_
  rw [fieldsEnd_append]
  refine (lands_onFlag h₂ hq (lands_text h₂ q)).bind fun q s₃ h₃ hq => ?_
  exact lands_onFlag h₃ hq (lands_crc h₃ q)

theorem magic_prefix_iff (h : Filled file s) (hten : 10 ≤ s.buffered) :
    (Gzip.magic <+: file ↔ ¬ (s.srcBuf 0 ≠ 0x1f ∨ s.srcBuf 1 ≠ 0x8b ∨ s.srcBuf 2 ≠ 0x08)) ∧
      file.getD 3 0 = s.srcBuf 3 := by
  have hfile : file = s.srcBuf 0 :: s.srcBuf 1 :: s.srcBuf 2 :: s.srcBuf 3 :: file.drop 4 := by
    rw [← drop_eq_cons h (by omega), ← drop_eq_cons h (by omega), ← drop_eq_cons h (by omega),
      ← drop_eq_cons h (by omega), drop_zero]
  rw [hfile, Gzip.magic]
  simp only [cons_prefix_cons, nil_prefix, not_or, not_not, and_true]
  refine ⟨⟨fun h => ⟨h.1.symm, h.2.1.symm, h.2.2.symm⟩,
      fun h => ⟨h.1.symm, h.2.1.symm, h.2.2.symm⟩⟩,
    rfl⟩

theorem parseHeader_spec (h : Filled file s) (reads : Reads) :
    match Gzip.headerLength? file with
    | some n => ∃ s', parseHeader file reads s = .ok (n, s') ∧ Filled file s' ∧ n ≤ s'.buffered
    | none => ∃ e, parseHeader file reads s = .error e := by
  obtain ⟨hlong, hshort⟩ := h.fill reads 10
  rw [Gzip.headerLength?, parseHeader]
  rcases Nat.lt_or_ge file.length 10 with hlt | hle
  · rw [if_neg fun hcond => absurd hcond.2 (Nat.not_le.mpr hlt)]
    exact ⟨.notGzip, if_pos (.inl (hshort hlt))⟩
  · obtain ⟨h', hten⟩ := hlong hle
    obtain ⟨hmagic, hflg⟩ := magic_prefix_iff h' hten
    by_cases hstart : Gzip.magic <+: file
    · have hcond := hmagic.mp hstart
      have hlands : Lands file (fieldsEnd file 10 (Gzip.fieldsOf (file.getD 3 0)))
          (skipFields file reads (file.getD 3 0) (fill file reads 10 s)) :=
        lands_fields h' hten (file.getD 3 0)
      rw [if_pos ⟨hstart, hle⟩, if_neg (not_or.mpr ⟨Nat.not_lt.mpr hten, hcond⟩), ← hflg]
      rw [fieldsEnd] at hlands
      generalize Option.map (10 + ·) _ = q at hlands ⊢
      generalize skipFields file reads (file.getD 3 0) (fill file reads 10 s) = r at hlands ⊢
      cases hlands with
      | ok h'' hq => exact ⟨_, rfl, h'', hq⟩
      | bad => exact ⟨_, rfl⟩
    · rw [if_neg fun hcond => hstart hcond.1]
      refine ⟨.notGzip, if_pos (.inr ?_)⟩
      exact not_not.mp (mt hmagic.mpr hstart)

end HeaderSpec

/-! ### Handing over -/

section DecodingSpec

variable {σ : Type*} {file : List UInt8} {reads : Reads} {d : Decoder σ} {l : Loop σ}
variable {start used : ℕ}

/-- While the data behind a position are decoded and so many bytes of them are used: the bytes at
the decoder's cursor come next in the file, and those behind them have not been read. -/
structure Handing (file : List UInt8) (start used : ℕ) (l : Loop σ) : Prop where
  cursor : load l.source.srcBuf l.srcPtr l.srcSize = (file.drop (start + used)).take l.srcSize
  consumed : l.source.consumed = start + used + l.srcSize
  le_length : l.source.consumed ≤ file.length
  le_cap : l.srcPtr + l.srcSize ≤ l.source.srcCap
  cap_le : cap ≤ l.source.srcCap
  flags : l.flags = l.source.srcEOF
  ended : l.source.srcEOF = true → l.srcSize = 0 ∧ l.source.consumed = file.length

/-- Bytes in memory that come from a list, seen from a later one on. -/
theorem load_of_take {m : Bytes} {a k n : ℕ} {xs : List UInt8} (hk : k ≤ n)
    (h : load m a n = xs.take n) : load m (a + k) (n - k) = (xs.drop k).take (n - k) := by
  have hsplit : load m a n = load m a k ++ load m (a + k) (n - k) := by
    rw [← load_add, Nat.add_sub_cancel' hk]
  have hdrop := congrArg (drop k) (hsplit.symm.trans h)
  rwa [drop_left' (length_load m a k), drop_take] at hdrop

/-- The bytes that are left behind the header are moved to the front. -/
theorem Filled.handing {s : Source} {pos : ℕ} (h : Filled file s) (hpos : pos ≤ s.buffered) :
    Handing file pos 0 (startLoop d pos s) := by
  have hmove : load (startLoop d pos s).source.srcBuf 0 (s.buffered - pos) =
      load s.srcBuf pos (s.buffered - pos) := by
    rw [startLoop]
    dsimp only
    split
    case isTrue =>
      have hload := load_store_self s.srcBuf 0 (load s.srcBuf pos (s.buffered - pos))
      rwa [length_load] at hload
    case isFalse hnone =>
      rw [Nat.eq_zero_of_not_pos hnone]
      rfl
  have hfront : load s.srcBuf pos (s.buffered - pos) = (file.drop pos).take (s.buffered - pos) := by
    have hlater := load_of_take hpos h.front
    rwa [Nat.zero_add] at hlater
  have hcons := h.consumed
  have hle_cap := h.le_cap
  refine ⟨hmove.trans hfront, ?_, ?_, ?_, h.cap_le, h.more.symm, fun hend => ?_⟩
  · change s.consumed = pos + 0 + (s.buffered - pos)
    omega
  · change s.consumed ≤ file.length
    rw [hcons]
    exact h.le_length
  · change 0 + (s.buffered - pos) ≤ s.srcCap
    omega
  · exact absurd (h.more.symm.trans hend) (by decide)

/-- A refill puts the next bytes of the file at the cursor, or finds the end. -/
theorem Handing.refill (h : Handing file start used l) (reads : Reads) :
    Handing file start used (refill file reads l) ∧
      ((Host.refill file reads l).srcSize = 0 → (Host.refill file reads l).flags = true) := by
  rw [Host.refill]
  split
  case isFalse hkeep =>
    refine ⟨h, fun hzero => ?_⟩
    rw [h.flags]
    by_contra heof
    exact hkeep ⟨hzero, Bool.eq_false_iff.mpr heof⟩
  case isTrue hdrained =>
    have hcons := h.consumed
    rw [hdrained.1, Nat.add_zero] at hcons
    dsimp only
    split
    case isTrue hnone =>
      have hend : l.source.consumed = file.length :=
        Nat.le_antisymm h.le_length ((reads.read_eq_nil_iff file cap_pos).mp hnone)
      exact ⟨{ h with flags := rfl, ended := fun _ => ⟨hdrained.1, hend⟩ }, fun _ => rfl⟩
    case isFalse hsome =>
      have hdrop := reads.drop_eq_read_append file l.source.consumed cap
      have hlen := reads.read_length_le file l.source.consumed cap
      have hcap := h.cap_le
      refine ⟨⟨?_, ?_, ?_, ?_, hcap, ?_, fun heof => ?_⟩, fun hzero => ?_⟩
      · dsimp only
        rw [load_store_self, ← hcons, hdrop, take_left]
      · dsimp only
        omega
      · dsimp only
        have hlength := congrArg length hdrop
        rw [length_append, length_drop] at hlength
        have hpos := length_pos_iff.mpr hsome
        omega
      · dsimp only
        omega
      · exact h.flags
      · exact absurd (hdrained.2.symm.trans heof) (by decide)
      · exact absurd (length_eq_zero_iff.mp hzero) hsome

theorem Handing.advance (h : Handing file start used l) {result : Processed σ}
    (hused : result.used ≤ l.srcSize) :
    Handing file start (used + result.used) (advance l result) := by
  refine ⟨?_, ?_, h.le_length, ?_, h.cap_le, h.flags, fun hend => ?_⟩
  · have hlater := load_of_take hused h.cursor
    rwa [drop_drop, Nat.add_assoc] at hlater
  · have hcons := h.consumed
    change l.source.consumed = start + (used + result.used) + (l.srcSize - result.used)
    omega
  · have hle := h.le_cap
    change l.srcPtr + result.used + (l.srcSize - result.used) ≤ l.source.srcCap
    omega
  · obtain ⟨hzero, hall⟩ := h.ended hend
    exact ⟨by change l.srcSize - result.used = 0; omega, hall⟩

@[simp] theorem state_refill : (refill file reads l).state = l.state := by
  rw [refill]
  split
  · dsimp only
    split <;> rfl
  · rfl

/-- The first calls of a loop that hands a body over, when so many bytes of it are used. While the
decoder goes on there is a next call; it gets bytes that follow the ones used, none only if all are
used, and the finalize flag is raised then and only then. -/
def HandsOver (d : Decoder σ) (body : List UInt8) : ℕ → ℕ → σ → List (Handed σ) → Prop
  | 0, _, _, cs => cs = []
  | _ + 1, _, _, [] => False
  | n + 1, used, state, call :: rest =>
    call.src <+: body.drop used ∧ (call.src = [] ↔ used = body.length) ∧
      (call.finalize = true ↔ used = body.length) ∧
      call.result = d.process state call.src call.finalize ∧
      if call.result.status = .ok then
        HandsOver d body n (used + call.result.used) call.result.state rest
      else rest = []

theorem calls_handsOver (h : Handing file start used l) (n : ℕ) :
    HandsOver d (file.drop start) n used l.state (calls file reads d n l) := by
  induction n generalizing used l with
  | zero => rfl
  | succ n ih =>
    obtain ⟨h', hdrained⟩ := h.refill reads
    have hstate : (refill file reads l).state = l.state := state_refill
    rw [calls, ← hstate]
    generalize refill file reads l = l' at h' hdrained ⊢
    have hlen : (handOver d l').src.length = l'.srcSize := length_load _ _ _
    have hcons := h'.consumed
    have hle := h'.le_length
    have hend : l'.srcSize = 0 ↔ used = (file.drop start).length := by
      rw [length_drop]
      refine ⟨fun hzero => ?_, fun hall => by omega⟩
      have hflags := hdrained hzero
      rw [h'.flags] at hflags
      have := (h'.ended hflags).2
      omega
    refine ⟨?_, ?_, ?_, rfl, ?_⟩
    · rw [drop_drop]
      change load _ _ _ <+: _
      rw [h'.cursor]
      exact take_prefix _ _
    · rw [← length_eq_zero_iff, hlen, hend]
    · rw [← hend]
      refine ⟨fun hflag => ?_, hdrained⟩
      rw [handOver, h'.flags] at hflag
      exact (h'.ended hflag).1
    · have hused : (handOver d l').result.used ≤ l'.srcSize := by
        rw [← hlen]
        exact d.used_le _ _ _
      split
      case isTrue hok =>
        rw [hok]
        exact ih (h'.advance hused)
      case isFalse hstop =>
        split
        · exact absurd ‹_› hstop
        · rfl

/-- The bytes that the calls have taken. -/
def taken (cs : List (Handed σ)) : List UInt8 := cs.flatMap fun c => c.src.take c.result.used

/-- They are the body's, in order, and all of them once the finalize flag is raised. -/
theorem HandsOver.taken_prefix {body : List UInt8} {n : ℕ} {state : σ} {cs : List (Handed σ)}
    (h : HandsOver d body n used state cs) :
    taken cs <+: body.drop used ∧
      ∀ call ∈ cs, call.finalize = true → taken cs = body.drop used := by
  induction n, used, state, cs using HandsOver.induct with
  | case1 =>
    obtain rfl := h
    exact ⟨ nil_prefix, nofun⟩
  | case2 => exact h.elim
  | case3 n used state call rest ih =>
    obtain ⟨hsrc, -, hfinal, hresult, hrest⟩ := h
    have hused : call.result.used ≤ call.src.length := by
      rw [hresult]
      exact d.used_le _ _ _
    have hsplit : body.drop used =
        call.src.take call.result.used ++ body.drop (used + call.result.used) := by
      obtain ⟨tail, htail⟩ := hsrc
      rw [← drop_drop, ← htail, drop_append_of_le_length hused, ← append_assoc, take_append_drop]
    have hih : taken rest <+: body.drop (used + call.result.used) ∧
        ∀ c ∈ rest, c.finalize = true → taken rest = body.drop (used + call.result.used) := by
      split at hrest
      · exact ih hrest
      · subst hrest
        exact ⟨ nil_prefix, nofun⟩
    rw [taken, flatMap_cons, ← taken, hsplit]
    refine ⟨prefix_append_right_inj _ |>.mpr hih.1, fun c hc hflag => ?_⟩
    rw [append_cancel_left_eq]
    rcases mem_cons.mp hc with rfl | hc
    · -- nothing was left for this call
      have hnone : body.drop (used + c.result.used) = [] :=
        drop_eq_nil_of_le (by rw [hfinal.mp hflag]; omega)
      rw [hnone] at hih ⊢
      exact prefix_nil.mp hih.1
    · exact hih.2 c hc hflag

/-- A decoder that goes on and takes a byte whenever it gets some is handed the whole body. -/
theorem HandsOver.finalized {body : List UInt8} {n : ℕ} {state : σ} {cs : List (Handed σ)}
    (h : HandsOver d body n used state cs) (hle : used ≤ body.length)
    (hn : body.length - used < n)
    (hgoes : ∀ call ∈ cs, call.finalize = false →
      call.result.status = .ok ∧ 0 < call.result.used) :
    ∃ call ∈ cs, call.finalize = true := by
  induction n, used, state, cs using HandsOver.induct with
  | case1 => exact absurd hn (Nat.not_lt_zero _)
  | case2 => exact h.elim
  | case3 n used state call rest ih =>
    obtain ⟨hsrc, -, hfinal, hresult, hrest⟩ := h
    by_cases hall : used = body.length
    · exact ⟨call, mem_cons_self, hfinal.mpr hall⟩
    · obtain ⟨hok, htakes⟩ :=
        hgoes call mem_cons_self (Bool.eq_false_iff.mpr (mt hfinal.mp hall))
      have hused : call.result.used ≤ body.length - used := by
        rw [← length_drop]
        refine Nat.le_trans ?_ hsrc.length_le
        rw [hresult]
        exact d.used_le _ _ _
      rw [if_pos hok] at hrest
      obtain ⟨c, hc, hflag⟩ := ih hrest (by omega) (by omega)
        fun c hc => hgoes c (mem_cons_of_mem _ hc)
      exact ⟨c, mem_cons_of_mem _ hc, hflag⟩

/-- Whatever the input stream returns at each read and the decoder takes at each call, the decoder
is handed the bytes behind the header in order, with the finalize flag behind the last of them.
None is missing: the bytes taken are a beginning of the body, the whole of it once the flag is
raised, and that happens unless the decoder stops before or stands still. A file is rejected
exactly when its magic is wrong or it ends within its header. -/
theorem inflate_hands_over (file : List UInt8) (reads : Reads) (d : Decoder σ) (srcBuf : Bytes)
    (n : ℕ) :
    ((∃ e, inflate file reads d srcBuf n = .error e) ↔
      Gzip.WrongMagic file ∨ Gzip.EndsInHeader file) ∧
      ∀ header body, Gzip.IsHeader header → file = header ++ body →
        ∃ cs, inflate file reads d srcBuf n = .ok cs ∧ HandsOver d body n 0 d.start cs ∧
          taken cs <+: body ∧ (∀ call ∈ cs, call.finalize = true → taken cs = body) ∧
          (body.length < n → (∀ call ∈ cs, call.finalize = false →
              call.result.status = .ok ∧ 0 < call.result.used) →
            ∃ call ∈ cs, call.finalize = true) := by
  have hspec := parseHeader_spec (Filled.init file srcBuf) reads
  rw [← Gzip.headerLength?_eq_none_iff, inflate]
  constructor
  · cases hlength : Gzip.headerLength? file with
    | none =>
      rw [hlength] at hspec
      obtain ⟨e, he⟩ := hspec
      rw [he]
      exact ⟨fun _ => rfl, fun _ => ⟨e, rfl⟩⟩
    | some m =>
      rw [hlength] at hspec
      obtain ⟨s, hs, -⟩ := hspec
      rw [hs]
      refine ⟨?_, fun h => by cases h⟩
      rintro ⟨e, he⟩
      cases he
  · rintro header body hheader rfl
    rw [Gzip.headerLength?_of_isHeader hheader] at hspec
    obtain ⟨s, hs, hfilled, hle⟩ := hspec
    rw [hs]
    have hstart : Handing (header ++ body) header.length 0 (startLoop d header.length s) :=
      hfilled.handing hle
    have hands : HandsOver d _ n 0 _ (calls (header ++ body) reads d n _) :=
      calls_handsOver hstart n
    rw [drop_left] at hands
    obtain ⟨hbegin, hfinal⟩ := hands.taken_prefix
    exact ⟨_, rfl, hands, hbegin, hfinal, fun hn => hands.finalized (Nat.zero_le _) hn⟩

end DecodingSpec

def copyDecoder : Decoder Unit where
  start := ()
  process _ src finalize := ⟨(), src.length, src, if finalize then .finished else .ok⟩
  used_le _ _ _ := Nat.le_refl _

def sampleHeader : List UInt8 := [0x1f, 0x8b, 0x08, 0x08, 0, 0, 0, 0, 0, 3, 97, 98, 0]

theorem sampleHeader_isHeader : Gzip.IsHeader sampleHeader :=
  .mk 0x08 [0, 0, 0, 0, 0, 3] [97, 98, 0] rfl (.cons (.text [97, 98] (by decide)) .nil)

/-- The three bytes of the body are handed over, and then the finalize flag. -/
theorem inflate_hands_over_sample :
    ∃ cs, inflate (sampleHeader ++ [5, 6, 7]) .full copyDecoder (fun _ => 0) 2 = .ok cs ∧
      cs.map (fun c => (c.src, c.finalize)) = [([5, 6, 7], false), ([], true)] ∧
      taken cs = [5, 6, 7] := by
  obtain ⟨cs, hcs, -, -, hfinal, -⟩ :=
    (inflate_hands_over (sampleHeader ++ [5, 6, 7]) .full copyDecoder (fun _ => 0) 2).2
      sampleHeader [5, 6, 7] sampleHeader_isHeader rfl
  have hcalls : (inflate (sampleHeader ++ [5, 6, 7]) .full copyDecoder (fun _ => 0) 2).map
      (·.map fun c => (c.src, c.finalize)) = .ok [([5, 6, 7], false), ([], true)] := by
    decide +kernel
  rw [hcs, Except.map, Except.ok.injEq] at hcalls
  obtain ⟨last, hlast, heq⟩ : ∃ c ∈ cs, (c.src, c.finalize) = ([], true) :=
    mem_map.mp (by simp [hcalls])
  exact ⟨cs, hcs, hcalls, hfinal last hlast (congrArg Prod.snd heq)⟩

end Bootbox.Host
