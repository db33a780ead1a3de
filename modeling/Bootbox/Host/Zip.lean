import Bootbox.Lib.Unicode
import Bootbox.Lib.ZipFormat
import Mathlib.Data.List.Forall2

/-!
The ZIP reader of the host app (`ZipReader`). It looks backwards from the end of the
data for the signature of an end record, walks the central directory from where that
record says it begins, and extracts an entry by its name from the local record the
directory points to.

A read outside the data stops the app; it is `none` in the outer `Option` of each
function, and a `nil` of the source is `none` in the inner one. Two things are left to
parameters: which names are equal, since strings are compared up to canonical
equivalence (`canon`), and the decoder of the system library (`Inflater`).

The reader takes an archive for what it is exactly if nothing behind its end record
looks like the head of another one, its names are in UTF-8, and the first entry of each
name holds the contents sought and is not an empty deflated one (`reads_iff_plain`).
-/

namespace Bootbox.Host.Zip

open Lib.ByteRecord Lib.Unicode Lib.ZipFormat List Option

variable {d : List UInt8}

/-! ### The reader -/

structure Entry where
  name : String
  compMethod : ℕ
  compSize : ℕ
  uncompSize : ℕ
  localHeaderOffset : ℕ

structure ZipReader where
  data : List UInt8
  entries : List Entry

/-- Whether the signature stands at a position, compared byte by byte. -/
def signatureAt (d : List UInt8) (i : ℕ) : List UInt8 → Option Bool
  | [] => some true
  | b :: bs => do
      let x ← d[i]?
      if x = b then signatureAt d (i + 1) bs else return false

/-- The loop of `findEOCD`, from position `i - 1` down to `lower`. -/
def searchEOCD (d : List UInt8) (lower : ℕ) : ℕ → Option (Option ℕ)
  | 0 => some none
  | i + 1 =>
    if lower ≤ i then do
      let found ← signatureAt d i [0x50, 0x4b, 0x05, 0x06]
      if found then return some i else searchEOCD d lower i
    else some none

def findEOCD (d : List UInt8) : Option (Option ℕ) :=
  if d.length < 22 then some none
  else searchEOCD d (d.length - 22 - 65536) (d.length - 22 + 1)

/-- The loop of the initializer: so many records of the directory from a position on. -/
def readDirectory (d : List UInt8) : ℕ → ℕ → Option (List Entry)
  | 0, _ => some []
  | n + 1, p => do
      let signature ← u32? d p
      if p + 46 ≤ d.length ∧ signature = 0x02014b50 then
        let method ← u16? d (p + 10)
        let compSize ← u32? d (p + 20)
        let uncompSize ← u32? d (p + 24)
        let nameLen ← u16? d (p + 28)
        let extraLen ← u16? d (p + 30)
        let commentLen ← u16? d (p + 32)
        let lho ← u32? d (p + 42)
        let nameData ← slice? d (p + 46) (p + 46 + nameLen)
        let entries ← readDirectory d n (p + (46 + nameLen + extraLen + commentLen))
        return ⟨(utf8Text? nameData).getD "", method, compSize, uncompSize, lho⟩ :: entries
      else return []

def ZipReader.init (data : List UInt8) : Option (Option ZipReader) := do
  match ← findEOCD data with
  | none => return none
  | some eocd =>
    let cdCount ← u16? data (eocd + 10)
    let p ← u32? data (eocd + 16)
    let entries ← readDirectory data cdCount p
    return some ⟨data, entries⟩

def ZipReader.names (zip : ZipReader) : List String := zip.entries.map Entry.name

/-- The raw DEFLATE decoder of the system library. It writes at most so many bytes, and
where they are enough, it writes the contents. -/
structure Inflater (Deflates : List UInt8 → List UInt8 → Prop) where
  decodeBuffer : ℕ → List UInt8 → List UInt8
  decodeBuffer_eq : ∀ {content packed}, Deflates content packed →
    ∀ {cap}, content.length ≤ cap → decodeBuffer cap packed = content

variable {Deflates : List UInt8 → List UInt8 → Prop} (inflater : Inflater Deflates)
variable (canon : String → String)

def inflate (input : List UInt8) (expected : ℕ) : Option (List UInt8) :=
  let cap := max expected (input.length * 4) + 4096
  let out := inflater.decodeBuffer cap input
  if 0 < out.length then some out else none

def ZipReader.extract (zip : ZipReader) (name : String) : Option (Option (List UInt8)) :=
  match zip.entries.find? fun e => canon e.name = canon name with
  | none => some none
  | some e => do
      let lho := e.localHeaderOffset
      let signature ← u32? zip.data lho
      if lho + 30 ≤ zip.data.length ∧ signature = 0x04034b50 then
        let nameLen ← u16? zip.data (lho + 26)
        let extraLen ← u16? zip.data (lho + 28)
        let dataStart := lho + 30 + nameLen + extraLen
        if dataStart + e.compSize ≤ zip.data.length then
          let comp ← slice? zip.data dataStart (dataStart + e.compSize)
          if e.compMethod = 0 then return some comp
          else return inflate inflater comp e.uncompSize
        else return none
      else return none

/-! ### What the search finds -/

theorem signatureAt_eq (bs : List UInt8) {i : ℕ} (h : i + bs.length ≤ d.length) :
    signatureAt d i bs = some (decide (bs <+: d.drop i)) := by
  induction bs generalizing i with
  | nil => simp [signatureAt]
  | cons b bs ih =>
    rw [length_cons] at h
    have hi : i < d.length := by omega
    rw [signatureAt, getElem?_eq_getElem hi, bind_eq_bind, bind_some,
      ih (show i + 1 + bs.length ≤ d.length by omega), drop_eq_getElem_cons hi]
    simp only [cons_prefix_cons]
    by_cases hb : d[i] = b
    · simp [hb]
    · simp [hb, Ne.symm hb]

/-- The signature of an end record, far enough from the end for one. -/
def EndAt (d : List UInt8) (i : ℕ) : Prop := i + 22 ≤ d.length ∧ endSignature <+: d.drop i

/-- The loop finds the last place below its start, and never reads outside. -/
theorem searchEOCD_spec (d : List UInt8) (lower : ℕ) {n : ℕ} (h : n + 21 ≤ d.length) :
    ∃ found, searchEOCD d lower n = some found ∧ ∀ e, found = some e ↔
      (lower ≤ e ∧ e < n ∧ EndAt d e) ∧ ∀ i, e < i → i < n → ¬ EndAt d i := by
  induction n with
  | zero => exact ⟨none, rfl, fun e => ⟨nofun, fun he => absurd he.1.2.1 (Nat.not_lt_zero _)⟩⟩
  | succ n ih =>
    rw [searchEOCD]
    split
    case isFalse hlower =>
      exact ⟨none, rfl, fun e => ⟨nofun, fun he => by omega⟩⟩
    case isTrue hlower =>
      have hread : signatureAt d n [0x50, 0x4b, 0x05, 0x06] =
          some (decide (endSignature <+: d.drop n)) :=
        signatureAt_eq _ (show n + 4 ≤ d.length by omega)
      rw [hread, bind_eq_bind, bind_some]
      by_cases hsig : endSignature <+: d.drop n
      · have hat : EndAt d n := ⟨by omega, hsig⟩
        refine ⟨some n, by rw [decide_eq_true hsig, if_pos rfl]; rfl, fun e => ?_⟩
        rw [some.injEq]
        refine ⟨?_, fun he => ?_⟩
        · rintro rfl
          exact ⟨⟨hlower, Nat.lt_succ_self _, hat⟩, fun i hi hi' => by omega⟩
        · by_contra hne
          exact he.2 n (by omega) (Nat.lt_succ_self n) hat
      · obtain ⟨found, hfound, hspec⟩ := ih (by omega)
        have hnot : ¬ EndAt d n := fun hat => hsig hat.2
        refine ⟨found, by rw [decide_eq_false hsig, if_neg Bool.false_ne_true, hfound],
          fun e => (hspec e).trans ?_⟩
        constructor
        · rintro ⟨⟨hle, hlt, hat⟩, hlast⟩
          refine ⟨⟨hle, by omega, hat⟩, fun i hi hi' => ?_⟩
          rcases Nat.lt_succ_iff_lt_or_eq.mp hi' with hi' | rfl
          · exact hlast i hi hi'
          · exact hnot
        · rintro ⟨⟨hle, hlt, hat⟩, hlast⟩
          have hne : e ≠ n := by
            rintro rfl
            exact hnot hat
          exact ⟨⟨hle, by omega, hat⟩, fun i hi hi' => hlast i hi (by omega)⟩

theorem findEOCD_spec (d : List UInt8) : ∃ found, findEOCD d = some found ∧ ∀ e, found = some e ↔
    (d.length - 22 - 65536 ≤ e ∧ EndAt d e) ∧ ∀ i, e < i → ¬ EndAt d i := by
  rw [findEOCD]
  split
  case isTrue hshort =>
    exact ⟨none, rfl, fun e => ⟨nofun, fun he => absurd he.1.2.1 (by omega)⟩⟩
  case isFalse hlong =>
    obtain ⟨found, hfound, hspec⟩ :=
      searchEOCD_spec d (d.length - 22 - 65536) (show d.length - 22 + 1 + 21 ≤ d.length by omega)
    refine ⟨found, hfound, fun e => (hspec e).trans ?_⟩
    constructor
    · rintro ⟨⟨hle, -, hat⟩, hlast⟩
      exact ⟨⟨hle, hat⟩, fun i hi hi' => hlast i hi (by have := hi'.1; omega) hi'⟩
    · rintro ⟨⟨hle, hat⟩, hlast⟩
      exact ⟨⟨hle, by have := hat.1; omega, hat⟩, fun i hi _ => hlast i hi⟩

/-- Of an archive the own end record is found if no later place looks like one. -/
theorem findEOCD_bytes (A : Archive Deflates) : findEOCD A.bytes = some (some A.endOffset) ↔
    ∀ i, A.endOffset < i → ¬ EndAt A.bytes i := by
  obtain ⟨found, hfound, hspec⟩ := findEOCD_spec A.bytes
  have hlen := A.length_bytes
  have hcomment := A.comment_lt
  rw [hfound, some.injEq, hspec]
  refine ⟨fun h => h.2, fun h => ⟨⟨?_, ?_, A.endSignature_at⟩, h⟩⟩ <;> omega

/-! ### Reads outside the data -/

/-- The positions of the records the walk comes to, with so many of them left. -/
inductive RecordFrom (d : List UInt8) : ℕ → ℕ → ℕ → Prop
  | here {n p : ℕ} (hp : p + 46 ≤ d.length) (hsig : field d p 4 = 0x02014b50) :
      RecordFrom d (n + 1) p p
  | next {n p q : ℕ} (hp : p + 46 ≤ d.length) (hsig : field d p 4 = 0x02014b50)
      (h : RecordFrom d n (p + (46 + field d (p + 28) 2 + field d (p + 30) 2 +
        field d (p + 32) 2)) q) : RecordFrom d (n + 1) p q

/-- The name of each of these records stands inside the data. -/
def NamesFitFrom (d : List UInt8) (n p : ℕ) : Prop :=
  ∀ q, RecordFrom d n p q → q + 46 + field d (q + 28) 2 ≤ d.length

theorem namesFitFrom_step {n p : ℕ} (hp : p + 46 ≤ d.length) (hsig : field d p 4 = 0x02014b50) :
    NamesFitFrom d (n + 1) p ↔
      p + 46 + field d (p + 28) 2 ≤ d.length ∧
        NamesFitFrom d n (p + (46 + field d (p + 28) 2 + field d (p + 30) 2 +
          field d (p + 32) 2)) := by
  constructor
  · exact fun h => ⟨h p (.here hp hsig), fun q hq => h q (.next hp hsig hq)⟩
  · rintro ⟨hhere, hnext⟩ q hq
    cases hq with
    | here => exact hhere
    | next _ _ hq => exact hnext q hq

theorem readDirectory_isSome (d : List UInt8) (n p : ℕ) :
    (readDirectory d n p).isSome ↔ NamesFitFrom d n p := by
  induction n generalizing p with
  | zero => exact ⟨fun _ q hq => (nomatch hq), fun _ => rfl⟩
  | succ n ih =>
    rw [readDirectory]
    simp only [u16?_eq, u32?_eq, bind_eq_bind, bind_some]
    split
    case isTrue h =>
      rw [namesFitFrom_step h.1 h.2, ← ih, ← slice?_isSome d (Nat.le_add_right (p + 46) _)]
      cases slice? d (p + 46) (p + 46 + field d (p + 28) 2) with
      | none => simp
      | some nameData =>
        cases readDirectory d n _ <;> simp
    case isFalse h =>
      refine ⟨fun _ q hq => ?_, fun _ => rfl⟩
      cases hq with
      | here hp hsig => exact absurd ⟨hp, hsig⟩ h
      | next hp hsig _ => exact absurd ⟨hp, hsig⟩ h

/-- The names of all records of the directory that the end record found leads to. -/
def NamesFit (d : List UInt8) : Prop :=
  ∀ e, (d.length - 22 - 65536 ≤ e ∧ EndAt d e) → (∀ i, e < i → ¬ EndAt d i) →
    NamesFitFrom d (field d (e + 10) 2) (field d (e + 16) 4)

/-- Opening reads outside the data exactly if a name does not stand inside it. -/
theorem init_isSome (d : List UInt8) : (ZipReader.init d).isSome ↔ NamesFit d := by
  obtain ⟨found, hfound, hspec⟩ := findEOCD_spec d
  rw [ZipReader.init, hfound]
  cases found with
  | none =>
    refine ⟨fun _ e he hlast => ?_, fun _ => rfl⟩
    cases (hspec e).mpr ⟨he, hlast⟩
  | some e =>
    have hiff : NamesFit d ↔ NamesFitFrom d (field d (e + 10) 2) (field d (e + 16) 4) := by
      obtain ⟨he, hlast⟩ := (hspec e).mp rfl
      refine ⟨fun h => h e he hlast, fun h e' he' hlast' => ?_⟩
      cases (hspec e').mpr ⟨he', hlast'⟩
      exact h
    rw [hiff, ← readDirectory_isSome]
    simp only [u16?_eq, u32?_eq, bind_eq_bind, bind_some]
    cases readDirectory d (field d (e + 10) 2) (field d (e + 16) 4) <;> simp

theorem extract_isSome (zip : ZipReader) (name : String) :
    (zip.extract inflater canon name).isSome := by
  rw [ZipReader.extract]
  split
  case h_1 => rfl
  case h_2 e _ =>
    simp only [u16?_eq, u32?_eq, bind_eq_bind, bind_some]
    split
    · split
      case isTrue hfits =>
        obtain ⟨comp, hcomp⟩ :=
          isSome_iff_exists.mp ((slice?_isSome _ (Nat.le_add_right _ e.compSize)).mpr hfits)
        rw [hcomp, bind_some]
        split <;> rfl
      case isFalse => rfl
    · rfl

/-! ### What the directory gives -/

section Archive

def text (m : Member Deflates) : String := (utf8Text? m.name).getD ""

def entryOf (m : Member Deflates) : Entry :=
  ⟨text m, m.method, m.packed.length, m.content.length, m.offset⟩

variable {m : Member Deflates}

theorem readDirectory_step {pre rest : List UInt8} (hd : d = pre ++ (m.centralRecord ++ rest))
    (n : ℕ) :
    readDirectory d (n + 1) pre.length =
      (readDirectory d n (pre ++ m.centralRecord).length).map (entryOf m :: ·) := by
  have hd' : d = pre ++ (encode m.centralFields ++ (m.name ++ (m.extra ++ m.comment) ++ rest)) := by
    rw [hd, Member.centralRecord, append_assoc]
  have hlen : pre.length + 46 ≤ d.length := by
    rw [hd, length_append, length_append, m.length_centralRecord]
    omega
  have hsignature : field d pre.length 4 = 0x02014b50 :=
    field_at 0 hd' rfl rfl (by decide)
  have hmethod : field d (pre.length + 10) 2 = m.method := field_at 2 hd' rfl rfl m.method_lt
  have hcomp : field d (pre.length + 20) 4 = m.packed.length := field_at 4 hd' rfl rfl m.packed_lt
  have huncomp : field d (pre.length + 24) 4 = m.content.length :=
    field_at 5 hd' rfl rfl m.content_lt
  have hname : field d (pre.length + 28) 2 = m.name.length := field_at 6 hd' rfl rfl m.name_lt
  have hextra : field d (pre.length + 30) 2 = m.extra.length := field_at 7 hd' rfl rfl m.extra_lt
  have hcomment : field d (pre.length + 32) 2 = m.comment.length :=
    field_at 8 hd' rfl rfl m.comment_lt
  have hoffset : field d (pre.length + 42) 4 = m.offset := field_at 10 hd' rfl rfl m.offset_lt
  have hnext : pre.length + (46 + m.name.length + m.extra.length + m.comment.length) =
      (pre ++ m.centralRecord).length := by
    rw [length_append, m.length_centralRecord]
  have hslice : slice? d (pre.length + 46) (pre.length + 46 + m.name.length) = some m.name := by
    refine slice?_eq (pre ++ encode m.centralFields) m.name (m.extra ++ m.comment ++ rest)
      ?_ ?_ rfl
    · simp only [hd', append_assoc]
    · rw [length_append, length_encode]
      rfl
  rw [readDirectory]
  simp only [u16?_eq, u32?_eq, bind_eq_bind, bind_some, hsignature, hmethod, hcomp,
    huncomp, hname, hextra, hcomment, hoffset, hslice, hnext]
  rw [if_pos ⟨hlen, trivial⟩]
  cases readDirectory d n (pre ++ m.centralRecord).length <;> rfl

theorem readDirectory_records (ms : List (Member Deflates)) {pre rest : List UInt8}
    (hd : d = pre ++ (ms.flatMap Member.centralRecord ++ rest)) :
    readDirectory d ms.length pre.length = some (ms.map entryOf) := by
  induction ms generalizing pre with
  | nil => rfl
  | cons m ms ih =>
    rw [flatMap_cons, append_assoc] at hd
    have hms : d = (pre ++ m.centralRecord) ++ (ms.flatMap Member.centralRecord ++ rest) := by
      rw [hd, append_assoc]
    rw [length_cons, readDirectory_step hd, ih hms]
    rfl

variable (A : Archive Deflates)

theorem init_bytes (hend : findEOCD A.bytes = some (some A.endOffset)) :
    ZipReader.init A.bytes = some (some ⟨A.bytes, A.members.map entryOf⟩) := by
  have hcount : field A.bytes (A.endOffset + 10) 2 = A.members.length :=
    field_at 3 A.bytes_eq_end A.length_beforeEnd rfl A.members_lt
  have hoffset : field A.bytes (A.endOffset + 16) 4 = A.body.length :=
    field_at 5 A.bytes_eq_end A.length_beforeEnd rfl A.body_lt
  have hentries : readDirectory A.bytes A.members.length A.body.length =
      some (A.members.map entryOf) := readDirectory_records A.members rfl
  rw [ZipReader.init, hend]
  simp only [u16?_eq, u32?_eq, bind_eq_bind, bind_some, hcount, hoffset, hentries]
  rfl

/-- What is extracted from the record of a member. -/
def contentOf (m : Member Deflates) : Option (List UInt8) :=
  if m.method = 0 then some m.packed else inflate inflater m.packed m.content.length

theorem extract_bytes {name : String}
    (hfind : (A.members.find? fun m => canon (text m) = canon name) = some m) :
    ZipReader.extract inflater canon ⟨A.bytes, A.members.map entryOf⟩ name =
      some (contentOf inflater m) := by
  obtain ⟨pre, rest, hd, hpre⟩ := A.exists_localRecord (mem_of_find?_eq_some hfind)
  rw [Member.localRecord] at hd
  have hd' : A.bytes = pre ++ (encode m.localFields ++
      (m.name ++ (m.localExtra ++ m.packed) ++ rest)) := by
    rw [hd, append_assoc]
  have hlen : A.bytes.length = m.offset + 30 + m.name.length + m.localExtra.length +
      m.packed.length + rest.length := by
    simp only [hd, length_append, length_encode, hpre]
    rw [show width m.localFields = 30 from rfl]
    omega
  have hsignature : field A.bytes m.offset 4 = 0x04034b50 := field_at 0 hd' hpre rfl (by decide)
  have hname : field A.bytes (m.offset + 26) 2 = m.name.length :=
    field_at 5 hd' hpre rfl m.name_lt
  have hextra : field A.bytes (m.offset + 28) 2 = m.localExtra.length :=
    field_at 6 hd' hpre rfl m.localExtra_lt
  have hslice : slice? A.bytes (m.offset + 30 + m.name.length + m.localExtra.length)
      (m.offset + 30 + m.name.length + m.localExtra.length + m.packed.length) =
        some m.packed := by
    refine slice?_eq (pre ++ (encode m.localFields ++ (m.name ++ m.localExtra))) m.packed rest
      ?_ ?_ rfl
    · simp only [hd, append_assoc]
    · simp only [length_append, length_encode, hpre]
      rw [show width m.localFields = 30 from rfl]
      omega
  have hentry : ((A.members.map entryOf).find? fun e => canon e.name = canon name) =
      some (entryOf m) := by
    rw [find?_map]
    exact congrArg _ hfind
  rw [ZipReader.extract, hentry]
  simp only [entryOf, u16?_eq, u32?_eq, bind_eq_bind, bind_some, hsignature, hname, hextra, hslice]
  rw [if_pos ⟨by omega, trivial⟩, if_pos (by omega), contentOf]
  exact (apply_ite some _ _ _).symm

/-- A member from which some contents are extracted: it holds them, and they are not empty
if it is deflated. Of other methods it is what the decoder makes of them. -/
def Yields (m : Member Deflates) (content : List UInt8) : Prop :=
  m.method = 0 ∧ m.content = content ∨
    m.method = 8 ∧ m.content = content ∧ content ≠ [] ∨
    m.method ≠ 0 ∧ m.method ≠ 8 ∧ inflate inflater m.packed m.content.length = some content

theorem contentOf_eq_some {content : List UInt8} :
    contentOf inflater m = some content ↔ Yields inflater m content := by
  rw [contentOf, Yields]
  by_cases h0 : m.method = 0
  · simp [h0, m.stored h0]
  · by_cases h8 : m.method = 8
    · have hdecoded : inflate inflater m.packed m.content.length =
          if 0 < m.content.length then some m.content else none := by
        rw [inflate, inflater.decodeBuffer_eq (m.deflated h8) (by omega)]
      rw [if_neg h0, hdecoded]
      by_cases hempty : m.content = []
      · rw [hempty]
        simp only [h8, length_nil, Nat.lt_irrefl, if_false]
        grind
      · rw [if_pos (length_pos_iff.mpr hempty), some.injEq]
        simp only [h8]
        grind
    · simp [h0, h8]

/-! ### Which archives are read -/

structure Lists (e : Entry) (m : Member Deflates) : Prop where
  name : utf8 e.name = m.name
  compMethod : e.compMethod = m.method
  compSize : e.compSize = m.packed.length
  uncompSize : e.uncompSize = m.content.length
  localHeaderOffset : e.localHeaderOffset = m.offset

/-- The archive is read by its own end record, its members are listed in order, and the
contents of each stored and each deflated one are extracted by its name. -/
def Reads : Prop :=
  findEOCD A.bytes = some (some A.endOffset) ∧
    ∃ zip, ZipReader.init A.bytes = some (some zip) ∧ List.Forall₂ Lists zip.entries A.members ∧
      ∀ m ∈ A.members, m.method = 0 ∨ m.method = 8 → ∀ name, utf8 name = m.name →
        zip.extract inflater canon name = some (some m.content)

structure Plain : Prop where
  /-- Behind the end record nothing looks like the head of one. -/
  last : ∀ i, A.endOffset < i → ¬ EndAt A.bytes i
  names : ∀ m ∈ A.members, ∃ name, utf8 name = m.name
  /-- The first member of the same name yields the contents. -/
  first : ∀ m ∈ A.members, m.method = 0 ∨ m.method = 8 → ∀ m',
    (A.members.find? fun m' => canon (text m') = canon (text m)) = some m' →
      Yields inflater m' m.content

theorem text_eq {name : String} (h : utf8 name = m.name) : text m = name := by
  rw [text, utf8Text?_eq_some.mpr h, getD_some]

theorem lists_entryOf (m : Member Deflates) : Lists (entryOf m) m ↔ ∃ name, utf8 name = m.name := by
  refine ⟨fun h => ⟨_, h.name⟩, ?_⟩
  rintro ⟨name, hname⟩
  refine ⟨?_, rfl, rfl, rfl, rfl⟩
  change utf8 (text m) = m.name
  rw [text_eq hname, hname]

theorem exists_first (hm : m ∈ A.members) :
    ∃ m', (A.members.find? fun m' => canon (text m') = canon (text m)) = some m' := by
  rw [← isSome_iff_exists, find?_isSome]
  exact ⟨m, hm, decide_eq_true rfl⟩

/-- Exactly the plain archives are read. -/
theorem reads_iff_plain : Reads inflater canon A ↔ Plain inflater canon A := by
  constructor
  · rintro ⟨hend, zip, hinit, hlists, hextract⟩
    rw [init_bytes A hend, some.injEq, some.injEq] at hinit
    subst hinit
    have hnames : ∀ m ∈ A.members, ∃ name, utf8 name = m.name := by
      intro m hm
      rw [forall₂_map_left_iff, forall₂_same] at hlists
      exact (lists_entryOf m).mp (hlists m hm)
    refine ⟨(findEOCD_bytes A).mp hend, hnames, fun m hm hmethod m' hfind => ?_⟩
    obtain ⟨name, hname⟩ := hnames m hm
    have hgot := hextract m hm hmethod name hname
    rw [← text_eq hname, extract_bytes inflater canon A hfind, some.injEq] at hgot
    exact (contentOf_eq_some inflater).mp hgot
  · intro h
    have hend := (findEOCD_bytes A).mpr h.last
    refine ⟨hend, _, init_bytes A hend, ?_, fun m hm hmethod name hname => ?_⟩
    · rw [forall₂_map_left_iff, forall₂_same]
      exact fun m hm => (lists_entryOf m).mpr (h.names m hm)
    · obtain ⟨m', hfind⟩ := exists_first canon A hm
      rw [← text_eq hname, extract_bytes inflater canon A hfind]
      exact congrArg some ((contentOf_eq_some inflater).mpr (h.first m hm hmethod m' hfind))

end Archive

/-! ### Two archives -/

/-- A deflate stream of one block that is stored as it is: the head of a last block, the
length, the length inverted, and the bytes. -/
def StoredBlock (content packed : List UInt8) : Prop :=
  content.length < 256 ^ 2 ∧
    packed = encode [(1, 1), (2, content.length), (2, 65535 - content.length)] ++ content

/-- A decoder of such streams. -/
def storedBlocks : Inflater StoredBlock where
  decodeBuffer cap packed :=
    if field packed 0 1 = 1 then (packed.drop 5).take (min cap (field packed 1 2)) else []
  decodeBuffer_eq := by
    rintro content _ ⟨hlen, rfl⟩ cap hcap
    let fs := [(1, 1), (2, content.length), (2, 65535 - content.length)]
    have hd : encode fs ++ content = [] ++ (encode fs ++ content) := rfl
    have hhead : field (encode fs ++ content) 0 1 = 1 := field_at 0 hd rfl rfl (by decide)
    have hlength : field (encode fs ++ content) 1 2 = content.length := field_at 1 hd rfl rfl hlen
    rw [if_pos hhead, hlength, Nat.min_eq_right hcap, drop_left' (by rw [length_encode]; rfl),
      take_length]

def storedMember : Member StoredBlock where
  name := [0x61]
  method := 0
  packed := [7]
  content := [7]
  offset := 0
  extra := []
  comment := []
  localExtra := []
  versionsAndFlags := 0
  timeAndCrc := 0
  diskAndAttributes := 0
  localVersionAndFlags := 0
  localTime := 0
  localCrcAndSizes := 0
  stored _ := rfl
  deflated := nofun
  name_lt := by decide
  method_lt := by decide
  packed_lt := by decide
  content_lt := by decide
  offset_lt := by decide
  extra_lt := by decide
  comment_lt := by decide
  localExtra_lt := by decide

/-- Its local record stands behind that of `storedMember`. -/
def deflatedMember : Member StoredBlock :=
  { storedMember with
    name := [0x62]
    method := 8
    packed := [1, 3, 0, 252, 255, 5, 6, 7]
    content := [5, 6, 7]
    offset := 32
    stored := nofun
    deflated := fun _ => ⟨by decide, by decide⟩
    name_lt := by decide
    method_lt := by decide
    packed_lt := by decide
    content_lt := by decide
    offset_lt := by decide }

def plainArchive : Archive StoredBlock where
  body := storedMember.localRecord ++ deflatedMember.localRecord
  members := [storedMember, deflatedMember]
  gap := []
  comment := []
  records := by
    intro m hm
    rw [mem_pair] at hm
    rcases hm with rfl | rfl
    · exact prefix_append _ _
    · decide
  members_lt := by decide
  body_lt := by decide
  comment_lt := by decide

/-- It is read with a decoder of stored blocks: both members are extracted. -/
theorem plainArchive_read : Reads storedBlocks id plainArchive := by
  have hstored : text storedMember = "a" := text_eq rfl
  have hdeflated : text deflatedMember = "b" := text_eq rfl
  refine (reads_iff_plain storedBlocks id plainArchive).mpr ⟨fun i hi hat => ?_, ?_, ?_⟩
  · have hlen := hat.1
    rw [plainArchive.length_bytes, show plainArchive.comment.length = 0 from rfl] at hlen
    omega
  · simp only [plainArchive, forall_mem_cons]
    exact ⟨⟨"a", rfl⟩, ⟨"b", rfl⟩, by simp⟩
  · simp only [plainArchive, forall_mem_cons, find?_cons, hstored, hdeflated]
    refine ⟨fun _ m' hm' => ?_, fun _ m' hm' => ?_, by simp⟩
    · cases hm'
      exact .inl ⟨rfl, rfl⟩
    · cases hm'
      exact .inr (.inl ⟨rfl, rfl, by decide⟩)

/-- Its comment looks like the end record of an empty archive. -/
def hidingArchive : Archive StoredBlock where
  body := storedMember.localRecord
  members := [storedMember]
  gap := []
  comment := endSignature ++ replicate 18 0
  records := by
    intro m hm
    rw [mem_singleton] at hm
    subst hm
    exact prefix_rfl
  members_lt := by decide
  body_lt := by decide
  comment_lt := by decide

/-- The reader lists nothing of it. -/
theorem comment_hides_members :
    ((ZipReader.init hidingArchive.bytes).bind id).map ZipReader.names = some [] ∧
      hidingArchive.members.map Member.name = [[0x61]] :=
  ⟨by decide +kernel, rfl⟩

end Bootbox.Host.Zip
