import Bootbox.Lib.ByteRecord

/-!
The ZIP file format: local records with the contents, the central directory that lists
them, and the end record behind which a comment of any bytes may stand.

Fields of the records that say nothing about where things are or how they are packed
hold any value here, and so does every byte of the body that no local record covers.
-/

namespace Bootbox.Lib.ZipFormat

open ByteRecord List

/-- A member of an archive. `Deflates content packed` is said by the deflate format. -/
structure Member (Deflates : List UInt8 → List UInt8 → Prop) where
  name : List UInt8
  method : ℕ
  packed : List UInt8
  content : List UInt8
  /-- Where its local record stands. -/
  offset : ℕ
  extra : List UInt8
  comment : List UInt8
  /-- The extra field of the local record, which may differ. -/
  localExtra : List UInt8
  versionsAndFlags : ℕ
  timeAndCrc : ℕ
  diskAndAttributes : ℕ
  localVersionAndFlags : ℕ
  localTime : ℕ
  /-- Checksum and sizes of the local record, zeros if they follow the contents. -/
  localCrcAndSizes : ℕ
  stored : method = 0 → packed = content
  deflated : method = 8 → Deflates content packed
  name_lt : name.length < 256 ^ 2
  method_lt : method < 256 ^ 2
  packed_lt : packed.length < 256 ^ 4
  content_lt : content.length < 256 ^ 4
  offset_lt : offset < 256 ^ 4
  extra_lt : extra.length < 256 ^ 2
  comment_lt : comment.length < 256 ^ 2
  localExtra_lt : localExtra.length < 256 ^ 2

def endSignature : List UInt8 := [0x50, 0x4b, 0x05, 0x06]

section Records

variable {Deflates : List UInt8 → List UInt8 → Prop} (m : Member Deflates)

def Member.localFields : List (ℕ × ℕ) :=
  [(4, 0x04034b50), (4, m.localVersionAndFlags), (2, m.method), (4, m.localTime),
    (12, m.localCrcAndSizes), (2, m.name.length), (2, m.localExtra.length)]

def Member.localRecord : List UInt8 :=
  encode m.localFields ++ (m.name ++ (m.localExtra ++ m.packed))

def Member.centralFields : List (ℕ × ℕ) :=
  [(4, 0x02014b50), (6, m.versionsAndFlags), (2, m.method), (8, m.timeAndCrc),
    (4, m.packed.length), (4, m.content.length), (2, m.name.length), (2, m.extra.length),
    (2, m.comment.length), (8, m.diskAndAttributes), (4, m.offset)]

def Member.centralRecord : List UInt8 :=
  encode m.centralFields ++ (m.name ++ (m.extra ++ m.comment))

theorem Member.length_centralRecord :
    m.centralRecord.length = 46 + m.name.length + m.extra.length + m.comment.length := by
  rw [centralRecord, length_append, length_append, length_append, length_encode,
    show width m.centralFields = 46 from rfl]
  omega

end Records

/-- An archive. The local records stand in its body in any order and with anything
between them, and something may stand between the directory and the end record. -/
structure Archive (Deflates : List UInt8 → List UInt8 → Prop) where
  body : List UInt8
  members : List (Member Deflates)
  gap : List UInt8
  comment : List UInt8
  records : ∀ m ∈ members, m.localRecord <+: body.drop m.offset
  members_lt : members.length < 256 ^ 2
  body_lt : body.length < 256 ^ 4
  comment_lt : comment.length < 256 ^ 2

namespace Archive

variable {Deflates : List UInt8 → List UInt8 → Prop} (A : Archive Deflates)

def directory : List UInt8 := A.members.flatMap Member.centralRecord

/-- The end record: two disk numbers, the number of members on this disk and in all, the
size of the directory and where it begins, the length of the comment. -/
def endFields : List (ℕ × ℕ) :=
  [(4, 0x06054b50), (4, 0), (2, A.members.length), (2, A.members.length),
    (4, A.directory.length), (4, A.body.length), (2, A.comment.length)]

def bytes : List UInt8 :=
  A.body ++ (A.directory ++ (A.gap ++ (encode A.endFields ++ A.comment)))

def endOffset : ℕ := A.body.length + A.directory.length + A.gap.length

theorem length_bytes : A.bytes.length = A.endOffset + 22 + A.comment.length := by
  simp only [bytes, endOffset, length_append, length_encode]
  rw [show width A.endFields = 22 from rfl]
  omega

theorem bytes_eq_end :
    A.bytes = (A.body ++ (A.directory ++ A.gap)) ++ (encode A.endFields ++ A.comment) := by
  rw [bytes, append_assoc, append_assoc]

theorem length_beforeEnd : (A.body ++ (A.directory ++ A.gap)).length = A.endOffset := by
  rw [length_append, length_append, endOffset]
  omega

theorem endSignature_at : endSignature <+: A.bytes.drop A.endOffset := by
  rw [A.bytes_eq_end, ← A.length_beforeEnd, drop_left, endFields, encode,
    flatMap_cons, append_assoc]
  exact prefix_append _ _

theorem exists_localRecord {m : Member Deflates} (hm : m ∈ A.members) :
    ∃ pre rest, A.bytes = pre ++ (m.localRecord ++ rest) ∧ pre.length = m.offset := by
  have hne : m.localRecord ≠ [] := by
    rw [← length_pos_iff, Member.localRecord, length_append, length_encode,
      show width m.localFields = 30 from rfl]
    omega
  obtain ⟨pre, rest, hbody, hpre⟩ := exists_append_of_drop (A.records m hm) hne
  refine ⟨pre, rest ++ (A.directory ++ (A.gap ++ (encode A.endFields ++ A.comment))), ?_, hpre⟩
  rw [bytes, hbody]
  simp only [append_assoc]

end Archive

end Bootbox.Lib.ZipFormat
