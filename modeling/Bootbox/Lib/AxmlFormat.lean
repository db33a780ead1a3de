import Bootbox.Lib.ByteRecord
import Bootbox.Lib.Unicode

/-!
The binary XML of Android: a header, a string pool, and a chunk for each tag. Names,
namespaces and texts are numbers of strings in the pool.

A pool is in UTF-8 or in UTF-16, each string with its length before it in one or two
bytes or units. A start tag says where its attributes begin and how long each is, which
leaves room for bytes that a reader of today does not know. What a document means is
the list of its elements (`Document.elements`).
-/

namespace Bootbox.Lib.AxmlFormat

open ByteMemory ByteRecord Unicode

/-! ### The string pool -/

inductive ByteLen (n : ℕ) : List UInt8 → Prop
  | short (h : n < 0x80) : ByteLen n [UInt8.ofNat n]
  | long (h : n < 0x8000) : ByteLen n [UInt8.ofNat (0x80 + n / 0x100), UInt8.ofNat (n % 0x100)]

inductive UnitLen (n : ℕ) : List UInt8 → Prop
  | short (h : n < 0x8000) : UnitLen n (encode [(2, n)])
  | long (h : n < 0x80000000) : UnitLen n (encode [(2, 0x8000 + n / 0x10000), (2, n % 0x10000)])

/-- The bytes of a string in a pool. In UTF-8 the number of its UTF-16 units comes first,
then that of its bytes. -/
inductive Stored (s : String) : Bool → List UInt8 → Prop
  | utf8 {units bytes : List UInt8} (hunits : ByteLen (utf16Units s.toList).length units)
      (hbytes : ByteLen (utf8 s).length bytes) :
      Stored s true (units ++ (bytes ++ (utf8 s ++ [0])))
  | utf16 {units : List UInt8} (hunits : UnitLen (utf16Units s.toList).length units) :
      Stored s false (units ++ (utf16 s ++ [0, 0]))

theorem Stored.ne_nil {s : String} {isUTF8 : Bool} {bs : List UInt8} (h : Stored s isUTF8 bs) :
    bs ≠ [] := by
  cases h with
  | utf8 hunits hbytes => simp
  | utf16 hunits => simp

/-- A string pool: its strings and where each stands. Strings may be shared, and anything
may stand between them. -/
structure Pool where
  entries : List (String × ℕ)
  flags : ℕ
  styleCount : ℕ
  stylesStart : ℕ
  /-- The number of bytes between the offsets and the strings, and what follows the offsets. -/
  between : ℕ
  body : List UInt8
  stored : ∀ e ∈ entries, ∃ bs, Stored e.1 (flags &&& 0x100 ≠ 0) bs ∧
    bs <+: body.drop (between + e.2)
  offset_lt : ∀ e ∈ entries, e.2 < 256 ^ 4
  flags_lt : flags < 256 ^ 4
  start_lt : 28 + entries.length * 4 + between < 256 ^ 4
  size_lt : 28 + entries.length * 4 + body.length < 256 ^ 4

namespace Pool

variable (p : Pool)

def strings : List String := p.entries.map Prod.fst

def string (i : ℕ) : String := p.strings[i]?.getD ""

def header : List (ℕ × ℕ) :=
  [(2, 0x0001), (2, 28), (4, 28 + p.entries.length * 4 + p.body.length), (4, p.entries.length),
    (4, p.styleCount), (4, p.flags), (4, 28 + p.entries.length * 4 + p.between),
    (4, p.stylesStart)]

def offsets : List (ℕ × ℕ) := (p.entries.map Prod.snd).map (4, ·)

def bytes : List UInt8 := encode p.header ++ (encode p.offsets ++ p.body)

theorem width_offsets : width p.offsets = p.entries.length * 4 := by
  rw [offsets, width_map, List.length_map]

theorem length_bytes : p.bytes.length = 28 + p.entries.length * 4 + p.body.length := by
  rw [bytes, List.length_append, List.length_append, length_encode, length_encode,
    p.width_offsets, show width p.header = 28 from rfl, Nat.add_assoc]

end Pool

/-! ### Tags -/

/-- The value of an attribute: a text, with a typed value of any kind beside it, or an
integer of a decimal or another kind. -/
inductive Value
  | text (index typed data : ℕ)
  | int (kind : ℕ) (n : ℤ)

def Value.raw : Value → ℕ
  | .text index _ _ => index
  | .int _ _ => 0xFFFFFFFF

def Value.typed : Value → ℕ
  | .text _ typed _ => typed
  | .int kind _ => 8 + kind * 2 ^ 24

def Value.data : Value → ℕ
  | .text _ _ data => data
  | .int _ n => (n % 2 ^ 32).toNat

structure Attribute where
  ns : Option ℕ
  name : ℕ
  value : Value
  /-- What follows the fields known today. -/
  filler : List UInt8

def reference (i : Option ℕ) : ℕ := i.getD 0xFFFFFFFF

def Attribute.fields (a : Attribute) : List (ℕ × ℕ) :=
  [(4, reference a.ns), (4, a.name), (4, a.value.raw), (4, a.value.typed), (4, a.value.data)]

def Attribute.bytes (a : Attribute) : List UInt8 := encode a.fields ++ a.filler

structure Element where
  ns : Option ℕ
  name : ℕ
  attributes : List Attribute
  /-- Where the attributes begin, from the sixteenth byte on, and how long each is. -/
  attributeStart : ℕ
  attributeSize : ℕ
  gap : List UInt8
  lineNumber : ℕ
  comment : ℕ
  specialIndices : ℕ

namespace Element

variable (e : Element)

def size : ℕ := 36 + e.gap.length + (e.attributes.map fun a => a.bytes.length).sum

def header : List (ℕ × ℕ) :=
  [(2, 0x0102), (2, 16), (4, e.size), (4, e.lineNumber), (4, e.comment), (4, reference e.ns),
    (4, e.name), (2, e.attributeStart), (2, e.attributeSize), (2, e.attributes.length),
    (6, e.specialIndices)]

def bytes : List UInt8 :=
  encode e.header ++ (e.gap ++ e.attributes.flatMap Attribute.bytes)

theorem length_bytes : e.bytes.length = e.size := by
  rw [bytes, List.length_append, List.length_append, length_encode, List.length_flatMap,
    show width e.header = 36 from rfl, size, Nat.add_assoc]

end Element

/-- A chunk behind the string pool: a start tag, or another one, of which only the type
and the size matter. -/
inductive Chunk
  | element (e : Element)
  | other (type headerSize : ℕ) (body : List UInt8)

namespace Chunk

def bytes : Chunk → List UInt8
  | element e => e.bytes
  | other type headerSize body =>
    encode [(2, type), (2, headerSize), (4, 8 + body.length)] ++ body

def element? : Chunk → Option Element
  | element e => some e
  | other .. => none

end Chunk

/-! ### Documents -/

inductive XValue
  | text (s : String)
  | int (n : ℤ)

structure XAttribute where
  ns : Option String
  name : String
  value : XValue

structure XElement where
  ns : Option String
  name : String
  attributes : List XAttribute

def Value.resolve (p : Pool) : Value → XValue
  | .text index _ _ => .text (p.string index)
  | .int _ n => .int n

def Attribute.resolve (p : Pool) (a : Attribute) : XAttribute :=
  ⟨a.ns.map p.string, p.string a.name, a.value.resolve p⟩

def Element.resolve (p : Pool) (e : Element) : XElement :=
  ⟨e.ns.map p.string, p.string e.name, e.attributes.map (Attribute.resolve p)⟩

/-- The numbers of an attribute are in range, and its length is the one said. -/
structure Attribute.Fits (p : Pool) (size : ℕ) (a : Attribute) : Prop where
  ns : ∀ i ∈ a.ns, i < p.entries.length
  name : a.name < p.entries.length
  text : ∀ index typed data, a.value = .text index typed data →
    index < p.entries.length ∧ data < 256 ^ 4
  int : ∀ kind n, a.value = .int kind n → kind < 256 ∧ -2 ^ 31 ≤ n ∧ n < 2 ^ 31
  filler : a.filler.length + 20 = size

structure Element.Fits (p : Pool) (e : Element) : Prop where
  ns : ∀ i ∈ e.ns, i < p.entries.length
  name : e.name < p.entries.length
  attributes : ∀ a ∈ e.attributes, a.Fits p e.attributeSize
  gap : e.gap.length + 20 = e.attributeStart
  count_lt : e.attributes.length < 256 ^ 2
  start_lt : e.attributeStart < 256 ^ 2
  attributeSize_lt : e.attributeSize < 256 ^ 2
  size_lt : e.size < 256 ^ 4
  /-- No two attributes have one name. -/
  nodup : ((e.resolve p).attributes.map fun a => (a.ns, a.name)).Nodup

def Chunk.Fits (p : Pool) : Chunk → Prop
  | element e => e.Fits p
  | other type _ body => type < 256 ^ 2 ∧ type ≠ 0x0001 ∧ type ≠ 0x0102 ∧ 8 + body.length < 256 ^ 4

structure Document where
  pool : Pool
  chunks : List Chunk
  fits : ∀ c ∈ chunks, c.Fits pool

namespace Document

variable (D : Document)

def content : List UInt8 := D.pool.bytes ++ D.chunks.flatMap Chunk.bytes

def header : List (ℕ × ℕ) := [(2, 0x0003), (2, 8), (4, 8 + D.content.length)]

def bytes : List UInt8 := encode D.header ++ D.content

def tags : List Element := D.chunks.filterMap Chunk.element?

def elements : List XElement := D.tags.map (Element.resolve D.pool)

end Document

end Bootbox.Lib.AxmlFormat
