import Bootbox.Lib.ByteRecord
import Bootbox.Lib.Unicode

/-!
The parser for the binary XML of Android manifests (`AXMLParser`). It walks the chunks of
the file; a string pool replaces the strings known so far, and a start tag is looked at
for the few attributes the report shows.

As in the ZIP reader, `none` is a read outside the data, which stops the app. Most reads
are checked first. Those that are not are the length prefixes of the strings of a pool:
the parser returns exactly if they all stand inside the data (`parse_isSome`).
-/

namespace Bootbox.Host.Axml

open Lib.ByteRecord Lib.Unicode List Option

/-! ### The parser -/

structure Result where
  package : String := ""
  versionName : String := ""
  versionCode : String := ""
  minSdk : String := ""
  targetSdk : String := ""
  label : String := ""
  permissions : List String := []
  activities : List String := []
  deriving DecidableEq

/-- A length of one or two bytes, and the position after it. -/
def skipLen (d : List UInt8) (o : ℕ) : Option (ℕ × ℕ) := do
  let len ← d[o]?
  if len.toNat &&& 0x80 ≠ 0 then
    let low ← d[o + 1]?
    return ((len.toNat &&& 0x7f) <<< 8 ||| low.toNat, o + 2)
  else return (len.toNat, o + 1)

def unitLen (d : List UInt8) (p : ℕ) : Option (ℕ × ℕ) := do
  let b₀ ← d[p]?
  let b₁ ← d[p + 1]?
  let len := b₀.toNat ||| b₁.toNat <<< 8
  if len &&& 0x8000 ≠ 0 then
    let b₂ ← d[p + 2]?
    let b₃ ← d[p + 3]?
    return ((len &&& 0x7fff) <<< 16 ||| (b₂.toNat ||| b₃.toNat <<< 8), p + 4)
  else return (len, p + 2)

def textAt (decode : List UInt8 → Option String) (d : List UInt8) (q byteLen : ℕ) :
    Option String :=
  if q + byteLen ≤ d.length then do
    let bytes ← slice? d q (q + byteLen)
    return (decode bytes).getD ""
  else some ""

/-- A string of a pool: in UTF-8 the number of characters stands before that of bytes. -/
def stringAt (isUTF8 : Bool) (d : List UInt8) (p : ℕ) : Option String :=
  if isUTF8 then do
    let (_, q) ← skipLen d p
    let (byteLen, q) ← skipLen d q
    textAt utf8Text? d q byteLen
  else do
    let (len, q) ← unitLen d p
    textAt utf16Text? d q (len * 2)

def parseStringPool (d : List UInt8) (start : ℕ) : Option (List String) := do
  let stringCount ← u32? d (start + 8)
  let flags ← u32? d (start + 16)
  let off ← u32? d (start + 20)
  let stringsStart := start + off
  let offs ← (range stringCount).mapM fun i => u32? d (start + 28 + i * 4)
  offs.mapM fun off => stringAt (flags &&& 0x100 ≠ 0) d (stringsStart + off)

def str (strings : List String) (idx : ℕ) : String := strings[idx]?.getD ""

/-- The attributes of a tag, the newest first: each name with its text and its number. -/
abbrev Attrs : Type := List (String × String × ℕ)

def readAttrs (d : List UInt8) (strings : List String) (base : ℕ) : ℕ → ℕ → Attrs → Option Attrs
  | 0, _, attrs => some attrs
  | n + 1, i, attrs =>
    let a := base + i * 20
    if a + 20 ≤ d.length then do
      let nameI ← u32? d (a + 4)
      let rawValue ← u32? d (a + 8)
      let typedVal ← u32? d (a + 16)
      let sval := if rawValue ≠ 0xFFFFFFFF then str strings rawValue else ""
      readAttrs d strings base n (i + 1) ((str strings nameI, sval, typedVal) :: attrs)
    else some attrs

def Attrs.s (attrs : Attrs) (k : String) : String := ((attrs.lookup k).map Prod.fst).getD ""

def Attrs.iv (attrs : Attrs) (k : String) : String :=
  ((attrs.lookup k).map fun v => if v.1.isEmpty then toString v.2 else v.1).getD ""

def enter (tag : String) (attrs : Attrs) (r : Result) : Result :=
  if tag = "manifest" then
    { r with
      package := if r.package.isEmpty then attrs.s "package" else r.package
      versionName := attrs.s "versionName"
      versionCode := attrs.iv "versionCode" }
  else if tag = "uses-sdk" then
    { r with minSdk := attrs.iv "minSdkVersion", targetSdk := attrs.iv "targetSdkVersion" }
  else if tag = "uses-permission" then
    let p := attrs.s "name"
    if p.isEmpty then r else { r with permissions := r.permissions ++ [p] }
  else if tag = "application" then
    let l := attrs.s "label"
    if l.isEmpty then r else { r with label := l }
  else if tag = "activity" then
    let a := attrs.s "name"
    if a.isEmpty then r else { r with activities := r.activities ++ [a] }
  else r

/-- The attributes are taken to begin 36 bytes into the chunk and to be 20 bytes long;
where the chunk says they begin, and how long it says they are, is not used. -/
def parseStartTag (d : List UInt8) (strings : List String) (start : ℕ) (r : Result) :
    Option Result := do
  let nameIdx ← u32? d (start + 20)
  let attrCount ← u16? d (start + 28)
  let attrs ← readAttrs d strings (start + 36) attrCount 0 []
  return enter (str strings nameIdx) attrs r

def parseChunk (d : List UInt8) (pos type : ℕ) (strings : List String) (r : Result) :
    Option (List String × Result) :=
  if type = 0x0001 then (parseStringPool d pos).map (·, r)
  else if type = 0x0102 then (parseStartTag d strings pos r).map (strings, ·)
  else some (strings, r)

def parseChunks (d : List UInt8) (pos : ℕ) (strings : List String) (r : Result) : Option Result :=
  if _h : pos + 8 ≤ d.length then do
    let type ← u16? d pos
    let size ← u32? d (pos + 4)
    if _hsize : size ≤ 0 then return r
    else
      let (strings, r) ← parseChunk d pos type strings r
      parseChunks d (pos + size) strings r
  else some r
termination_by d.length - pos

def parse (d : List UInt8) : Option Result := do
  let type ← u16? d 0
  if 8 < d.length ∧ type = 0x0003 then parseChunks d 8 [] {} else return {}

/-! ### Reads of the string pool -/

/-- A length of one or two bytes stands inside the data. -/
def LenFits (d : List UInt8) (p : ℕ) : Prop :=
  p < d.length ∧ (0x80 ≤ (d.getD p 0).toNat → p + 1 < d.length)

def lenSize (d : List UInt8) (p : ℕ) : ℕ := if 0x80 ≤ (d.getD p 0).toNat then 2 else 1

/-- The length prefixes of a string stand inside the data. -/
def PrefixFits (isUTF8 : Bool) (d : List UInt8) (p : ℕ) : Prop :=
  if isUTF8 then LenFits d p ∧ LenFits d (p + lenSize d p)
  else p + 1 < d.length ∧ (0x80 ≤ (d.getD (p + 1) 0).toNat → p + 3 < d.length)

def PoolFits (d : List UInt8) (start : ℕ) : Prop :=
  ∀ i < field d (start + 8) 4, PrefixFits (field d (start + 16) 4 &&& 0x100 ≠ 0) d
    (start + field d (start + 20) 4 + field d (start + 28 + i * 4) 4)

theorem and_0x80 (b : UInt8) : b.toNat &&& 0x80 ≠ 0 ↔ 0x80 ≤ b.toNat :=
  and_two_pow_ne_zero (k := 7) b.toNat_lt

theorem and_0x8000 (b₀ b₁ : UInt8) :
    (b₀.toNat ||| b₁.toNat <<< 8) &&& 0x8000 ≠ 0 ↔ 0x80 ≤ b₁.toNat := by
  have h₀ : b₀.toNat < 2 ^ 8 := b₀.toNat_lt
  have h₁ : b₁.toNat < 2 ^ 8 := b₁.toNat_lt
  rw [or_shiftLeft _ h₀]
  refine (and_two_pow_ne_zero (k := 15) (by omega)).trans ?_
  omega

theorem skipLen_spec (d : List UInt8) (p : ℕ) :
    (LenFits d p → ∃ len, skipLen d p = some (len, p + lenSize d p)) ∧
      (¬ LenFits d p → skipLen d p = none) := by
  rw [skipLen, LenFits, lenSize, List.getD_eq_getElem?_getD]
  cases hb : d[p]? with
  | none =>
    have hp := List.getElem?_eq_none_iff.mp hb
    exact ⟨fun h => absurd h.1 (by omega), fun _ => rfl⟩
  | some b =>
    obtain ⟨hp, -⟩ := List.getElem?_eq_some_iff.mp hb
    simp only [Option.getD_some, Option.bind_eq_bind, Option.bind_some, and_0x80]
    by_cases hlong : 0x80 ≤ b.toNat
    · rw [if_pos hlong, if_pos hlong]
      cases hb' : d[p + 1]? with
      | none =>
        have hp' := List.getElem?_eq_none_iff.mp hb'
        exact ⟨fun h => absurd (h.2 hlong) (by omega), fun _ => rfl⟩
      | some b' =>
        obtain ⟨hp', -⟩ := List.getElem?_eq_some_iff.mp hb'
        exact ⟨fun _ => ⟨_, rfl⟩, fun h => absurd ⟨hp, fun _ => hp'⟩ h⟩
    · rw [if_neg hlong, if_neg hlong]
      exact ⟨fun _ => ⟨_, rfl⟩, fun h => absurd ⟨hp, fun h' => absurd h' hlong⟩ h⟩

theorem unitLen_spec (d : List UInt8) (p : ℕ) :
    (unitLen d p).isSome ↔
      p + 1 < d.length ∧ (0x80 ≤ (d.getD (p + 1) 0).toNat → p + 3 < d.length) := by
  rw [unitLen, getD_eq_getElem?_getD]
  by_cases hp : p + 1 < d.length
  · rw [getElem?_eq_getElem hp, getElem?_eq_getElem (show p < d.length by omega)]
    simp only [getD_some, bind_eq_bind, bind_some, and_0x8000, hp, true_and]
    by_cases hlong : 0x80 ≤ d[p + 1].toNat
    · simp only [hlong, if_true, true_imp_iff]
      by_cases hp' : p + 3 < d.length
      · rw [getElem?_eq_getElem hp', getElem?_eq_getElem (show p + 2 < d.length by omega)]
        exact ⟨fun _ => hp', fun _ => rfl⟩
      · rw [getElem?_eq_none (show d.length ≤ p + 3 by omega)]
        cases d[p + 2]? <;> simp [hp']
    · rw [if_neg hlong]
      exact ⟨fun _ h => absurd h hlong, fun _ => rfl⟩
  · rw [getElem?_eq_none (show d.length ≤ p + 1 by omega)]
    cases d[p]? <;> simp [hp]

theorem textAt_isSome (decode : List UInt8 → Option String) (d : List UInt8) (q n : ℕ) :
    (textAt decode d q n).isSome := by
  rw [textAt]
  split
  case isTrue h =>
    obtain ⟨bytes, hbytes⟩ :=
      isSome_iff_exists.mp ((slice?_isSome d (Nat.le_add_right q n)).mpr h)
    rw [hbytes]
    rfl
  case isFalse => rfl

theorem stringAt_isSome (isUTF8 : Bool) (d : List UInt8) (p : ℕ) :
    (stringAt isUTF8 d p).isSome ↔ PrefixFits isUTF8 d p := by
  cases isUTF8 with
  | true =>
    change ((skipLen d p).bind fun x => (skipLen d x.2).bind fun y =>
      textAt utf8Text? d y.2 y.1).isSome ↔ LenFits d p ∧ LenFits d (p + lenSize d p)
    by_cases hp : LenFits d p
    · obtain ⟨len, hlen⟩ := (skipLen_spec d p).1 hp
      rw [hlen, bind_some]
      by_cases hq : LenFits d (p + lenSize d p)
      · obtain ⟨byteLen, hbyteLen⟩ := (skipLen_spec d _).1 hq
        rw [hbyteLen, bind_some]
        exact ⟨fun _ => ⟨hp, hq⟩, fun _ => textAt_isSome ..⟩
      · rw [(skipLen_spec d _).2 hq]
        exact ⟨nofun, fun h => absurd h.2 hq⟩
    · rw [(skipLen_spec d p).2 hp]
      exact ⟨nofun, fun h => absurd h.1 hp⟩
  | false =>
    change ((unitLen d p).bind fun x => textAt utf16Text? d x.2 (x.1 * 2)).isSome ↔ _
    refine Iff.trans ?_ (unitLen_spec d p)
    cases unitLen d p with
    | none => exact Iff.rfl
    | some x => exact ⟨fun _ => rfl, fun _ => textAt_isSome ..⟩

theorem mapM_isSome {α β : Type*} (f : α → Option β) (xs : List α) :
    (xs.mapM f).isSome ↔ ∀ x ∈ xs, (f x).isSome := by
  induction xs with
  | nil => simp
  | cons x xs ih =>
    rw [mapM_cons, forall_mem_cons, ← ih]
    cases f x with
    | none => simp
    | some y => cases xs.mapM f <;> simp

theorem parseStringPool_eq (d : List UInt8) (start : ℕ) : parseStringPool d start =
    (range (field d (start + 8) 4)).mapM fun i =>
      stringAt (field d (start + 16) 4 &&& 0x100 ≠ 0) d
        (start + field d (start + 20) 4 + field d (start + 28 + i * 4) 4) := by
  have hoffs : ((range (field d (start + 8) 4)).mapM fun i => u32? d (start + 28 + i * 4)) =
      some ((range (field d (start + 8) 4)).map fun i => field d (start + 28 + i * 4) 4) := by
    simp only [u32?_eq]
    exact mapM_pure
  rw [parseStringPool]
  simp only [u32?_eq, bind_eq_bind, bind_some] at hoffs ⊢
  rw [hoffs, bind_some, mapM_map]
  rfl

/-! ### The other reads -/

theorem readAttrs_isSome (d : List UInt8) (strings : List String) (base n i : ℕ) (attrs : Attrs) :
    (readAttrs d strings base n i attrs).isSome := by
  induction n generalizing i attrs with
  | zero => rfl
  | succ n ih =>
    rw [readAttrs]
    simp only [u32?_eq, bind_eq_bind, bind_some]
    split
    · exact ih ..
    · rfl

theorem parseStartTag_isSome (d : List UInt8) (strings : List String) (start : ℕ) (r : Result) :
    (parseStartTag d strings start r).isSome := by
  rw [parseStartTag]
  simp only [u16?_eq, u32?_eq, bind_eq_bind, bind_some]
  obtain ⟨attrs, hattrs⟩ :=
    isSome_iff_exists.mp (readAttrs_isSome d strings (start + 36) (field d (start + 28) 2) 0 [])
  rw [hattrs]
  rfl

theorem parseChunk_isSome (d : List UInt8) (pos type : ℕ) (strings : List String) (r : Result) :
    (parseChunk d pos type strings r).isSome ↔ (type = 0x0001 → PoolFits d pos) := by
  rw [parseChunk]
  split
  case isTrue h =>
    rw [isSome_map, parseStringPool_eq, mapM_isSome, PoolFits]
    simp only [mem_range, stringAt_isSome]
    exact ⟨fun hfits _ => hfits, fun hfits => hfits h⟩
  case isFalse h =>
    refine ⟨fun _ h' => absurd h' h, fun _ => ?_⟩
    split
    · rw [isSome_map]
      exact parseStartTag_isSome ..
    · rfl

/-- The positions of the chunks from a position on: each leads to the next by its size. -/
inductive ChunkFrom (d : List UInt8) : ℕ → ℕ → Prop
  | here {pos : ℕ} (hpos : pos + 8 ≤ d.length) (hsize : 0 < field d (pos + 4) 4) :
      ChunkFrom d pos pos
  | next {pos p : ℕ} (hpos : pos + 8 ≤ d.length) (hsize : 0 < field d (pos + 4) 4)
      (h : ChunkFrom d (pos + field d (pos + 4) 4) p) : ChunkFrom d pos p

/-- Every string pool among the chunks from a position on is sound. -/
def PoolsFitFrom (d : List UInt8) (pos : ℕ) : Prop :=
  ∀ p, ChunkFrom d pos p → field d p 2 = 0x0001 → PoolFits d p

theorem poolsFitFrom_step {d : List UInt8} {pos : ℕ} (hpos : pos + 8 ≤ d.length)
    (hsize : 0 < field d (pos + 4) 4) : PoolsFitFrom d pos ↔
      (field d pos 2 = 0x0001 → PoolFits d pos) ∧ PoolsFitFrom d (pos + field d (pos + 4) 4) := by
  constructor
  · exact fun h => ⟨h pos (.here hpos hsize), fun p hp => h p (.next hpos hsize hp)⟩
  · rintro ⟨hhere, hnext⟩ p hp
    cases hp with
    | here => exact hhere
    | next _ _ hp => exact hnext p hp

theorem parseChunks_isSome (d : List UInt8) (pos : ℕ) (strings : List String) (r : Result) :
    (parseChunks d pos strings r).isSome ↔ PoolsFitFrom d pos := by
  induction hn : d.length - pos using Nat.strong_induction_on generalizing pos strings r with
  | _ n ih =>
    rw [parseChunks]
    simp only [u16?_eq, u32?_eq, bind_eq_bind, bind_some]
    split
    case isFalse hpos =>
      refine ⟨fun _ p hp => ?_, fun _ => rfl⟩
      cases hp <;> exact absurd ‹_› hpos
    case isTrue hpos =>
      split
      case isTrue hsize =>
        refine ⟨fun _ p hp => ?_, fun _ => rfl⟩
        cases hp <;> omega
      case isFalse hsize =>
        rw [poolsFitFrom_step hpos (by omega),
          ← parseChunk_isSome d pos (field d pos 2) strings r]
        cases hchunk : parseChunk d pos (field d pos 2) strings r with
        | none => simp
        | some x =>
          simp only [isSome_some, true_and]
          exact ih _ (by omega) _ _ _ rfl

/-- The strings of every pool of the file have their length prefixes inside it. -/
def PoolsFit (d : List UInt8) : Prop := 8 < d.length ∧ field d 0 2 = 0x0003 → PoolsFitFrom d 8

/-- The parser returns exactly if the prefixes of all strings stand inside the data. -/
theorem parse_isSome (d : List UInt8) : (parse d).isSome ↔ PoolsFit d := by
  rw [parse, PoolsFit]
  simp only [u16?_eq, bind_eq_bind, bind_some]
  split
  case isTrue h =>
    rw [parseChunks_isSome]
    exact ⟨fun hfits _ => hfits, fun hfits => hfits h⟩
  case isFalse h => exact ⟨fun _ h' => absurd h' h, fun _ => rfl⟩

end Bootbox.Host.Axml
