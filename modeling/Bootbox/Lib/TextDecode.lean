import Mathlib.Data.List.Basic

/-!
Decoding bytes to a JavaScript string, that is to UTF-16 code units, the way a
browser decodes a response body: a leading byte order mark selects UTF-8 or
UTF-16 and is dropped, and only without one is the declared charset used. The
declared charset here is `x-user-defined`, the one that keeps every byte.

What clients of this file rely on is that the choice shows in the length: under
`x-user-defined` the text is as long as the bytes, after a byte order mark it is
strictly shorter (`decode_length_lt`).
-/

namespace Bootbox.Lib.TextDecode

open List

def replacement : ℕ := 0xFFFD

/-- One code unit of `x-user-defined`. -/
def xUserDefined (b : UInt8) : ℕ :=
  if b.toNat < 0x80 then b.toNat else 0xF780 + b.toNat - 0x80

def codeUnits (cp : ℕ) : List ℕ :=
  if cp < 0x10000 then [cp]
  else [0xD800 + (cp - 0x10000) / 0x400, 0xDC00 + (cp - 0x10000) % 0x400]

/-! ### UTF-8 -/

structure Utf8State where
  codePoint : ℕ
  seen : ℕ
  needed : ℕ
  lower : ℕ
  upper : ℕ

def Utf8State.start : Utf8State := ⟨0, 0, 0, 0x80, 0xBF⟩

def utf8First (b : ℕ) : List ℕ × Utf8State :=
  if b ≤ 0x7F then ([b], .start)
  else if 0xC2 ≤ b ∧ b ≤ 0xDF then ([], ⟨b % 0x20, 0, 1, 0x80, 0xBF⟩)
  else if 0xE0 ≤ b ∧ b ≤ 0xEF then
    ([], ⟨b % 0x10, 0, 2, if b = 0xE0 then 0xA0 else 0x80, if b = 0xED then 0x9F else 0xBF⟩)
  else if 0xF0 ≤ b ∧ b ≤ 0xF4 then
    ([], ⟨b % 0x08, 0, 3, if b = 0xF0 then 0x90 else 0x80, if b = 0xF4 then 0x8F else 0xBF⟩)
  else ([replacement], .start)

/-- The decoder at any byte. A byte that cannot continue the sequence begun is
replaced together with it and then read again as a first byte. -/
def utf8Next (st : Utf8State) (b : ℕ) : List ℕ × Utf8State :=
  if st.needed = 0 then utf8First b
  else if b < st.lower ∨ st.upper < b then
    (replacement :: (utf8First b).1, (utf8First b).2)
  else if st.seen + 1 = st.needed then
    (codeUnits (st.codePoint * 0x40 + b % 0x40), .start)
  else ([], ⟨st.codePoint * 0x40 + b % 0x40, st.seen + 1, st.needed, 0x80, 0xBF⟩)

def utf8Decode (st : Utf8State) : List UInt8 → List ℕ
  | [] => if st.needed = 0 then [] else [replacement]
  | b :: bs => (utf8Next st b.toNat).1 ++ utf8Decode (utf8Next st b.toNat).2 bs

/-- One while a sequence is open, so that the output never overtakes the input. -/
def Utf8State.pending (st : Utf8State) : ℕ := if st.needed = 0 then 0 else 1

theorem codeUnits_length_le (cp : ℕ) : (codeUnits cp).length ≤ 2 := by
  unfold codeUnits
  split <;> simp

theorem utf8First_length (b : ℕ) :
    (utf8First b).1.length + (utf8First b).2.pending ≤ 1 := by
  unfold utf8First
  split_ifs <;> simp [Utf8State.pending, Utf8State.start]

theorem utf8Next_length (st : Utf8State) (b : ℕ) :
    (utf8Next st b).1.length + (utf8Next st b).2.pending ≤ st.pending + 1 := by
  have hfirst := utf8First_length b
  unfold utf8Next
  split_ifs with hn hr hs
  · omega
  · simp only [length_cons, Utf8State.pending, if_neg hn] at hfirst ⊢
    omega
  · have h2 := codeUnits_length_le (st.codePoint * 0x40 + b % 0x40)
    simp only [Utf8State.pending, Utf8State.start, if_neg hn, if_true]
    omega
  · simp [Utf8State.pending, hn]

theorem utf8Decode_length (st : Utf8State) (bs : List UInt8) :
    (utf8Decode st bs).length ≤ st.pending + bs.length := by
  induction bs generalizing st with
  | nil =>
    simp only [utf8Decode, Utf8State.pending]
    split <;> simp
  | cons b bs ih =>
    have hnext := utf8Next_length st b.toNat
    have hrest := ih (utf8Next st b.toNat).2
    simp only [utf8Decode, length_append, length_cons]
    omega

/-! ### UTF-16 -/

def isLead (u : ℕ) : Bool := 0xD800 ≤ u && u ≤ 0xDBFF

def isTrail (u : ℕ) : Bool := 0xDC00 ≤ u && u ≤ 0xDFFF

/-- The code unit two bytes make, in big-endian order if `be`. -/
def unit (be : Bool) (a b : UInt8) : ℕ :=
  if be then a.toNat * 0x100 + b.toNat else b.toNat * 0x100 + a.toNat

/-- A code unit with no lead surrogate pending: its output and the new pending one. -/
def utf16First (u : ℕ) : List ℕ × Option ℕ :=
  if isLead u then ([], some u)
  else if isTrail u then ([replacement], none)
  else ([u], none)

def utf16Next (pending : Option ℕ) (u : ℕ) : List ℕ × Option ℕ :=
  match pending with
  | none => utf16First u
  | some l =>
    if isTrail u then ([l, u], none)
    else (replacement :: (utf16First u).1, (utf16First u).2)

def utf16Decode (be : Bool) (pending : Option ℕ) : List UInt8 → List ℕ
  | [] => if pending.isSome then [replacement] else []
  | [_] => [replacement]
  | a :: b :: bs =>
    (utf16Next pending (unit be a b)).1 ++
      utf16Decode be (utf16Next pending (unit be a b)).2 bs

theorem utf16First_length (u : ℕ) :
    (utf16First u).1.length + (utf16First u).2.toList.length ≤ 1 := by
  unfold utf16First
  split_ifs <;> simp

theorem utf16Next_length (p : Option ℕ) (u : ℕ) :
    (utf16Next p u).1.length + (utf16Next p u).2.toList.length ≤ p.toList.length + 1 := by
  have hfirst := utf16First_length u
  cases p with
  | none => simpa [utf16Next] using hfirst
  | some l =>
    simp only [utf16Next]
    split
    · simp
    · simp only [length_cons, Option.toList_some, length_nil]
      omega

theorem utf16Decode_length (be : Bool) (p : Option ℕ) (bs : List UInt8) :
    (utf16Decode be p bs).length ≤ p.toList.length + (bs.length + 1) / 2 := by
  induction p, bs using utf16Decode.induct be with
  | case1 p _ => cases p <;> simp [utf16Decode]
  | case2 p _ => cases p <;> simp [utf16Decode]
  | case3 p b => simp [utf16Decode]
  | case4 p a b bs ih =>
    have hnext := utf16Next_length p (unit be a b)
    simp only [utf16Decode, length_append, length_cons]
    omega

/-! ### Choosing the encoding -/

/-- The text of a body that was requested as `x-user-defined`. -/
def decode : List UInt8 → List ℕ
  | 0xEF :: 0xBB :: 0xBF :: bs => utf8Decode .start bs
  | 0xFE :: 0xFF :: bs => utf16Decode true none bs
  | 0xFF :: 0xFE :: bs => utf16Decode false none bs
  | bs => bs.map xUserDefined

def Marked : List UInt8 → Prop
  | 0xEF :: 0xBB :: 0xBF :: _ => True
  | 0xFE :: 0xFF :: _ => True
  | 0xFF :: 0xFE :: _ => True
  | _ => False

theorem decode_of_not_marked {bs : List UInt8} (h : ¬ Marked bs) :
    decode bs = bs.map xUserDefined := by
  unfold decode
  split
  · exact absurd trivial h
  · exact absurd trivial h
  · exact absurd trivial h
  · rfl

theorem decode_length_lt {bs : List UInt8} (h : Marked bs) : (decode bs).length < bs.length := by
  unfold decode
  split
  · rename_i rest
    have h := utf8Decode_length .start rest
    simp only [Utf8State.pending, Utf8State.start, if_true, length_cons] at h ⊢
    omega
  · rename_i rest
    have h := utf16Decode_length true none rest
    simp only [Option.toList_none, length_nil, length_cons] at h ⊢
    omega
  · rename_i rest
    have h := utf16Decode_length false none rest
    simp only [Option.toList_none, length_nil, length_cons] at h ⊢
    omega
  · unfold Marked at h
    split at h <;> simp_all

theorem decode_eq_map_of_length {bs : List UInt8} (h : (decode bs).length = bs.length) :
    decode bs = bs.map xUserDefined :=
  decode_of_not_marked fun hmarked => absurd (decode_length_lt hmarked) (by omega)

end Bootbox.Lib.TextDecode
