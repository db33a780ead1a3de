import Bootbox.Lib.ByteMemory
import Bootbox.Lib.TextDecode

/-!
Texts as bytes, in UTF-8 and in little-endian UTF-16, and strict decoders for both:
what is not an encoding of a text gives no text.
-/

namespace Bootbox.Lib.Unicode

open ByteMemory TextDecode List

/-! ### UTF-8 -/

def utf8 (s : String) : List UInt8 := s.toByteArray.data.toList

def utf8Text? (bs : List UInt8) : Option String := String.fromUTF8? bs.toByteArray

theorem utf8Text?_eq_some {bs : List UInt8} {s : String} : utf8Text? bs = some s ↔ utf8 s = bs := by
  have hbytes : s.toByteArray = bs.toByteArray ↔ utf8 s = bs := by
    rw [ByteArray.ext_iff, data_toByteArray, utf8, ← Array.toList_inj]
  rw [utf8Text?, String.fromUTF8?, ← hbytes]
  split
  case isTrue h =>
    rw [Option.some.injEq, ← String.toByteArray_inj]
    exact eq_comm
  case isFalse h =>
    refine ⟨nofun, fun heq => (h ?_).elim⟩
    rw [← heq]
    exact s.isValidUTF8

/-! ### UTF-16 -/

def utf16Units (s : List Char) : List ℕ := s.flatMap fun c => codeUnits c.toNat

def utf16 (s : String) : List UInt8 := (utf16Units s.toList).flatMap (leBytes 2)

/-- Two bytes to a unit; an odd byte at the end belongs to none. -/
def unitsOf : List UInt8 → List ℕ
  | b₀ :: b₁ :: bs => leNat [b₀, b₁] :: unitsOf bs
  | _ => []

/-- A lead unit and the trail unit after it make one character, any other unit is one. -/
def utf16Chars? : List ℕ → Option (List Char)
  | [] => some []
  | [u] => if isLead u || isTrail u then none else some [Char.ofNat u]
  | u :: v :: us =>
    if isLead u then
      if isTrail v then
        (utf16Chars? us).map (Char.ofNat (0x10000 + (u - 0xD800) * 0x400 + (v - 0xDC00)) :: ·)
      else none
    else if isTrail u then none
    else (utf16Chars? (v :: us)).map (Char.ofNat u :: ·)

def utf16Text? (bs : List UInt8) : Option String := (utf16Chars? (unitsOf bs)).map String.ofList

theorem unitsOf_flatMap {us : List ℕ} (h : ∀ u ∈ us, u < 0x10000) :
    unitsOf (us.flatMap (leBytes 2)) = us := by
  induction us with
  | nil => rfl
  | cons u us ih =>
    have hu : leNat (leBytes 2 u) = u := by
      rw [leNat_leBytes]
      exact Nat.mod_eq_of_lt (h u mem_cons_self)
    rw [flatMap_cons]
    exact congrArg₂ cons hu (ih fun v hv => h v (mem_cons_of_mem _ hv))

theorem codeUnits_lt {c : Char} {u : ℕ} (h : u ∈ codeUnits c.toNat) : u < 0x10000 := by
  have hvalid : c.toNat < 0xD800 ∨ 0xDFFF < c.toNat ∧ c.toNat < 0x110000 := c.valid
  rw [codeUnits] at h
  split at h
  · rw [mem_singleton] at h
    omega
  · simp only [mem_cons, not_mem_nil, or_false] at h
    omega

theorem utf16Chars?_codeUnits (c : Char) (us : List ℕ) :
    utf16Chars? (codeUnits c.toNat ++ us) = (utf16Chars? us).map (c :: ·) := by
  have hvalid : c.toNat < 0xD800 ∨ 0xDFFF < c.toNat ∧ c.toNat < 0x110000 := c.valid
  rw [codeUnits]
  split
  case isTrue hlow =>
    -- one unit, which is no surrogate
    have hlead : isLead c.toNat = false := by
      rw [isLead, Bool.and_eq_false_iff, decide_eq_false_iff_not, decide_eq_false_iff_not]
      omega
    have htrail : isTrail c.toNat = false := by
      rw [isTrail, Bool.and_eq_false_iff, decide_eq_false_iff_not, decide_eq_false_iff_not]
      omega
    cases us with
    | nil => simp [utf16Chars?, hlead, htrail]
    | cons v us => simp [utf16Chars?, hlead, htrail]
  case isFalse hhigh =>
    have hlead : isLead (0xD800 + (c.toNat - 0x10000) / 0x400) = true := by
      rw [isLead, Bool.and_eq_true, decide_eq_true_eq, decide_eq_true_eq]
      omega
    have htrail : isTrail (0xDC00 + (c.toNat - 0x10000) % 0x400) = true := by
      rw [isTrail, Bool.and_eq_true, decide_eq_true_eq, decide_eq_true_eq]
      omega
    have hback : 0x10000 + (0xD800 + (c.toNat - 0x10000) / 0x400 - 0xD800) * 0x400 +
        (0xDC00 + (c.toNat - 0x10000) % 0x400 - 0xDC00) = c.toNat := by omega
    rw [cons_append, singleton_append, utf16Chars?, if_pos hlead, if_pos htrail, hback,
      Char.ofNat_toNat]

theorem utf16Chars?_utf16Units (s : List Char) : utf16Chars? (utf16Units s) = some s := by
  induction s with
  | nil => rfl
  | cons c s ih =>
    rw [utf16Units, flatMap_cons, utf16Chars?_codeUnits]
    exact congrArg (Option.map _) ih

theorem utf16Text?_utf16 (s : String) : utf16Text? (utf16 s) = some s := by
  rw [utf16Text?, utf16, unitsOf_flatMap, utf16Chars?_utf16Units, Option.map_some,
    String.ofList_toList]
  intro u hu
  obtain ⟨c, -, hc⟩ := mem_flatMap.mp hu
  exact codeUnits_lt hc

theorem length_utf16 (s : String) : (utf16 s).length = 2 * (utf16Units s.toList).length := by
  rw [utf16]
  induction utf16Units s.toList with
  | nil => rfl
  | cons u us ih =>
    rw [flatMap_cons, length_append, length_leBytes, ih, length_cons]
    omega

end Bootbox.Lib.Unicode
