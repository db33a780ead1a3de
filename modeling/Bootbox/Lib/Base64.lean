import Mathlib.Data.List.DropRight

/-!
Base64 as `base64` writes it and as the lenient decoder of browsers (`atob`) reads it.

Three bytes are four numbers below 64. A last group of two or three numbers stands for one or
two bytes and has unused bits, which the decoder ignores; `clear` sets them to zero, as the
encoder does. So a text decodes to some bytes iff, with its unused bits cleared, it has the
numbers the encoder writes for them.
-/

namespace Bootbox.Lib.Base64

open List Option

def letters : List Char :=
  "ABCDEFGHIJKLMNOPQRSTUVWXYZabcdefghijklmnopqrstuvwxyz0123456789+/".toList

def letter (v : ℕ) : Char := letters.getD v 'A'

def value (c : Char) : Option ℕ := letters.idxOf? c

/-- The numbers the encoder writes for some bytes. -/
def sextets : List UInt8 → List ℕ
  | [] => []
  | [a] => [a.toNat / 4, a.toNat % 4 * 16]
  | [a, b] => [a.toNat / 4, a.toNat % 4 * 16 + b.toNat / 16, b.toNat % 16 * 4]
  | a :: b :: c :: rest =>
    a.toNat / 4 :: (a.toNat % 4 * 16 + b.toNat / 16) :: (b.toNat % 16 * 4 + c.toNat / 64) ::
      c.toNat % 64 :: sextets rest

def byte (n : ℕ) : UInt8 := .ofNat n

def bytes : List ℕ → Option (List UInt8)
  | [] => some []
  | [_] => none
  | [a, b] => some [byte (a * 4 + b / 16)]
  | [a, b, c] => some [byte (a * 4 + b / 16), byte (b % 16 * 16 + c / 4)]
  | a :: b :: c :: d :: rest =>
    (bytes rest).map fun more =>
      byte (a * 4 + b / 16) :: byte (b % 16 * 16 + c / 4) :: byte (c % 4 * 64 + d) :: more

def clear : List ℕ → List ℕ
  | [a, b] => [a, b / 16 * 16]
  | [a, b, c] => [a, b, c / 4 * 4]
  | a :: b :: c :: d :: rest => a :: b :: c :: d :: clear rest
  | short => short

theorem byte_eq_iff {n : ℕ} (hn : n < 256) (b : UInt8) : byte n = b ↔ n = b.toNat := by
  rw [byte, ← UInt8.toNat_inj, UInt8.toNat_ofNat', Nat.mod_eq_of_lt hn]

theorem bytes_eq_some_iff {l : List ℕ} (hl : ∀ v ∈ l, v < 64) (b : List UInt8) :
    bytes l = some b ↔ l.length % 4 ≠ 1 ∧ clear l = sextets b := by
  induction l using bytes.induct generalizing b with
  | case1 => rcases b with _ | ⟨x, _ | ⟨y, _ | ⟨z, b⟩⟩⟩ <;> simp [bytes, clear, sextets]
  | case2 a => simp [bytes]
  | case3 a v =>
    simp only [mem_cons, not_mem_nil, or_false, forall_eq_or_imp, forall_eq] at hl
    rcases b with _ | ⟨x, _ | ⟨y, _ | ⟨z, b⟩⟩⟩ <;> simp [bytes, clear, sextets]
    have hx := x.toNat_lt
    rw [byte_eq_iff (by omega)]
    omega
  | case4 a v w =>
    simp only [mem_cons, not_mem_nil, or_false, forall_eq_or_imp, forall_eq] at hl
    rcases b with _ | ⟨x, _ | ⟨y, _ | ⟨z, b⟩⟩⟩ <;> simp [bytes, clear, sextets]
    have hx := x.toNat_lt
    have hy := y.toNat_lt
    rw [byte_eq_iff (by omega), byte_eq_iff (by omega)]
    omega
  | case5 a v w u rest ih =>
    simp only [mem_cons, forall_eq_or_imp] at hl
    rcases b with _ | ⟨x, _ | ⟨y, _ | ⟨z, b⟩⟩⟩ <;> simp [bytes, clear, sextets]
    have hx := x.toNat_lt
    have hy := y.toNat_lt
    have hz := z.toNat_lt
    rw [byte_eq_iff (by omega), byte_eq_iff (by omega), byte_eq_iff (by omega),
      ih hl.2.2.2.2]
    constructor
    · rintro ⟨⟨hlen, hrest⟩, h₁, h₂, h₃⟩
      exact ⟨by omega, by omega, by omega, by omega, by omega, hrest⟩
    · rintro ⟨hlen, h₁, h₂, h₃, h₄, hrest⟩
      exact ⟨⟨by omega, hrest⟩, by omega, by omega, by omega⟩

/-! ### Texts -/

/-- `base64 | tr -d '\n'` -/
def encode (b : List UInt8) : List Char :=
  (sextets b).map letter ++ replicate ((4 - (sextets b).length % 4) % 4) '='

/-- The padding at the end is taken off where the length is that of whole groups. -/
def unpad (text : List Char) : List Char :=
  if text.length % 4 = 0 then
    match text.reverse with
    | '=' :: '=' :: rest => rest.reverse
    | '=' :: rest => rest.reverse
    | _ => text
  else text

/-- The numbers of a text, if it has only letters beside the padding. -/
def digits (text : List Char) : Option (List ℕ) := (unpad text).mapM value

def atob (text : List Char) : Option (List UInt8) := (digits text).bind bytes

theorem value_lt {c : Char} {v : ℕ} (h : value c = some v) : v < 64 := by
  rw [value, idxOf?, findIdx?_eq_some_iff_findIdx_eq] at h
  exact h.1

theorem mapM_value {text : List Char} {l : List ℕ} (h : text.mapM value = some l) :
    l.length = text.length ∧ ∀ v ∈ l, v < 64 := by
  induction text generalizing l with
  | nil =>
    obtain rfl : l = [] := by simpa using h.symm
    simp
  | cons c text ih =>
    simp only [List.mapM_cons, Option.bind_eq_bind, Option.pure_def, Option.bind_eq_some_iff,
      Option.some.injEq] at h
    obtain ⟨v, hv, more, hmore, rfl⟩ := h
    obtain ⟨hlen, hlt⟩ := ih hmore
    exact ⟨congrArg (· + 1) hlen, List.forall_mem_cons.mpr ⟨value_lt hv, hlt⟩⟩

/-- What a text decodes to. -/
theorem atob_eq_some_iff (text : List Char) (b : List UInt8) :
    atob text = some b ↔
      ∃ l, digits text = some l ∧ l.length % 4 ≠ 1 ∧ clear l = sextets b := by
  rw [atob, bind_eq_some_iff]
  refine exists_congr fun l => and_congr_right fun hl => ?_
  exact bytes_eq_some_iff (mapM_value hl).2 b

theorem sextets_lt (b : List UInt8) : ∀ v ∈ sextets b, v < 64 := by
  induction b using sextets.induct with
  | case1 => simp [sextets]
  | case2 a =>
    have ha := a.toNat_lt
    simp only [sextets, forall_mem_cons, not_mem_nil]
    refine ⟨by omega, by omega, by simp⟩
  | case3 a c =>
    have ha := a.toNat_lt
    have hc := c.toNat_lt
    simp only [sextets, forall_mem_cons]
    refine ⟨by omega, by omega, by omega, by simp⟩
  | case4 a c d rest ih =>
    have ha := a.toNat_lt
    have hc := c.toNat_lt
    have hd := d.toNat_lt
    simp only [sextets, forall_mem_cons]
    exact ⟨by omega, by omega, by omega, by omega, ih⟩

theorem length_sextets_mod (b : List UInt8) : (sextets b).length % 4 ≠ 1 := by
  induction b using sextets.induct with
  | case1 => simp [sextets]
  | case2 a => simp [sextets]
  | case3 a c => simp [sextets]
  | case4 a c d rest ih =>
    simp only [sextets, length_cons]
    omega

theorem clear_sextets (b : List UInt8) : clear (sextets b) = sextets b := by
  induction b using sextets.induct with
  | case1 => rfl
  | case2 a => simp [sextets, clear]
  | case3 a c => simp [sextets, clear]
  | case4 a c d rest ih => simp [sextets, clear, ih]

theorem bytes_sextets (b : List UInt8) : bytes (sextets b) = some b :=
  (bytes_eq_some_iff (sextets_lt b) b).mpr ⟨length_sextets_mod b, clear_sextets b⟩

theorem length_clear (l : List ℕ) : (clear l).length = l.length := by
  induction l using clear.induct <;> simp_all [clear]

theorem exists_unpad (text : List Char) :
    ∃ k ≤ 2, text.length = (unpad text).length + k ∧ (k ≠ 0 → text.length % 4 = 0) := by
  rw [unpad]
  split
  case isFalse => exact ⟨0, by decide, rfl, fun h => absurd rfl h⟩
  case isTrue hlen =>
    have hrev := text.length_reverse
    split
    case h_1 rest heq =>
      rw [heq] at hrev
      exact ⟨2, le_rfl, by simpa using hrev.symm, fun _ => hlen⟩
    case h_2 rest _ heq =>
      rw [heq] at hrev
      exact ⟨1, by decide, by simpa using hrev.symm, fun _ => hlen⟩
    case h_3 => exact ⟨0, by decide, rfl, fun _ => hlen⟩

/-- A text that decodes has the encoder's numbers and at most two more characters, which fill up a
group. -/
theorem length_of_atob {text : List Char} {b : List UInt8} (h : atob text = some b) :
    ∃ k ≤ 2, text.length = (sextets b).length + k ∧ (k ≠ 0 → text.length % 4 = 0) := by
  obtain ⟨l, hl, -, hclear⟩ := (atob_eq_some_iff text b).mp h
  obtain ⟨k, hk, hlen, hgroups⟩ := exists_unpad text
  refine ⟨k, hk, ?_, hgroups⟩
  rw [hlen, ← (mapM_value hl).1, ← hclear, length_clear]

theorem value_letter {v : ℕ} (h : v < 64) : value (letter v) = some v := by
  have hall : ∀ v < 64, value (letter v) = some v := by decide +kernel
  exact hall v h

theorem unpad_append {l : List Char} (hl : '=' ∉ l) {k : ℕ} (hk : k ≤ 2)
    (hlen : (l ++ replicate k '=').length % 4 = 0) : unpad (l ++ replicate k '=') = l := by
  rw [unpad, if_pos hlen]
  obtain rfl | ⟨l, c, rfl⟩ := l.eq_nil_or_concat'
  · rcases k with _ | _ | _ | k
    · rfl
    · simp at hlen
    · simp at hlen
    · omega
  · have hc : c ≠ '=' := fun h => hl (by simp [h])
    rcases k with _ | _ | _ | k
    · simp [hc]
    · simp [hc, replicate]
    · simp [replicate]
    · omega

theorem atob_encode (b : List UInt8) : atob (encode b) = some b := by
  have hmod := length_sextets_mod b
  have hletters : '=' ∉ (sextets b).map letter := by
    intro h
    obtain ⟨v, hv, heq⟩ := mem_map.mp h
    have hvalue := value_letter (sextets_lt b v hv)
    rw [heq] at hvalue
    exact absurd hvalue (by rw [show value '=' = none by decide +kernel]; simp)
  have hmap : ∀ l : List ℕ, (∀ v ∈ l, v < 64) → (l.map letter).mapM value = some l := by
    intro l hl
    induction l with
    | nil => rfl
    | cons v l ih =>
      rw [forall_mem_cons] at hl
      simp [value_letter hl.1, ih hl.2]
  rw [atob, digits, encode, unpad_append hletters (by omega) (by simp; omega),
    hmap _ (sextets_lt b)]
  exact bytes_sextets b

end Bootbox.Lib.Base64
