import Bootbox.Lib.Budget
import Bootbox.Lib.OrderedMap
import Mathlib.Algebra.Group.Nat.Defs

/-!
The parser of DEX files (`parse` of `runtime/dex.js`), with a count of the rounds of its loops.

Reading a byte beyond the end of the array gives `undefined`. In the bit operations of ULEB128
that counts as 0 and ends the number. The loop over a string's characters compares it with 0,
which it is not, so a string without a 0 after it never ends.
-/

namespace Bootbox.Dex

open Lib Budget

/-- What `parse` throws. -/
inductive Fault
  /-- `new Error("not a DEX file")` -/
  | notDex
  /-- The `RangeError` of a `DataView`. -/
  | outOfBounds
deriving DecidableEq

/-- `bytes[o]` in a bit operation. -/
def byteAt (bytes : List UInt8) (o : ℕ) : ℕ := (bytes[o]?.map UInt8.toNat).getD 0

/-- `dv.getUint16(o, true)` -/
def u16 (bytes : List UInt8) (o : ℕ) : Option ℕ :=
  if o + 2 ≤ bytes.length then some (byteAt bytes o + 2 ^ 8 * byteAt bytes (o + 1)) else none

/-- `dv.getUint32(o, true)` -/
def u32 (bytes : List UInt8) (o : ℕ) : Option ℕ :=
  if o + 4 ≤ bytes.length then
    some (byteAt bytes o + 2 ^ 8 * byteAt bytes (o + 1) + 2 ^ 16 * byteAt bytes (o + 2)
      + 2 ^ 24 * byteAt bytes (o + 3))
  else none

def get (value : Option ℕ) : Budget Fault ℕ :=
  match value with
  | some n => pure n
  | none => throw .outOfBounds

/-- The loop of `uleb`, one step for each byte: the number and where it ends. The shift takes
its distance modulo 32. -/
def ulebLoop (bytes : List UInt8) : ℕ → ℕ → ℕ → BitVec 32 → Except (Option Fault) ((ℕ × ℕ) × ℕ)
  | 0, _, _, _ => .error none
  | n + 1, o, s, r =>
    let b := byteAt bytes o
    let r := r ||| BitVec.ofNat 32 (b % 2 ^ 7) <<< (s % 32)
    if b / 2 ^ 7 % 2 = 1 then ulebLoop bytes n (o + 1) (s + 7) r else .ok ((r.toNat, o + 1), n)

def uleb (bytes : List UInt8) (o : ℕ) : Budget Fault (ℕ × ℕ) := fun n => ulebLoop bytes n o 0 0

/-- `while (bytes[p] !== 0) s += String.fromCharCode(bytes[p++])` -/
def charLoop (bytes : List UInt8) : ℕ → ℕ → List Char → Except (Option Fault) (String × ℕ)
  | n, p, s =>
    if bytes[p]? = some 0 then .ok (String.ofList s, n)
    else
      match n with
      | 0 => .error none
      | n + 1 => charLoop bytes n (p + 1) (s ++ [Char.ofNat (byteAt bytes p)])

def chars (bytes : List UInt8) (p : ℕ) : Budget Fault String := fun n => charLoop bytes n p []

structure Table where
  size : ℕ
  off : ℕ
deriving DecidableEq

structure Header where
  stringIds : Table
  typeIds : Table
  protoIds : Table
  fieldIds : Table
  methodIds : Table
  classDefs : Table
deriving DecidableEq

def table (bytes : List UInt8) (o : ℕ) : Option Table := do
  let size ← u32 bytes o
  let off ← u32 bytes (o + 4)
  some ⟨size, off⟩

def header (bytes : List UInt8) : Option Header := do
  some ⟨← table bytes 56, ← table bytes 64, ← table bytes 72, ← table bytes 80, ← table bytes 88,
    ← table bytes 96⟩

structure Field where
  cls : Option String
  type : Option String
  name : Option String

structure Method where
  cls : Option String
  name : Option String
deriving DecidableEq

structure Code where
  regs : ℕ
  ins : ℕ
  insnsOff : ℕ
  insnsSize : ℕ
deriving DecidableEq

structure DexFile where
  strings : List String
  types : List (Option String)
  fields : List Field
  methods : List Method
  codeByMethod : List (ℕ × Code)
  bytes : List UInt8

section Parse

variable (bytes : List UInt8)

def readString (H : Header) (i : ℕ) (strings : List String) : Budget Fault (List String) := do
  let off ← get (u32 bytes (H.stringIds.off + i * 4))
  let v ← uleb bytes off
  let s ← chars bytes v.2
  pure (strings ++ [s])

def readType (H : Header) (strings : List String) (i : ℕ) (types : List (Option String)) :
    Budget Fault (List (Option String)) := do
  let id ← get (u32 bytes (H.typeIds.off + i * 4))
  pure (types ++ [strings[id]?])

def readField (H : Header) (strings : List String) (types : List (Option String)) (i : ℕ)
    (fields : List Field) : Budget Fault (List Field) := do
  let o := H.fieldIds.off + i * 8
  let cls ← get (u16 bytes o)
  let type ← get (u16 bytes (o + 2))
  let name ← get (u32 bytes (o + 4))
  pure (fields ++ [⟨types[cls]?.join, types[type]?.join, strings[name]?⟩])

def readMethod (H : Header) (strings : List String) (types : List (Option String)) (i : ℕ)
    (methods : List Method) : Budget Fault (List Method) := do
  let o := H.methodIds.off + i * 8
  let cls ← get (u16 bytes o)
  let name ← get (u32 bytes (o + 4))
  pure (methods ++ [⟨types[cls]?.join, strings[name]?⟩])

def skipField (_ p : ℕ) : Budget Fault ℕ := do
  let v ← uleb bytes p
  let v ← uleb bytes v.2
  pure v.2

/-- The state of `readMethods`: `midx`, `p` and `codeByMethod`. -/
structure Methods where
  midx : ℕ
  p : ℕ
  codes : List (ℕ × Code)

def readCode (_ : ℕ) (m : Methods) : Budget Fault Methods := do
  let v ← uleb bytes m.p
  let midx := m.midx + v.1
  let v ← uleb bytes v.2
  let v ← uleb bytes v.2
  let codeOff := v.1
  if codeOff = 0 then pure ⟨midx, v.2, m.codes⟩
  else do
    let regs ← get (u16 bytes codeOff)
    let ins ← get (u16 bytes (codeOff + 2))
    let insnsSize ← get (u32 bytes (codeOff + 12))
    pure ⟨midx, v.2, OrderedMap.set m.codes midx ⟨regs, ins, codeOff + 16, insnsSize⟩⟩

/-- `readMethods`, with its own `midx`. -/
def readMethods (count p : ℕ) (codes : List (ℕ × Code)) : Budget Fault Methods :=
  loop (readCode bytes) count 0 ⟨0, p, codes⟩

def readClass (H : Header) (i : ℕ) (codes : List (ℕ × Code)) :
    Budget Fault (List (ℕ × Code)) := do
  let classDataOff ← get (u32 bytes (H.classDefs.off + i * 32 + 24))
  if classDataOff = 0 then pure codes
  else do
    let sf ← uleb bytes classDataOff
    let inf ← uleb bytes sf.2
    let dm ← uleb bytes inf.2
    let vm ← uleb bytes dm.2
    let p ← loop (skipField bytes) sf.1 0 vm.2
    let p ← loop (skipField bytes) inf.1 0 p
    let direct ← readMethods bytes dm.1 p codes
    let virtual ← readMethods bytes vm.1 direct.p direct.codes
    pure virtual.codes

def isDex : Bool := byteAt bytes 0 = 0x64 ∧ byteAt bytes 1 = 0x65 ∧ byteAt bytes 2 = 0x78

def parse : Budget Fault DexFile :=
  if isDex bytes then
    match header bytes with
    | none => throw .outOfBounds
    | some H => do
        let strings ← loop (readString bytes H) H.stringIds.size 0 []
        let types ← loop (readType bytes H strings) H.typeIds.size 0 []
        let fields ← loop (readField bytes H strings types) H.fieldIds.size 0 []
        let methods ← loop (readMethod bytes H strings types) H.methodIds.size 0 []
        let codes ← loop (readClass bytes H) H.classDefs.size 0 []
        pure ⟨strings, types, fields, methods, codes, bytes⟩
  else throw .notDex

/-- A number of rounds that depends on the length of the array and the counts of the header. The
four counts of a class are 32-bit numbers. -/
def bound : ℕ :=
  match header bytes with
  | none => 0
  | some H =>
    let number := bytes.length + 1
    H.stringIds.size * (number + bytes.length + 1) + H.typeIds.size + H.fieldIds.size
      + H.methodIds.size
      + H.classDefs.size * (4 * number + 2 * (2 ^ 32 * (2 * number + 1))
        + 2 * (2 ^ 32 * (3 * number + 1)) + 1)

/-- The parser ends, after at most so many rounds of its loops. -/
def Ends : Prop := parse bytes (bound bytes) ≠ .error none

end Parse

/-! ### The loops that are driven by the bytes -/

section Loops

variable {bytes : List UInt8}

/-- The number of bytes at `o` that are not the last one of a number. -/
def continued (bytes : List UInt8) (o : ℕ) : ℕ :=
  ((bytes.drop o).takeWhile fun b => b.toNat / 2 ^ 7 % 2 = 1).length

/-- Where the number at `o` ends. -/
def ulebEnd (bytes : List UInt8) (o : ℕ) : ℕ := o + continued bytes o + 1

theorem continued_of_last {o : ℕ} (h : ¬ byteAt bytes o / 2 ^ 7 % 2 = 1) :
    continued bytes o = 0 := by
  rw [continued]
  cases hdrop : bytes.drop o with
  | nil => rfl
  | cons b rest =>
    have hget : bytes[o]? = some b := by
      rw [← List.head?_drop, hdrop]
      rfl
    have hb : byteAt bytes o = b.toNat := by
      rw [byteAt, hget]
      rfl
    rw [hb] at h
    rw [List.takeWhile_cons_of_neg (by simpa using h)]
    rfl

theorem continued_of_more {o : ℕ} (h : byteAt bytes o / 2 ^ 7 % 2 = 1) :
    continued bytes o = continued bytes (o + 1) + 1 := by
  have hlt : o < bytes.length := by
    by_contra hge
    have hnone : bytes[o]? = none := List.getElem?_eq_none (by omega)
    rw [byteAt, hnone] at h
    simp at h
  have hb : byteAt bytes o = bytes[o].toNat := by
    rw [byteAt, List.getElem?_eq_getElem hlt]
    rfl
  rw [hb] at h
  rw [continued, List.drop_eq_getElem_cons hlt, List.takeWhile_cons_of_pos (by simpa using h),
    List.length_cons, continued]

theorem continued_le (bytes : List UInt8) (o : ℕ) : continued bytes o ≤ bytes.length := by
  have hle := (List.takeWhile_sublist (l := bytes.drop o)
    fun b => decide (b.toNat / 2 ^ 7 % 2 = 1)).length_le
  rw [List.length_drop] at hle
  rw [continued]
  omega

/-- A number takes a step for each of its bytes. -/
theorem ulebLoop_eq (n o s : ℕ) (r : BitVec 32) :
    if n ≤ continued bytes o then ulebLoop bytes n o s r = .error none
    else ∃ v < 2 ^ 32, ulebLoop bytes n o s r
      = .ok ((v, ulebEnd bytes o), n - (continued bytes o + 1)) := by
  induction n generalizing o s r with
  | zero => simp [ulebLoop]
  | succ n ih =>
    simp only [ulebLoop]
    by_cases hmore : byteAt bytes o / 2 ^ 7 % 2 = 1
    · have hnext := ih (o + 1) (s + 7)
        (r ||| BitVec.ofNat 32 (byteAt bytes o % 2 ^ 7) <<< (s % 32))
      rw [if_pos hmore, continued_of_more hmore]
      have hend : ulebEnd bytes (o + 1) = ulebEnd bytes o := by
        rw [ulebEnd, ulebEnd, continued_of_more hmore]
        omega
      split at hnext
      case isTrue hle => rwa [if_pos (by omega)]
      case isFalse hlt =>
        rw [if_neg (by omega)]
        obtain ⟨v, hv, hrun⟩ := hnext
        refine ⟨v, hv, ?_⟩
        rw [hrun, hend]
        congr 2
        omega
    · have hzero := continued_of_last hmore
      rw [if_neg hmore, hzero, if_neg (by omega)]
      refine ⟨(r ||| BitVec.ofNat 32 (byteAt bytes o % 2 ^ 7) <<< (s % 32)).toNat,
        BitVec.isLt _, ?_⟩
      rw [ulebEnd, hzero]
      rfl

theorem within_uleb (bytes : List UInt8) (o : ℕ) :
    Within (uleb bytes o) (bytes.length + 1) fun v => v.1 < 2 ^ 32 ∧ v.2 = ulebEnd bytes o := by
  intro n hn
  have hle := continued_le bytes o
  have hrun := @ulebLoop_eq bytes n o 0 0
  rw [if_neg (by omega)] at hrun
  obtain ⟨v, hv, hrun⟩ := hrun
  exact .inr ⟨(v, ulebEnd bytes o), _, hrun, by omega, hv, rfl⟩

theorem noThrow_uleb (bytes : List UInt8) (o : ℕ) :
    NoThrow (uleb bytes o) fun v => v.2 = ulebEnd bytes o := by
  intro n
  have hrun := @ulebLoop_eq bytes n o 0 0
  split at hrun
  case isTrue => exact .inl hrun
  case isFalse =>
    obtain ⟨v, -, hrun⟩ := hrun
    exact .inr ⟨(v, ulebEnd bytes o), _, hrun, rfl⟩

/-- There is a 0 at `p` or after it. -/
def HasZero (bytes : List UInt8) (p : ℕ) : Prop := 0 ∈ bytes.drop p

instance (bytes : List UInt8) (p : ℕ) : Decidable (HasZero bytes p) :=
  inferInstanceAs (Decidable (0 ∈ bytes.drop p))

theorem hasZero_iff {p : ℕ} : HasZero bytes p ↔ ∃ z, p ≤ z ∧ bytes[z]? = some 0 := by
  simp only [HasZero, List.mem_iff_getElem?, List.getElem?_drop]
  constructor
  · rintro ⟨i, hi⟩
    exact ⟨p + i, by omega, hi⟩
  · rintro ⟨z, hp, hz⟩
    exact ⟨z - p, by rwa [show p + (z - p) = z by omega]⟩

theorem charLoop_of_zero {z : ℕ} (hz : bytes[z]? = some 0) {n p : ℕ} (hp : p ≤ z)
    (hn : z ≤ n + p) (s : List Char) :
    ∃ text n', charLoop bytes n p s = .ok (text, n') ∧ n + p ≤ n' + z := by
  induction n generalizing p s with
  | zero =>
    obtain rfl : p = z := by omega
    exact ⟨_, 0, by rw [charLoop, if_pos hz], by omega⟩
  | succ n ih =>
    rw [charLoop]
    split
    case isTrue => exact ⟨_, _, rfl, by omega⟩
    case isFalse hp' =>
      have hne : p ≠ z := by
        rintro rfl
        exact hp' hz
      obtain ⟨text, n', hrun, hle⟩ := @ih (p + 1) (by omega) (by omega) (s ++ [_])
      exact ⟨text, n', hrun, by omega⟩

theorem within_chars {p : ℕ} (h : HasZero bytes p) :
    Within (chars bytes p) bytes.length fun _ => True := by
  obtain ⟨z, hp, hz⟩ := hasZero_iff.1 h
  intro n hn
  have hlt : z < bytes.length := by
    by_contra hge
    rw [List.getElem?_eq_none (by omega)] at hz
    cases hz
  obtain ⟨text, n', hrun, hle⟩ := charLoop_of_zero hz hp (by omega : z ≤ n + p) []
  exact .inr ⟨text, n', hrun, by omega, trivial⟩

theorem charLoop_noThrow (n p : ℕ) (s : List Char) :
    charLoop bytes n p s = .error none ∨ ∃ text n', charLoop bytes n p s = .ok (text, n')
      ∧ HasZero bytes p := by
  induction n generalizing p s with
  | zero =>
    rw [charLoop]
    split
    case isTrue hz => exact .inr ⟨_, _, rfl, hasZero_iff.2 ⟨p, Nat.le_refl p, hz⟩⟩
    case isFalse => exact .inl rfl
  | succ n ih =>
    rw [charLoop]
    split
    case isTrue hz => exact .inr ⟨_, _, rfl, hasZero_iff.2 ⟨p, Nat.le_refl p, hz⟩⟩
    case isFalse =>
      rcases ih (p + 1) _ with herror | ⟨text, n', hrun, hzero⟩
      · exact .inl herror
      · obtain ⟨z, hp, hz⟩ := hasZero_iff.1 hzero
        exact .inr ⟨text, n', hrun, hasZero_iff.2 ⟨z, by omega, hz⟩⟩

theorem noThrow_chars (bytes : List UInt8) (p : ℕ) :
    NoThrow (chars bytes p) fun _ => HasZero bytes p :=
  fun n => charLoop_noThrow n p []

end Loops

/-! ### When the parser ends -/

section Ends

variable {bytes : List UInt8}

theorem within_get (value : Option ℕ) :
    Within (get value) 0 fun n => value = some n := by
  cases value with
  | none => exact Within.throw _ _
  | some n => exact Within.pure rfl

theorem within_readString {H : Header} {i : ℕ}
    (h : ∀ off, u32 bytes (H.stringIds.off + i * 4) = some off → HasZero bytes (ulebEnd bytes off))
    (strings : List String) :
    Within (readString bytes H i strings) (bytes.length + 1 + bytes.length) fun _ => True := by
  have hall := (within_get (u32 bytes (H.stringIds.off + i * 4))).bind fun off hoff =>
    (within_uleb bytes off).bind fun v hv =>
      (within_chars (hv.2 ▸ h off hoff)).bind fun s _ =>
        (Within.pure trivial : Within (pure (strings ++ [s])) 0 fun _ => True)
  exact hall.mono (by omega) fun _ h => h

theorem within_readType (bytes : List UInt8) (H : Header) (strings : List String) (i : ℕ)
    (types : List (Option String)) :
    Within (readType bytes H strings i types) 0 fun _ => True :=
  (within_get _).bind fun _ _ => Within.pure trivial

theorem within_readField (bytes : List UInt8) (H : Header) (strings : List String)
    (types : List (Option String)) (i : ℕ) (fields : List Field) :
    Within (readField bytes H strings types i fields) 0 fun _ => True :=
  (within_get _).bind fun _ _ => (within_get _).bind fun _ _ => (within_get _).bind fun _ _ =>
    Within.pure trivial

theorem within_readMethod (bytes : List UInt8) (H : Header) (strings : List String)
    (types : List (Option String)) (i : ℕ) (methods : List Method) :
    Within (readMethod bytes H strings types i methods) 0 fun _ => True :=
  (within_get _).bind fun _ _ => (within_get _).bind fun _ _ => Within.pure trivial

theorem within_skipField (bytes : List UInt8) (i p : ℕ) :
    Within (skipField bytes i p) (2 * (bytes.length + 1)) fun _ => True := by
  have hall := (within_uleb bytes p).bind fun v _ => (within_uleb bytes v.2).bind fun w _ =>
    (Within.pure trivial : Within (pure w.2) 0 fun _ => True)
  exact hall.mono (by omega) fun _ h => h

theorem within_readCode (bytes : List UInt8) (i : ℕ) (m : Methods) :
    Within (readCode bytes i m) (3 * (bytes.length + 1)) fun _ => True := by
  rw [show 3 * (bytes.length + 1)
    = bytes.length + 1 + (bytes.length + 1 + (bytes.length + 1 + 0)) by omega]
  refine (within_uleb bytes m.p).bind fun v _ => ?_
  refine (within_uleb bytes v.2).bind fun w _ => ?_
  refine (within_uleb bytes w.2).bind fun x _ => ?_
  dsimp only
  split
  · exact Within.pure trivial
  · exact (within_get _).bind fun _ _ => (within_get _).bind fun _ _ =>
      (within_get _).bind fun _ _ => Within.pure trivial

theorem within_loop_of_lt {σ : Type} {body : ℕ → σ → Budget Fault σ} {c count : ℕ}
    (hcount : count < 2 ^ 32) (s : σ) (h : ∀ j s, Within (body j s) c fun _ => True) :
    Within (loop body count 0 s) (2 ^ 32 * (c + 1)) fun _ => True :=
  (Within.loop count 0 s fun j s _ _ => h j s).mono
    (Nat.mul_le_mul_right _ (Nat.le_of_lt hcount)) fun _ h => h

theorem within_readClass (bytes : List UInt8) (H : Header) (i : ℕ) (codes : List (ℕ × Code)) :
    Within (readClass bytes H i codes)
      (4 * (bytes.length + 1) + 2 * (2 ^ 32 * (2 * (bytes.length + 1) + 1))
        + 2 * (2 ^ 32 * (3 * (bytes.length + 1) + 1))) fun _ => True := by
  refine (((within_get _).bind fun off _ => ?_).mono (Nat.le_of_eq (Nat.zero_add _))
    fun _ h => h)
  split
  · exact (Within.pure trivial).mono (Nat.zero_le _) fun _ h => h
  · have hall := (within_uleb bytes off).bind fun sf hsf =>
      (within_uleb bytes sf.2).bind fun inf hinf => (within_uleb bytes inf.2).bind fun dm hdm =>
        (within_uleb bytes dm.2).bind fun vm hvm =>
          (within_loop_of_lt hsf.1 vm.2 (within_skipField bytes)).bind fun p _ =>
            (within_loop_of_lt hinf.1 p (within_skipField bytes)).bind fun q _ =>
              (within_loop_of_lt hdm.1 ⟨0, q, codes⟩ (within_readCode bytes)).bind fun direct _ =>
                (within_loop_of_lt hvm.1 ⟨0, direct.p, direct.codes⟩ (within_readCode bytes)).bind
                  fun virtual _ =>
                    (Within.pure trivial : Within (pure virtual.codes) 0 fun _ => True)
    exact hall.mono (by omega) fun _ h => h

/-- Every string that the parser comes to has a 0 after it. -/
def Terminated (bytes : List UInt8) : Prop :=
  isDex bytes → ∀ H ∈ header bytes, ∀ i < H.stringIds.size,
    ∀ off ∈ u32 bytes (H.stringIds.off + i * 4), HasZero bytes (ulebEnd bytes off)

instance (bytes : List UInt8) : Decidable (Terminated bytes) :=
  inferInstanceAs (Decidable (isDex bytes → ∀ H ∈ header bytes, ∀ i < H.stringIds.size,
    ∀ off ∈ u32 bytes (H.stringIds.off + i * 4), HasZero bytes (ulebEnd bytes off)))

theorem ends_of_terminated (h : Terminated bytes) : Ends bytes := by
  rw [Ends]
  unfold parse bound
  split
  case isFalse => rintro ⟨⟩
  case isTrue hdex =>
    cases hheader : header bytes with
    | none => rintro ⟨⟩
    | some H =>
      have hstrings := Within.loop H.stringIds.size 0 [] fun i s _ hi =>
        within_readString (fun off hoff => h hdex H hheader i (by omega) off hoff) s
      have hall := hstrings.bind fun strings _ =>
        (Within.loop H.typeIds.size 0 [] fun i s _ _ =>
          within_readType bytes H strings i s).bind fun types _ =>
        (Within.loop H.fieldIds.size 0 [] fun i s _ _ =>
          within_readField bytes H strings types i s).bind fun fields _ =>
        (Within.loop H.methodIds.size 0 [] fun i s _ _ =>
          within_readMethod bytes H strings types i s).bind fun methods _ =>
        (Within.loop H.classDefs.size 0 [] fun i s _ _ =>
          within_readClass bytes H i s).bind fun codes _ =>
        (Within.pure trivial :
          Within (pure (DexFile.mk strings types fields methods codes bytes)) 0 fun _ => True)
      exact (hall.mono (by simp only [Nat.mul_one, Nat.zero_add]; omega) fun _ h => h).ne_error

theorem noThrow_readString {H : Header} {i off : ℕ}
    (hoff : u32 bytes (H.stringIds.off + i * 4) = some off) (strings : List String) :
    NoThrow (readString bytes H i strings) fun _ => HasZero bytes (ulebEnd bytes off) := by
  rw [readString, hoff]
  refine (NoThrow.pure rfl : NoThrow (get (some off)) fun n => n = off).bind fun n hn => ?_
  subst hn
  refine (noThrow_uleb bytes n).bind fun v hv => ?_
  refine (noThrow_chars bytes v.2).bind fun s hs => NoThrow.pure (hv ▸ hs)

theorem stuck_of_not_terminated (h : ¬ Terminated bytes) : Stuck (parse bytes) := by
  simp only [Terminated, not_forall] at h
  obtain ⟨hdex, H, hheader, i, hi, off, hoff, hzero⟩ := h
  have hstrings : Stuck (loop (readString bytes H) H.stringIds.size 0 []) := by
    refine Stuck.loop _ _ _ (Nat.zero_le i) (by omega) (fun s n => ?_) fun j s hj => ?_
    · rcases noThrow_readString hoff s n with herror | ⟨_, _, _, hterminated⟩
      · exact herror
      · exact absurd hterminated hzero
    · have hle : H.stringIds.off + i * 4 + 4 ≤ bytes.length := by
        by_contra hgt
        rw [Option.mem_def, u32, if_neg hgt] at hoff
        cases hoff
      have hj' : ∃ off', u32 bytes (H.stringIds.off + j * 4) = some off' :=
        ⟨_, if_pos (by omega)⟩
      obtain ⟨off', hoff'⟩ := hj'
      intro n
      rcases noThrow_readString hoff' s n with herror | ⟨a, n', hrun, -⟩
      · exact .inl herror
      · exact .inr ⟨a, n', hrun, trivial⟩
  unfold parse
  rw [if_pos hdex, Option.mem_def.1 hheader]
  exact hstrings.bind _

/-- The parser ends, after a number of rounds that the length and the header's counts bound, if
and only if each string that it comes to has a 0 after it; otherwise it never ends. -/
theorem ends_iff_terminated (bytes : List UInt8) :
    (Ends bytes ↔ Terminated bytes) ∧ (¬ Terminated bytes → ∀ n, parse bytes n = .error none) := by
  refine ⟨⟨fun hends => ?_, ends_of_terminated⟩, fun h => stuck_of_not_terminated h⟩
  by_contra h
  exact hends (stuck_of_not_terminated h _)

/-- A file that is cut off after its header: its only string lies beyond the end. -/
def cutOff : List UInt8 :=
  [0x64, 0x65, 0x78] ++ List.replicate 53 0 ++ [1, 0, 0, 0, 0, 0, 0, 0] ++ List.replicate 40 0

theorem parse_cutOff_does_not_end :
    cutOff.length = 104 ∧ ¬ Ends cutOff ∧ ∀ n, parse cutOff n = .error none := by
  have h : ¬ Terminated cutOff := by decide +kernel
  exact ⟨rfl, fun hends => hends (stuck_of_not_terminated h _), stuck_of_not_terminated h⟩

end Ends

end Bootbox.Dex
