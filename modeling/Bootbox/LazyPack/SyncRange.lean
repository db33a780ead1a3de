import Bootbox.Lib.TextDecode

/-!
`syncRange` of `lazypack.js`: one synchronous Range read of the pack. The bytes
come back as text, and the browser may have decoded that text with another
charset than the requested one, so the reader checks what it got and asks again
for a range that starts a byte earlier.

A range read never returns anything but the bytes of its range, whatever the requests
before it answered (`syncRange_ok`). It gives up on bytes it has received exactly if each
of its five windows begins with a byte order mark, and for that the six bytes from the
first window on have to alternate between FE and FF (`syncRange_reads_iff`).
-/

namespace Bootbox.LazyPack

open Lib List

variable {pack out : List UInt8} {start stop : ℕ} {pres : List ℕ}

/-- What one request is answered with. The server sends the requested bytes of
the expanded pack under status 206; every other way a request can end is a
failed fetch. -/
inductive Answer
  | networkError
  | refused (status : ℕ) (h : status ≠ 206 ∧ status ≠ 200)
  | partialContent

/-- The answers of the server, in the order of the requests. -/
abbrev Net := ℕ → Answer

/-- The errors `syncRange` throws. `network` is raised by `send` itself. -/
inductive LazyError
  | network
  | http (status start : ℕ)
  | notBinary (start stop : ℕ)
  deriving DecidableEq

def LazyError.message : LazyError → String
  | .network => "A network error occurred."
  | .http status start => "lazy pack read HTTP " ++ toString status ++ " at " ++ toString start
  | .notBinary start stop =>
    "lazy pack: could not read " ++ toString start ++ "-" ++ toString stop ++ " as binary"

/-- The bytes `[start, stop)` of the pack. -/
def packRange (pack : List UInt8) (start stop : ℕ) : List UInt8 :=
  (pack.drop start).take (stop - start)

/-- The byte a character of the response stands for, if it is one of
`x-user-defined`. -/
def byteOfChar (c : ℕ) : Option UInt8 :=
  if 0x7f < c ∧ (c < 0xf780 ∨ 0xf7ff < c) then none else some (UInt8.ofNat (c % 0x100))

/-- The loop of `syncRange` over the numbers of extra leading bytes still to be
tried. `n` counts the requests sent so far. -/
def syncRangeFrom (pack : List UInt8) (net : Net) (start stop : ℕ) :
    List ℕ → ℕ → Except LazyError (List UInt8) × ℕ
  | [], n => (.error (.notBinary start stop), n)
  | pre :: rest, n =>
    if start < pre then (.error (.notBinary start stop), n)
    else
      match net n with
      | .networkError => (.error .network, n + 1)
      | .refused status _ => (.error (.http status start), n + 1)
      | .partialContent =>
        let s := TextDecode.decode (packRange pack (start - pre) stop)
        if s.length ≠ stop - start + pre then
          syncRangeFrom pack net start stop rest (n + 1)
        else
          match (s.drop pre).mapM byteOfChar with
          | some out => (.ok out, n + 1)
          | none => syncRangeFrom pack net start stop rest (n + 1)

/-- Read `[start, stop)` of the pack with the `n`-th and following requests. -/
def syncRange (pack : List UInt8) (net : Net) (start stop n : ℕ) :
    Except LazyError (List UInt8) × ℕ :=
  syncRangeFrom pack net start stop [0, 1, 2, 3, 4] n

theorem le_syncRangeFrom (pack : List UInt8) (net : Net) (start stop : ℕ) (pres : List ℕ) (n : ℕ) :
    n ≤ (syncRangeFrom pack net start stop pres n).2 := by
  fun_induction syncRangeFrom pack net start stop pres n <;> simp_all <;> omega

theorem length_packRange (h : stop ≤ pack.length) :
    (packRange pack start stop).length = stop - start := by
  simp only [packRange, length_take, length_drop]
  omega

theorem drop_packRange (pack : List UInt8) {pre : ℕ} (hpre : pre ≤ start) :
    (packRange pack (start - pre) stop).drop pre = packRange pack start stop := by
  rw [packRange, packRange, drop_take, drop_drop]
  congr 1
  · omega
  · congr 1
    omega

@[simp] theorem byteOfChar_xUserDefined (b : UInt8) :
    byteOfChar (TextDecode.xUserDefined b) = some b := by
  have hb := b.toNat_lt
  unfold byteOfChar TextDecode.xUserDefined
  split_ifs with h1 h2 h2
  · omega
  · rw [Nat.mod_eq_of_lt (by omega)]
    simp
  · omega
  · rw [show 0xF780 + b.toNat - 0x80 = 0x100 * 0xF7 + b.toNat by omega, Nat.mul_add_mod,
      Nat.mod_eq_of_lt (by omega)]
    simp

theorem mapM_byteOfChar_map (bs : List UInt8) :
    (bs.map TextDecode.xUserDefined).mapM byteOfChar = some bs := by
  induction bs with
  | nil => rfl
  | cons b bs ih => simp [mapM_cons, ih]

/-- Whatever is returned after a length check that passed is the range: a text
of full length was decoded byte by byte. -/
theorem bytes_of_text {pre : ℕ} (hpre : pre ≤ start) (hstart : start ≤ stop)
    (hstop : stop ≤ pack.length)
    (hlen : (TextDecode.decode (packRange pack (start - pre) stop)).length = stop - start + pre)
    (hout : ((TextDecode.decode (packRange pack (start - pre) stop)).drop pre).mapM byteOfChar =
      some out) : out = packRange pack start stop := by
  have hbody : (packRange pack (start - pre) stop).length = stop - start + pre := by
    rw [length_packRange hstop]
    omega
  rw [TextDecode.decode_eq_map_of_length (hlen.trans hbody.symm), ← map_drop,
    drop_packRange pack hpre, mapM_byteOfChar_map] at hout
  exact (Option.some.inj hout).symm

theorem syncRangeFrom_ok {net : Net} {n : ℕ} (hstart : start ≤ stop) (hstop : stop ≤ pack.length)
    (h : (syncRangeFrom pack net start stop pres n).1 = .ok out) :
    out = packRange pack start stop := by
  induction pres generalizing n with
  | nil => simp [syncRangeFrom] at h
  | cons pre rest ih =>
    rw [syncRangeFrom] at h
    split at h
    · simp at h
    · rename_i hpre
      split at h
      · simp at h
      · simp at h
      · simp only at h
        split at h
        · exact ih h
        · rename_i hlen
          split at h
          · rename_i bytes hbytes
            simp only [Except.ok.injEq] at h
            subst h
            exact bytes_of_text (by omega) hstart hstop (not_not.mp hlen) hbytes
          · exact ih h

/-- A range read that does not throw returns the bytes of its range. -/
theorem syncRange_ok {net : Net} {n : ℕ} (hstart : start ≤ stop) (hstop : stop ≤ pack.length)
    (h : (syncRange pack net start stop n).1 = .ok out) : out = packRange pack start stop :=
  syncRangeFrom_ok hstart hstop h

/-! ### Ranges that are given up -/

/-- A read that has failed because a request has. -/
def LazyError.IsTransport : LazyError → Prop
  | .network => True
  | .http _ _ => True
  | .notBinary _ _ => False

def RangeRead (pack : List UInt8) (start stop : ℕ) : Except LazyError (List UInt8) → Prop
  | .ok out => out = packRange pack start stop
  | .error e => e.IsTransport

/-- A window without a byte order mark is enough, whatever the requests before it gave. -/
theorem syncRangeFrom_read (hstart : start ≤ stop) (hstop : stop ≤ pack.length) (net : Net)
    (hpres : ∀ pre ∈ pres, pre ≤ start)
    (h : ∃ pre ∈ pres, ¬ TextDecode.Marked (packRange pack (start - pre) stop)) (n : ℕ) :
    RangeRead pack start stop (syncRangeFrom pack net start stop pres n).1 := by
  induction pres generalizing n with
  | nil =>
    obtain ⟨pre, hpre, -⟩ := h
    cases hpre
  | cons pre rest ih =>
    have hle := hpres pre mem_cons_self
    rw [syncRangeFrom, if_neg (by omega)]
    cases net n with
    | networkError => trivial
    | refused status hstatus => trivial
    | partialContent =>
      dsimp only
      by_cases hmarked : TextDecode.Marked (packRange pack (start - pre) stop)
      · -- this window is read as a shorter text, so another one has to do
        have hrest : ∃ pre ∈ rest,
            ¬ TextDecode.Marked (packRange pack (start - pre) stop) := by
          obtain ⟨pre', hpre', hplain⟩ := h
          rcases mem_cons.mp hpre' with rfl | hmem
          · exact absurd hmarked hplain
          · exact ⟨pre', hmem, hplain⟩
        have hshort := TextDecode.decode_length_lt hmarked
        rw [length_packRange hstop] at hshort
        rw [if_pos (by omega)]
        exact ih (fun p hp => hpres p (mem_cons_of_mem _ hp)) hrest (n + 1)
      · rw [TextDecode.decode_of_not_marked hmarked, length_map, length_packRange hstop,
          if_neg (by omega), ← map_drop, drop_packRange pack hle, mapM_byteOfChar_map]
        rfl

/-- If every window begins with one, the read is given up. -/
theorem syncRangeFrom_notBinary (hstart : start ≤ stop) (hstop : stop ≤ pack.length)
    (hpres : ∀ pre ∈ pres, pre ≤ start)
    (h : ∀ pre ∈ pres, TextDecode.Marked (packRange pack (start - pre) stop)) (n : ℕ) :
    (syncRangeFrom pack (fun _ => .partialContent) start stop pres n).1 =
      .error (.notBinary start stop) := by
  induction pres generalizing n with
  | nil => rfl
  | cons pre rest ih =>
    have hle := hpres pre mem_cons_self
    have hshort := TextDecode.decode_length_lt (h pre mem_cons_self)
    rw [length_packRange hstop] at hshort
    rw [syncRangeFrom, if_neg (by omega)]
    dsimp only
    rw [if_pos (by omega)]
    exact ih (fun p hp => hpres p (mem_cons_of_mem _ hp))
      (fun p hp => h p (mem_cons_of_mem _ hp)) (n + 1)

def Alternates (bs : List UInt8) : Prop :=
  bs.take 6 = [0xFE, 0xFF, 0xFE, 0xFF, 0xFE, 0xFF] ∨
    bs.take 6 = [0xFF, 0xFE, 0xFF, 0xFE, 0xFF, 0xFE]

theorem marked_cons {b : UInt8} {bs : List UInt8} (h : TextDecode.Marked (b :: bs))
    (hnext : TextDecode.Marked bs) :
    b = 0xFE ∧ bs.head? = some 0xFF ∨ b = 0xFF ∧ bs.head? = some 0xFE := by
  unfold TextDecode.Marked at h
  split at h
  · rename_i heq
    cases heq
    exact hnext.elim
  · rename_i heq
    cases heq
    exact .inl ⟨rfl, rfl⟩
  · rename_i heq
    cases heq
    exact .inr ⟨rfl, rfl⟩
  · exact h.elim

theorem marked_head {b : UInt8} {bs : List UInt8} (h : TextDecode.Marked (b :: bs))
    (hb : b = 0xFE ∨ b = 0xFF) :
    ∃ rest, b = 0xFE ∧ bs = 0xFF :: rest ∨ b = 0xFF ∧ bs = 0xFE :: rest := by
  unfold TextDecode.Marked at h
  split at h
  · rename_i heq
    cases heq
    exact absurd hb (by decide)
  · rename_i heq
    cases heq
    exact ⟨_, .inl ⟨rfl, rfl⟩⟩
  · rename_i heq
    cases heq
    exact ⟨_, .inr ⟨rfl, rfl⟩⟩
  · exact h.elim

theorem alternates_iff (bs : List UInt8) :
    Alternates bs ↔ ∀ i ≤ 4, TextDecode.Marked (bs.drop i) := by
  constructor
  · rintro (h | h) i hi
    all_goals
      rw [← take_append_drop 6 bs, h]
      match i, hi with
      | 0, _ => trivial
      | 1, _ => trivial
      | 2, _ => trivial
      | 3, _ => trivial
      | 4, _ => trivial
  · intro h
    match bs, h with
    | [], h => exact (h 0 (by omega)).elim
    | [_], h => exact (h 1 (by omega)).elim
    | [_, _], h => exact (h 2 (by omega)).elim
    | [_, _, _], h => exact (h 3 (by omega)).elim
    | [_, _, _, _], h => exact (h 4 (by omega)).elim
    | b₀ :: b₁ :: b₂ :: b₃ :: b₄ :: rest, h =>
      have h₀ := marked_cons (h 0 (by omega)) (h 1 (by omega))
      have h₁ := marked_cons (h 1 (by omega)) (h 2 (by omega))
      have h₂ := marked_cons (h 2 (by omega)) (h 3 (by omega))
      have h₃ := marked_cons (h 3 (by omega)) (h 4 (by omega))
      simp only [head?_cons, Option.some.injEq] at h₀ h₁ h₂ h₃
      obtain ⟨rest', h₄⟩ := marked_head (h 4 (by omega)) (by
        rcases h₃ with h₃ | h₃
        · exact .inr h₃.2
        · exact .inl h₃.2)
      -- the first byte determines all others
      rcases h₀ with ⟨rfl, rfl⟩ | ⟨rfl, rfl⟩
      · obtain ⟨-, rfl⟩ := h₁.resolve_left (by simp)
        obtain ⟨-, rfl⟩ := h₂.resolve_right (by simp)
        obtain ⟨-, rfl⟩ := h₃.resolve_left (by simp)
        obtain ⟨-, rfl⟩ := h₄.resolve_right (by simp)
        exact .inl rfl
      · obtain ⟨-, rfl⟩ := h₁.resolve_right (by simp)
        obtain ⟨-, rfl⟩ := h₂.resolve_left (by simp)
        obtain ⟨-, rfl⟩ := h₃.resolve_right (by simp)
        obtain ⟨-, rfl⟩ := h₄.resolve_left (by simp)
        exact .inr rfl

theorem drop_packRange_sub (pack : List UInt8) {i : ℕ} (h : 4 ≤ start) (hi : i ≤ 4) :
    (packRange pack (start - 4) stop).drop i = packRange pack (start - (4 - i)) stop := by
  have hwindow : (packRange pack (start - (4 - i) - i) stop).drop i =
      packRange pack (start - (4 - i)) stop := drop_packRange pack (by omega)
  rwa [show start - (4 - i) - i = start - 4 by omega] at hwindow

/-- From offset 4 on, a range is read whatever the requests do, unless the six bytes from
four before it on alternate between FE and FF. -/
theorem syncRange_reads_iff {pack : List UInt8} {start stop : ℕ} (h : 4 ≤ start)
    (hstart : start < stop) (hstop : stop ≤ pack.length) :
    (∀ net n, RangeRead pack start stop (syncRange pack net start stop n).1) ↔
      ¬ Alternates (packRange pack (start - 4) stop) := by
  have hpres : ∀ pre ∈ [0, 1, 2, 3, 4], pre ≤ start := by
    intro pre hpre
    simp only [mem_cons, not_mem_nil, or_false] at hpre
    omega
  constructor
  · intro hread halt
    rw [alternates_iff] at halt
    have hall : ∀ pre ∈ [0, 1, 2, 3, 4],
        TextDecode.Marked (packRange pack (start - pre) stop) := by
      intro pre hpre
      have hle : pre ≤ 4 := by
        simp only [mem_cons, not_mem_nil, or_false] at hpre
        omega
      have hwindow := halt (4 - pre) (by omega)
      rwa [drop_packRange_sub pack h (by omega), show 4 - (4 - pre) = pre by omega] at hwindow
    have hgiven := hread (fun _ => .partialContent) 0
    rw [syncRange, syncRangeFrom_notBinary (by omega) hstop hpres hall] at hgiven
    exact hgiven
  · intro halt net n
    rw [alternates_iff, not_forall] at halt
    obtain ⟨i, hi⟩ := halt
    rw [Classical.not_imp] at hi
    refine syncRangeFrom_read (by omega) hstop net hpres ⟨4 - i, ?_, ?_⟩ n
    · have hle := hi.1
      simp only [mem_cons, not_mem_nil, or_false]
      omega
    · rw [← drop_packRange_sub pack h hi.1]
      exact hi.2

/-- A range at offset 4 that is read. -/
theorem syncRange_reads_iff_sample :
    RangeRead [0, 1, 2, 3, 0xFE, 0xFF] 4 6
      (syncRange [0, 1, 2, 3, 0xFE, 0xFF] (fun _ => .partialContent) 4 6 0).1 :=
  (syncRange_reads_iff (by decide) (by decide) (by decide)).mpr (by unfold Alternates; decide) _ _

/-- A range whose bytes make the read give up. -/
theorem alternating_bytes_given_up :
    (syncRange [0xFF, 0xFE, 0xFF, 0xFE, 0xFF, 0xFE] (fun _ => .partialContent) 4 6 0).1 =
      .error (.notBinary 4 6) :=
  rfl

end Bootbox.LazyPack
