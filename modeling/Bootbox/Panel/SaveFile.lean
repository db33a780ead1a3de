import Bootbox.Lib.Base64
import Bootbox.Panel.Answer

/-!
Saving a file of the guest to the iPad (`downloadFile` of `panel.js`): its size is asked for, its
base64 is read from the terminal, decoded, and sent to the host.

The size is only used for a limit: what was decoded is never compared with it. So text that
someone else prints between the markers becomes part of the file that is saved, if it has
letters of base64 and what comes of it can be decoded.
-/

namespace Bootbox.Panel

open Lib.Base64 List Option

/-- `[A-Za-z0-9+/=]` -/
def isBase64 (c : Char) : Bool := c = '=' || (value c).isSome

/-- `parseInt(text, 10)`, where it is a number. -/
def parseInt (text : List Char) : Option ℤ :=
  let number (digits : List Char) : Option ℤ :=
    if (digits.takeWhile Char.isDigit).isEmpty then none
    else some ((digits.takeWhile Char.isDigit).foldl (fun n c => n * 10 + (c.toNat - 48)) 0 : ℕ)
  match text.dropWhile isSpace with
  | '-' :: digits => (number digits).map (- ·)
  | '+' :: digits => number digits
  | digits => number digits

/-- What the panel says in the end: the bytes are in the Files app, or something else. -/
inductive Saved
  | saved (bytes : List UInt8)
  | failed (message : String)
  deriving DecidableEq

inductive Response
  | status (code : ℕ)
  | unavailable (error : String)

structure Saving where
  terminal : Terminal
  /-- The marker of the first of the two commands. -/
  mark : Mark
  /-- The screen when it is typed, and how it goes. -/
  screen : Screen
  stat : Pty
  /-- The same for the second command. -/
  screen' : Screen
  base64 : Pty
  host : Response

namespace Saving

variable (g : Saving)

def mark' : Mark := { g.mark with n := g.mark.n + 1 }

/-- `sz` -/
def size : Option ℤ := (scrape g.terminal g.mark 1500 g.screen g.stat).bind parseInt

/-- `b64` -/
def text : Option (List Char) := scrape g.terminal g.mark' 0 g.screen' g.base64

def downloadFile (name : String) : Saved :=
  match g.size with
  | none => .failed ("Can't read " ++ name)
  | some sz =>
    if sz < 0 then .failed ("Can't read " ++ name)
    else if 32 * 1024 * 1024 < sz then
      .failed ("Too big for the panel (" ++ toString (sz / 1048576) ++
        " MB > 32 MB) — use /share or split it.")
    else
      match g.text with
      | none => .failed "Read failed — try again."
      | some b64 =>
        if b64 = [] ∨ b64 = "__BUSY__".toList then .failed "Read failed — try again."
        else
          match atob (b64.filter isBase64) with
          | none => .failed "Decode failed (not a clean read)."
          | some bin =>
            match g.host with
            | .status code =>
              if 200 ≤ code ∧ code < 300 then .saved bin
              else .failed ("Host save failed: HTTP " ++ toString code)
            | .unavailable error =>
              .failed ("Host save unavailable here (" ++ error ++ ")")

end Saving

/-! ### A console to which others write -/

/-- What is printed between the markers: each character, and whether `base64` has printed it. -/
abbrev Printed := List (Char × Bool)

namespace Printed

variable (p : Printed)

def text : List Char := p.map (·.1)

def own : List Char := (p.filter (·.2)).map (·.1)

def others : List Char := (p.filter (! ·.2)).map (·.1)

end Printed

namespace Saving

variable (g : Saving)

/-- The second command on a shared console: `base64` prints a file, and others print what they
like between its characters, but no control characters and not the panel's marks. -/
structure Shared (file : List UInt8) (p : Printed) (texts : List (List Char)) : Prop where
  own : p.own = encode file
  shown : ∀ c ∈ p.text, c = '\n' ∨ isControl c = false ∧ g.terminal.cells c ≠ 0
  unmarked : ¬ g.mark'.sess <:+: p.text
  polled : g.base64 = .polled texts
  quiet : Quiet g.mark' g.screen' p.text texts

/-- The panel gets as far as to save something: the size is allowed, the begin marker is still in
the buffer when the end marker is read, the letters can be decoded, and the host takes them. -/
structure Passes (p : Printed) (texts : List (List Char)) : Prop where
  size : ∃ sz, g.size = some sz ∧ 0 ≤ sz ∧ sz ≤ 32 * 1024 * 1024
  kept : Kept g.terminal g.mark' g.screen' p.text texts
  notBusy : p.text.rdropWhile isSpace ≠ "__BUSY__".toList
  decodes : atob (p.text.filter isBase64) ≠ none
  host : ∃ code, g.host = .status code ∧ 200 ≤ code ∧ code < 300

end Saving

theorem isBase64_iff {c : Char} : isBase64 c = true ↔ c ∈ '=' :: letters := by
  simp [isBase64, value, isSome_idxOf?]

theorem not_isSpace_of_isBase64 {c : Char} (h : isBase64 c = true) : isSpace c = false := by
  have hall : ('=' :: letters).all (fun c => !isSpace c) = true := by decide +kernel
  exact Bool.not_eq_true' _ ▸ all_eq_true.mp hall c (isBase64_iff.mp h)

theorem filter_rdropWhile_space (text : List Char) :
    (text.rdropWhile isSpace).filter isBase64 = text.filter isBase64 := by
  induction text using reverseRecOn with
  | nil => rfl
  | append_singleton text c ih =>
    rw [rdropWhile_concat]
    split
    next hspace =>
      have hc : isBase64 c = false := by
        by_contra hc
        simp [not_isSpace_of_isBase64 (Bool.not_eq_false _ ▸ hc)] at hspace
      simp [ih, hc]
    next => rfl

/-- When the command times out, what is said of it instead cannot be decoded. -/
theorem atob_stillWorking : atob (stillWorking.filter isBase64) = none := by
  decide +kernel

theorem isBase64_encode (file : List UInt8) : (encode file).filter isBase64 = encode file := by
  rw [filter_eq_self]
  intro c hc
  rw [encode, mem_append] at hc
  rcases hc with hc | hc
  · obtain ⟨v, hv, rfl⟩ := mem_map.mp hc
    simp [isBase64, value_letter (sextets_lt file v hv)]
  · simp [isBase64, (mem_replicate.mp hc).2]

namespace Printed

variable {p : Printed} {file : List UInt8}

theorem length_filter_text (q : Char → Bool) :
    (p.text.filter q).length = (p.own.filter q).length + (p.others.filter q).length := by
  rw [text, own, others]
  induction p with
  | nil => rfl
  | cons x p ih =>
    obtain ⟨c, mine⟩ := x
    cases mine <;> cases hc : q c <;> simp_all <;> omega

theorem filter_text_of_others {q : Char → Bool} (h : p.others.filter q = []) :
    p.text.filter q = p.own.filter q := by
  have hsub : (p.own.filter q).Sublist (p.text.filter q) :=
    (filter_sublist.map _).filter q
  have hlen := length_filter_text (p := p) q
  rw [h, length_nil, Nat.add_zero] at hlen
  exact (hsub.eq_of_length hlen.symm).symm

/-- Letters of others are never decoded to the file: they are too many for its padding, and too
few for another group. -/
theorem others_of_atob (hown : p.own = encode file)
    (h : atob (p.text.filter isBase64) = some file) : p.others.filter isBase64 = [] := by
  obtain ⟨k, hk, hlen, hgroups⟩ := length_of_atob h
  rw [length_filter_text, hown, isBase64_encode, encode, length_append, length_map,
    length_replicate] at hlen hgroups
  rw [← length_eq_zero_iff]
  have hmod := length_sextets_mod file
  omega

end Printed

namespace Saving

variable {g : Saving} {name : String} {file : List UInt8} {p : Printed} {texts : List (List Char)}

/-- What is read as the base64 of the file. -/
theorem Shared.text_cases (h : g.Shared file p texts) :
    (Kept g.terminal g.mark' g.screen' p.text texts ∧ g.text = some (p.text.rdropWhile isSpace)) ∨
      ¬ Kept g.terminal g.mark' g.screen' p.text texts ∧ g.text = some stillWorking := by
  obtain ⟨hseen, hend⟩ := g.terminal.seen_eq_self
    (show ∀ z, Cursor.first ≠ .zero z by simp)
    fun c hc => (h.shown c hc).imp_right And.right
  have hplain : isPlain p.text = true := by
    rw [isPlain, List.all_eq_true]
    intro c hc
    simpa using (h.shown c hc).imp_right And.left
  have hcases := scrape_quiet (t := g.terminal) hplain hend h.unmarked h.quiet 0
  rw [hseen, clean_of_unmarked h.unmarked] at hcases
  rwa [text, h.polled]

/-- A file of three bytes is saved while something is printed. -/
def onConsole (p : Printed) : Saving where
  terminal := usualTerminal
  mark := ⟨['1', 'z'], digits_oneZ, 1⟩
  screen := ⟨[], ⟨[], false⟩⟩
  stat := .polled ["QF1z_B1\n3\nQF1z_E1\n".toList]
  screen' := ⟨[], ⟨[], false⟩⟩
  base64 := .polled [transcript ⟨['1', 'z'], digits_oneZ, 2⟩ p.text []]
  host := .status 200

/-- The base64 of the bytes 1, 2, 3, with a line in the middle of it. -/
def interrupted (line : String) : Printed :=
  [('A', true), ('Q', true)] ++ line.toList.map (·, false) ++ [('I', true), ('D', true)]

theorem shared_onConsole {p : Printed} {file : List UInt8} (hown : p.own = encode file)
    (hplain : isPlain p.text = true) (hunmarked : ¬ (onConsole p).mark'.sess <:+: p.text) :
    (onConsole p).Shared file p [transcript (onConsole p).mark' p.text []] where
  own := hown
  shown c hc := by
    have hshown : c = '\n' ∨ isControl c = false := by
      simpa using all_eq_true.mp hplain c hc
    exact hshown.imp_right fun h => ⟨h, Nat.one_ne_zero⟩
  unmarked := hunmarked
  polled := rfl
  quiet := quiet_transcript _ _

end Saving

end Bootbox.Panel
