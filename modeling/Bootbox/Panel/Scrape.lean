import Mathlib.Algebra.GroupWithZero.Nat
import Mathlib.Data.List.DropRight
import Mathlib.Data.List.Infix

/-!
How the panel runs a command in the guest (`readBuf` and `scrape` of `panel.js`): it types the
command between two `printf`s of markers and reads its output back from the rows of the
terminal.

The terminal breaks a line that is longer than its width into rows, the later ones marked as
wrapped, and keeps the last rows only. A character takes one cell, two if it is wide, or none:
then it joins the one before it, and in the first column, where there is none, it may be lost.
What control characters do to the rows is a parameter, of which only one thing is assumed, that
no cell ever holds a control character.
-/

namespace Bootbox.Panel

open List

/-! ### The terminal -/

structure Row where
  text : List Char
  isWrapped : Bool
  deriving DecidableEq

/-- The rows written so far; the cursor is at the end of the last one. -/
structure Screen where
  above : List Row
  row : Row
  deriving DecidableEq

def Screen.rows (s : Screen) : List Row := s.above ++ [s.row]

/-- A character that the terminal acts on and does not show. A byte order mark is dropped by its
decoders. -/
def isControl (c : Char) : Bool :=
  c.toNat < 32 || (127 ≤ c.toNat && c.toNat < 160) || c.toNat = 0xfeff

def Shown (rows : List Row) : Prop := ∀ r ∈ rows, ∀ c ∈ r.text, isControl c = false

structure Terminal where
  width : ℕ
  width_ge : 3 ≤ width
  /-- How many rows the screen has. -/
  height : ℕ
  scrollback : ℕ
  /-- `wcwidth` -/
  cells : Char → ℕ
  cells_le : ∀ c, cells c ≤ 2
  cells_ascii : ∀ c : Char, 32 ≤ c.toNat → c.toNat < 127 → cells c = 1
  /-- What becomes of the screen when a text with control characters is printed. -/
  emulate : Screen → List Char → Screen
  shown_emulate : ∀ s text, Shown s.rows → Shown (emulate s text).rows

/-- A terminal that shows every character in one cell. -/
def usualTerminal : Terminal where
  width := 80
  width_ge := by decide
  height := 24
  scrollback := 10000
  cells _ := 1
  cells_le _ := by decide
  cells_ascii _ _ _ := rfl
  emulate s _ := s
  shown_emulate _ _ h := h

def isPlain (text : List Char) : Bool := text.all fun c => c = '\n' || !isControl c

/-- Where the cursor is in its line: in the first column, behind a character without width that is
there, or further on. -/
inductive Cursor
  | first
  | zero (z : Char)
  | later

namespace Terminal

variable (t : Terminal)

/-- What a character adds to what can be read of a line. One without width that is in the first
column has a cell of no width, which cannot be joined and is read only when another follows. -/
def see (cur : Cursor) (c : Char) : List Char × Cursor :=
  if c = '\n' then (['\n'], .first)
  else
    match cur with
    | .first => if t.cells c = 0 then ([], .zero c) else ([c], .later)
    | .zero z => if t.cells c = 0 then ([], .zero z) else ([z, c], .later)
    | .later => ([c], .later)

def seen : Cursor → List Char → List Char
  | _, [] => []
  | cur, c :: text => (t.see cur c).1 ++ seen (t.see cur c).2 text

def cursor (cur : Cursor) (text : List Char) : Cursor :=
  text.foldl (fun cur c => (t.see cur c).2) cur

/-- How many columns a row has filled. -/
def column : List Char → ℕ
  | [] => 0
  | c :: text => max 1 (t.cells c) + (text.map t.cells).sum

/-- The terminal prints a character; a newline also takes the cursor to the first column. -/
def put (s : Screen) (c : Char) : Screen :=
  if c = '\n' then ⟨s.rows, ⟨[], false⟩⟩
  else if t.column s.row.text + t.cells c ≤ t.width then
    ⟨s.above, ⟨s.row.text ++ [c], s.row.isWrapped⟩⟩
  else ⟨s.rows, ⟨[c], true⟩⟩

def print (s : Screen) (text : List Char) : Screen :=
  if isPlain text then (t.seen (if s.row.text = [] then .first else .later) text).foldl t.put s
  else t.emulate s text

def capacity : ℕ := t.scrollback + t.height

/-- `xt.buffer.active`: the last rows, with the empty ones under the cursor. -/
def buffer (s : Screen) : List Row :=
  let rows := s.rows ++ replicate (t.height - s.rows.length) ⟨[], false⟩
  rows.drop (rows.length - t.capacity)

end Terminal

/-! ### Reading it -/

/-- A turn of the loop of `readBuf`. -/
def joinRow (s : List Char) (r : Row) : List Char :=
  if r.isWrapped = true ∧ s.getLast? = some '\n' then s.dropLast ++ r.text ++ ['\n']
  else s ++ r.text ++ ['\n']

def joinRows (rows : List Row) : List Char := rows.foldl joinRow []

def readBuf (maxLines : ℕ) (b : List Row) : List Char :=
  joinRows (b.drop (if maxLines ≠ 0 ∧ maxLines < b.length then b.length - maxLines else 0))

/-- `s.lastIndexOf(pat)` -/
def lastIndexOf (pat : List Char) : List Char → Option ℕ
  | [] => if pat = [] then some 0 else none
  | c :: s =>
    match lastIndexOf pat s with
    | some i => some (i + 1)
    | none => if pat <+: c :: s then some 0 else none

/-- The random part of `SESS`, the same for all commands of a panel, and the number of a command. -/
structure Mark where
  random : List Char
  random_digits : ∀ c ∈ random, c.isDigit ∨ c.isLower
  n : ℕ

theorem digits_oneZ : ∀ c ∈ ['1', 'z'], c.isDigit ∨ c.isLower :=
  forall_mem_cons.mpr ⟨.inl rfl, forall_mem_singleton.mpr (.inr rfl)⟩

namespace Mark

def sess (m : Mark) : List Char := 'Q' :: 'F' :: m.random ++ ['_']

/-- `B` -/
def begin (m : Mark) : List Char := m.sess ++ 'B' :: Nat.toDigits 10 m.n

/-- `E` -/
def finish (m : Mark) : List Char := m.sess ++ 'E' :: Nat.toDigits 10 m.n

end Mark

def between (m : Mark) (buf : List Char) : Option (List Char) :=
  match lastIndexOf (m.begin ++ ['\n']) buf, lastIndexOf (m.finish ++ ['\n']) buf with
  | some bi, some ei =>
    if bi < ei then some ((buf.take ei).drop (bi + (m.begin ++ ['\n']).length)) else none
  | _, _ => none

/-- `poll` reads the last rows and, if the markers are not in them, all. -/
def poll (m : Mark) (win : ℕ) (b : List Row) : Option (List Char) :=
  match between m (readBuf win b) with
  | some text => some text
  | none => if win ≠ 0 then between m (readBuf 0 b) else none

/-- `\s` -/
def isSpace (c : Char) : Bool :=
  c.toNat ∈ [9, 10, 11, 12, 13, 32, 0xa0, 0x1680, 0x2028, 0x2029, 0x202f, 0x205f, 0x3000, 0xfeff] ||
    (0x2000 ≤ c.toNat && c.toNat ≤ 0x200a)

/-- The lines without the session's name, without what is blank at the end. -/
def clean (sess text : List Char) : List Char :=
  (intercalate ['\n'] ((text.splitOn '\n').filter fun l => ¬ sess <:+: l)).rdropWhile isSpace

def stillWorking : List Char :=
  ("(still working — the output is streaming in the terminal above; " ++
    "scroll up to watch it finish)").toList

/-- How a command goes: there is no terminal, another command is running, or this is what has been
printed at each time the terminal is read, until it times out. -/
inductive Pty
  | notReady
  | busy
  | polled (texts : List (List Char))

/-- `scrape`, on a terminal that shows `s` when the command is typed. -/
def scrape (t : Terminal) (m : Mark) (win : ℕ) (s : Screen) : Pty → Option (List Char)
  | .notReady => none
  | .busy => some "__BUSY__".toList
  | .polled texts =>
    match texts.findSome? fun text => poll m win (t.buffer (t.print s text)) with
    | some text => some (clean m.sess text)
    | none => some stillWorking

/-! ### Wrapping is undone -/

theorem joinRow_append {p q : List Char} (hq : q ≠ []) (r : Row) :
    joinRow (p ++ q) r = p ++ joinRow q r := by
  rw [joinRow, joinRow, getLast?_append_of_ne_nil p hq, dropLast_append_of_ne_nil hq]
  split <;> simp

theorem joinRow_ne_nil (s : List Char) (r : Row) : joinRow s r ≠ [] := by
  rw [joinRow]
  split <;> simp

theorem foldl_joinRow_append {p q : List Char} (hq : q ≠ []) (rows : List Row) :
    rows.foldl joinRow (p ++ q) = p ++ rows.foldl joinRow q := by
  induction rows generalizing q with
  | nil => rfl
  | cons r rows ih =>
    rw [foldl_cons, foldl_cons, joinRow_append hq]
    exact ih (joinRow_ne_nil q r)

theorem joinRow_eq (s : List Char) (r : Row) : ∃ p, p <+: s ∧ joinRow s r = p ++ joinRow [] r := by
  by_cases hwrap : r.isWrapped = true ∧ s.getLast? = some '\n'
  · exact ⟨s.dropLast, dropLast_prefix s, by simp [joinRow, hwrap]⟩
  · exact ⟨s, prefix_rfl, by rw [joinRow, if_neg hwrap]; simp [joinRow]⟩

theorem joinRows_suffix (a b : List Row) : joinRows b <:+ joinRows (a ++ b) := by
  cases b with
  | nil => exact nil_suffix
  | cons r b =>
    obtain ⟨p, -, hp⟩ := joinRow_eq (joinRows a) r
    refine ⟨p, ?_⟩
    rw [joinRows, joinRows, foldl_append, foldl_cons, foldl_cons]
    rw [joinRows] at hp
    rw [hp, foldl_joinRow_append (joinRow_ne_nil [] r)]

theorem joinRows_concat (rows : List Row) (r : Row) :
    joinRows (rows ++ [r]) = joinRow (joinRows rows) r := by
  rw [joinRows, foldl_append]
  rfl

def Screen.text (s : Screen) : List Char := (joinRows s.rows).dropLast

theorem joinRow_concat (s : List Char) (r : Row) : ∃ p, joinRow s r = p ++ ['\n'] := by
  rw [joinRow]
  split
  · exact ⟨_, rfl⟩
  · exact ⟨_, rfl⟩

theorem Screen.joinRows_rows (s : Screen) : joinRows s.rows = s.text ++ ['\n'] := by
  obtain ⟨p, hp⟩ := joinRow_concat (joinRows s.above) s.row
  rw [Screen.text, Screen.rows, joinRows_concat, hp, dropLast_concat]

theorem joinRow_snoc (s text : List Char) (c : Char) (wrapped : Bool) :
    joinRow s ⟨text ++ [c], wrapped⟩ = (joinRow s ⟨text, wrapped⟩).dropLast ++ [c] ++ ['\n'] := by
  rw [joinRow, joinRow]
  split <;> simp [dropLast_append_of_ne_nil]

variable (t : Terminal)

/-- However the rows are broken, printing a character adds it to the text. -/
theorem text_put (s : Screen) (c : Char) : (t.put s c).text = s.text ++ [c] := by
  have hjoin : joinRows (t.put s c).rows = s.text ++ [c] ++ ['\n'] := by
    rw [Terminal.put]
    split
    next hc => rw [Screen.rows, joinRows_concat, s.joinRows_rows, hc, joinRow]; simp
    next =>
      split
      · rw [Screen.rows, joinRows_concat, joinRow_snoc, ← joinRows_concat]
        rfl
      · rw [Screen.rows, joinRows_concat, s.joinRows_rows, joinRow]
        simp
  rw [Screen.text, hjoin, dropLast_concat]

theorem text_foldl_put (s : Screen) (text : List Char) :
    (text.foldl t.put s).text = s.text ++ text := by
  induction text generalizing s with
  | nil => simp
  | cons c text ih => rw [foldl_cons, ih, text_put]; simp

/-! ### Characters without width -/

namespace Terminal

variable {cur : Cursor} {text : List Char}

theorem seen_append (cur : Cursor) (a b : List Char) :
    t.seen cur (a ++ b) = t.seen cur a ++ t.seen (t.cursor cur a) b := by
  induction a generalizing cur with
  | nil => rfl
  | cons c a ih => simp only [cons_append, seen, ih, append_assoc]; rfl

theorem seen_prefix (cur : Cursor) {a b : List Char} (h : a <+: b) :
    t.seen cur a <+: t.seen cur b := by
  obtain ⟨rest, rfl⟩ := h
  rw [seen_append]
  exact prefix_append ..

theorem seen_newline (cur : Cursor) (text : List Char) :
    t.seen cur ('\n' :: text) = '\n' :: t.seen .first text := by
  cases cur <;> rfl

/-- Behind the first column, and before it when nothing without width is there, all is shown. -/
theorem seen_eq_self (hcur : ∀ z, cur ≠ .zero z) (h : ∀ c ∈ text, c = '\n' ∨ t.cells c ≠ 0) :
    t.seen cur text = text ∧ ∀ z, t.cursor cur text ≠ .zero z := by
  induction text generalizing cur with
  | nil => exact ⟨rfl, hcur⟩
  | cons c text ih =>
    rw [forall_mem_cons] at h
    have hsee : (t.see cur c).1 = [c] ∧ ∀ z, (t.see cur c).2 ≠ .zero z := by
      rcases eq_or_ne c '\n' with rfl | hnewline
      · simp [see]
      · cases cur with
        | first => simp [see, hnewline, h.1.resolve_left hnewline]
        | zero z => exact absurd rfl (hcur z)
        | later => simp [see, hnewline]
    obtain ⟨hseen, hcursor⟩ := ih hsee.2 h.2
    exact ⟨by rw [seen, hsee.1, hseen]; rfl, hcursor⟩

end Terminal

/-! ### Finding the markers -/

theorem lastIndexOf_eq_none_iff {pat s : List Char} : lastIndexOf pat s = none ↔ ¬ pat <:+: s := by
  induction s with
  | nil => simp [lastIndexOf]
  | cons c s ih =>
    rw [lastIndexOf, infix_cons_iff]
    split
    next i hi =>
      have hinf : pat <:+: s := by
        by_contra hnot
        simp [ih.mpr hnot] at hi
      simp [hinf]
    next hnone =>
      have hnot := ih.mp hnone
      simp [hnot]

theorem lastIndexOf_append {pat s : List Char} {i : ℕ} (h : lastIndexOf pat s = some i)
    (p : List Char) : lastIndexOf pat (p ++ s) = some (p.length + i) := by
  induction p with
  | nil => simpa using h
  | cons c p ih =>
    rw [cons_append, lastIndexOf, ih]
    simp only [length_cons]
    congr 1
    omega

theorem append_newline_inj {u v q r : List Char} (hu : '\n' ∉ u) (hv : '\n' ∉ v)
    (h : u ++ '\n' :: q = v ++ '\n' :: r) : u = v ∧ q = r := by
  induction u generalizing v with
  | nil =>
    cases v with
    | nil => simpa using h
    | cons d v => exact absurd (mem_cons.mpr (.inl (cons.inj h).1)) hv
  | cons c u ih =>
    cases v with
    | nil => exact absurd (mem_cons.mpr (.inl (cons.inj h).1.symm)) hu
    | cons d v =>
      rw [mem_cons, not_or] at hu hv
      rw [cons_append, cons_append, cons.injEq] at h
      obtain ⟨rfl, rfl⟩ := ih hu.2 hv.2 h.2
      exact ⟨by rw [h.1], rfl⟩

/-- What ends in a newline is found after the last newline before it. -/
theorem not_infix_of_shorter {w u q : List Char} (hw : '\n' ∉ w) (hu : '\n' ∉ u)
    (hlen : u.length < w.length) (hq : ¬ w ++ ['\n'] <:+: q) :
    ¬ w ++ ['\n'] <:+: u ++ '\n' :: q := by
  rintro ⟨a, b, hab⟩
  by_cases ha : '\n' ∈ a
  · obtain ⟨a₁, a₂, rfl, ha₁⟩ := eq_append_cons_of_mem ha
    have heq : a₁ ++ '\n' :: (a₂ ++ (w ++ ['\n']) ++ b) = u ++ '\n' :: q := by simpa using hab
    exact hq ⟨a₂, b, (append_newline_inj ha₁ hu heq).2⟩
  · have heq : (a ++ w) ++ '\n' :: b = u ++ '\n' :: q := by simpa using hab
    have := congrArg length (append_newline_inj (by simp [ha, hw]) hu heq).1
    simp only [length_append] at this
    omega

theorem lastIndexOf_line {w q : List Char} (hne : w ≠ []) (hw : '\n' ∉ w)
    (hq : ¬ w ++ ['\n'] <:+: q) (p : List Char) :
    lastIndexOf (w ++ ['\n']) (p ++ (w ++ '\n' :: q)) = some p.length := by
  obtain ⟨c, w', rfl⟩ := exists_cons_of_ne_nil hne
  have hw' : '\n' ∉ w' := fun h => hw (mem_cons_of_mem c h)
  have htail : lastIndexOf (c :: w' ++ ['\n']) (w' ++ '\n' :: q) = none :=
    lastIndexOf_eq_none_iff.mpr (not_infix_of_shorter hw hw' (by simp) hq)
  have hhead : lastIndexOf (c :: w' ++ ['\n']) (c :: w' ++ '\n' :: q) = some 0 := by
    rw [cons_append, cons_append, lastIndexOf, ← cons_append, htail]
    simp [prefix_append_right_inj]
  simpa using lastIndexOf_append hhead p

namespace Mark

variable (m : Mark)

theorem newline_not_mem_random : '\n' ∉ m.random := by
  intro h
  simpa using m.random_digits _ h

theorem newline_not_mem_number : '\n' ∉ Nat.toDigits 10 m.n := by
  intro h
  simpa using Nat.isDigit_of_mem_toDigits (by decide) (by decide) h

theorem newline_not_mem_begin : '\n' ∉ m.begin := by
  simp [begin, sess, m.newline_not_mem_random, m.newline_not_mem_number]

theorem newline_not_mem_finish : '\n' ∉ m.finish := by
  simp [finish, sess, m.newline_not_mem_random, m.newline_not_mem_number]

end Mark

/-- The text between a line that is the begin marker and the end marker after it. -/
theorem between_eq {m : Mark} {p mid q : List Char}
    (hbegin : ¬ m.begin ++ ['\n'] <:+: mid ++ (m.finish ++ '\n' :: q))
    (hfinish : ¬ m.finish ++ ['\n'] <:+: q) :
    between m (p ++ (m.begin ++ '\n' :: (mid ++ (m.finish ++ '\n' :: q)))) = some mid := by
  have hbi := lastIndexOf_line (by simp [Mark.begin]) m.newline_not_mem_begin hbegin p
  have hei := lastIndexOf_line (by simp [Mark.finish]) m.newline_not_mem_finish hfinish
    (p ++ m.begin ++ '\n' :: mid)
  simp only [append_assoc, cons_append] at hei
  rw [between, hbi, hei]
  simp only [length_append, length_cons, length_nil]
  rw [if_pos (by omega)]
  congr 1
  have hsplit : p ++ (m.begin ++ '\n' :: (mid ++ (m.finish ++ '\n' :: q))) =
      (p ++ m.begin ++ ['\n']) ++ mid ++ (m.finish ++ '\n' :: q) := by simp
  rw [hsplit, take_left' (by simp), drop_left' (by simp)]

end Bootbox.Panel
