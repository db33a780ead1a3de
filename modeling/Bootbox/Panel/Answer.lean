import Bootbox.Lib.Splitting
import Bootbox.Panel.Scrape

/-!
The answer to a command on a console to which nobody else writes: what `scrape` returns is the
command's output, if the begin marker's row is still in the terminal's buffer when the end
marker is there.

The terminal is read while the output is still coming, so every text read is the beginning of
one and the same text. The name of the session is found in it twice, in the two markers.
-/

namespace Bootbox.Panel

open List Option

variable {r : Row} {u v mid : List Char} {c : Char}

/-! ### What is left in the buffer -/

theorem put_append (t : Terminal) (a : List Row) (s : Screen) (c : Char) :
    t.put ⟨a ++ s.above, s.row⟩ c = ⟨a ++ (t.put s c).above, (t.put s c).row⟩ := by
  rw [Terminal.put, Terminal.put]
  split_ifs <;> simp [Screen.rows]

theorem foldl_put_append (t : Terminal) (a : List Row) (s : Screen) (text : List Char) :
    text.foldl t.put ⟨a ++ s.above, s.row⟩ =
      ⟨a ++ (text.foldl t.put s).above, (text.foldl t.put s).row⟩ := by
  induction text generalizing s with
  | nil => rfl
  | cons c text ih => rw [foldl_cons, put_append, ih, foldl_cons]

theorem rows_foldl_put (t : Terminal) (s : Screen) (text : List Char) :
    (text.foldl t.put s).rows = s.above ++ (text.foldl t.put ⟨[], s.row⟩).rows := by
  have h := foldl_put_append t s.above ⟨[], s.row⟩ text
  rw [append_nil] at h
  rw [h, Screen.rows, Screen.rows, append_assoc]

theorem text_single (r : Row) : (Screen.mk [] r).text = r.text := by
  have h := (Screen.mk [] r).joinRows_rows
  simp only [Screen.rows, nil_append, joinRows, foldl_cons, foldl_nil, joinRow, getLast?_nil] at h
  simpa using h.symm

theorem joinRows_append_blank (rows : List Row) (k : ℕ) :
    joinRows (rows ++ replicate k ⟨[], false⟩) = joinRows rows ++ replicate k '\n' := by
  induction k with
  | zero => simp
  | succ k ih =>
    rw [replicate_succ', replicate_succ', ← append_assoc, joinRows_concat, ih, joinRow]
    simp

variable {t : Terminal} {s : Screen} {text : List Char}

/-- What was printed since is still in the buffer. -/
def Fits (t : Terminal) (s : Screen) (text : List Char) : Prop :=
  (text.foldl t.put s).rows.length ≤ s.above.length + t.capacity

instance : Decidable (Fits t s text) := inferInstanceAs (Decidable (_ ≤ _))

theorem readBuf_zero (b : List Row) : readBuf 0 b = joinRows b := by
  simp [readBuf]

theorem buffer_eq (t : Terminal) (s : Screen) :
    t.buffer s = drop (s.rows.length - t.capacity)
      (s.rows ++ replicate (t.height - s.rows.length) ⟨[], false⟩) := by
  have hlen : s.rows.length + (t.height - s.rows.length) - t.capacity =
      s.rows.length - t.capacity := by
    rw [Terminal.capacity]
    omega
  rw [Terminal.buffer, length_append, length_replicate, hlen]

/-- The first row stays where it starts, and is only added to. -/
theorem rows_put_cons (t : Terminal) {rest : List Row} (h : s.rows = r :: rest) (c : Char) :
    ∃ r' rest', (t.put s c).rows = r' :: rest' ∧ r'.isWrapped = r.isWrapped ∧
      r.text <+: r'.text := by
  have hmore : ∀ x, s.rows ++ [x] = r :: (rest ++ [x]) := by simp [h]
  rw [Terminal.put]
  split_ifs
  · exact ⟨r, _, hmore _, rfl, prefix_rfl⟩
  · rw [Screen.rows] at h
    cases habove : s.above with
    | nil =>
      rw [habove, nil_append, cons.injEq] at h
      obtain ⟨rfl, rfl⟩ := h
      exact ⟨_, [], rfl, rfl, prefix_append _ _⟩
    | cons r₀ above =>
      rw [habove, cons_append, cons.injEq] at h
      obtain ⟨rfl, rfl⟩ := h
      exact ⟨_, _, rfl, rfl, prefix_rfl⟩
  · exact ⟨r, _, hmore _, rfl, prefix_rfl⟩

theorem rows_foldl_put_cons (t : Terminal) {rest : List Row} (h : s.rows = r :: rest)
    (text : List Char) :
    ∃ r' rest', (text.foldl t.put s).rows = r' :: rest' ∧ r'.isWrapped = r.isWrapped ∧
      r.text <+: r'.text := by
  induction text generalizing s r rest with
  | nil => exact ⟨r, rest, h, rfl, prefix_rfl⟩
  | cons c text ih =>
    obtain ⟨r₁, rest₁, h₁, hwrap₁, htext₁⟩ := rows_put_cons t h c
    obtain ⟨r₂, rest₂, h₂, hwrap₂, htext₂⟩ := ih h₁
    exact ⟨r₂, rest₂, h₂, hwrap₂.trans hwrap₁, htext₁.trans htext₂⟩

theorem joinRows_append_cons (h : r.isWrapped = false) (a rest : List Row) :
    joinRows (a ++ r :: rest) = joinRows a ++ joinRows (r :: rest) := by
  have hr : joinRow (joinRows a) r = joinRows a ++ joinRow [] r := by simp [joinRow, h]
  rw [joinRows, foldl_append, foldl_cons]
  change foldl joinRow (joinRow (joinRows a) r) rest = _
  rw [hr, foldl_joinRow_append (joinRow_ne_nil [] r)]
  rfl

theorem joinRows_drop_suffix (rows : List Row) (k : ℕ) :
    joinRows (rows.drop k) <:+ joinRows rows := by
  have h := joinRows_suffix (rows.take k) (rows.drop k)
  rwa [take_append_drop] at h

theorem joinRows_cons_cons (r r₁ : Row) (rest : List Row) :
    ∃ p, r.text <+: p ∧ joinRows (r :: r₁ :: rest) = p ++ joinRows (r₁ :: rest) := by
  have hjoin : ∀ p, joinRow (joinRow [] r) r₁ = p ++ joinRow [] r₁ →
      joinRows (r :: r₁ :: rest) = p ++ joinRows (r₁ :: rest) := by
    intro p hp
    rw [joinRows, foldl_cons, foldl_cons, hp, foldl_joinRow_append (joinRow_ne_nil [] r₁)]
    rfl
  cases hwrap : r₁.isWrapped with
  | false => exact ⟨r.text ++ ['\n'], prefix_append _ _, hjoin _ (by simp [joinRow, hwrap])⟩
  | true => exact ⟨r.text, prefix_rfl, hjoin _ (by simp [joinRow, hwrap])⟩

theorem exists_rows (t : Terminal) (text : List Char) (hrow : s.row = ⟨[], false⟩) :
    ∃ r rest, (text.foldl t.put s).rows = s.above ++ r :: rest ∧ r.isWrapped = false ∧
      (∀ c ∈ text.head?, c ≠ '\n' → r.text ≠ []) ∧
      joinRows (r :: rest) = text ++ ['\n'] := by
  obtain ⟨r, rest, hrows, hwrap, -⟩ := rows_foldl_put_cons t (s := ⟨[], s.row⟩) rfl text
  refine ⟨r, rest, by rw [rows_foldl_put, hrows], by rw [hwrap, hrow], ?_, ?_⟩
  · -- the first character is in the first row, which is only added to
    intro c hhead hc hnil
    obtain ⟨text, rfl⟩ : ∃ more, text = c :: more := by
      cases text with
      | nil => cases hhead
      | cons d text => exact ⟨text, by rw [some.inj hhead]⟩
    have hfirst : t.put ⟨[], s.row⟩ c = ⟨[], ⟨[c], false⟩⟩ := by
      have hfits : t.column [] + t.cells c ≤ t.width :=
        (Nat.zero_add _).trans_le ((t.cells_le c).trans (Nat.le_of_succ_le t.width_ge))
      rw [Terminal.put, if_neg hc, hrow, if_pos hfits]
      rfl
    obtain ⟨r', rest', hrows', -, htext⟩ :=
      rows_foldl_put_cons t (s := ⟨[], ⟨[c], false⟩⟩) rfl text
    rw [foldl_cons, hfirst, hrows', cons.injEq] at hrows
    simp [hrows.1, hnil] at htext
  · rw [← hrows, Screen.joinRows_rows, text_foldl_put, text_single, hrow]
    rfl

theorem exists_of_fits (hfits : Fits t s text) (hrow : s.row = ⟨[], false⟩) :
    ∃ j k, readBuf 0 (t.buffer (text.foldl t.put s)) =
      joinRows (s.above.drop j) ++ (text ++ '\n' :: replicate k '\n') := by
  obtain ⟨r, rest, hrows, hwrap, -, htext⟩ := exists_rows t text hrow
  rw [Fits, hrows] at hfits
  refine ⟨(s.above ++ r :: rest).length - t.capacity, t.height - (s.above ++ r :: rest).length, ?_⟩
  rw [readBuf_zero, buffer_eq, hrows, append_assoc, drop_append_of_le_length (by omega),
    cons_append, joinRows_append_cons hwrap, ← cons_append, joinRows_append_blank, htext]
  simp

/-- Else only a part of it is read, not from its first character on. -/
theorem exists_of_not_fits (hfits : ¬ Fits t s text) (hrow : s.row = ⟨[], false⟩)
    (hhead : ∀ c ∈ text.head?, c ≠ '\n') :
    ∃ p, p ≠ [] ∧ text ++ ['\n'] = p ++ readBuf 0 (t.buffer (text.foldl t.put s)) := by
  obtain ⟨r, rest, hrows, -, hne, htext⟩ := exists_rows t text hrow
  rw [Fits, hrows] at hfits
  have hblank : t.height - (s.above ++ r :: rest).length = 0 := by
    rw [Terminal.capacity] at hfits
    omega
  obtain ⟨k, hk⟩ : ∃ k, (s.above ++ r :: rest).length - t.capacity = s.above.length + (k + 1) :=
    ⟨(s.above ++ r :: rest).length - t.capacity - s.above.length - 1, by omega⟩
  rw [readBuf_zero, buffer_eq, hrows, hblank, replicate_zero, append_nil, hk,
    ← drop_drop, drop_left, drop_succ_cons]
  obtain ⟨p, hp⟩ := joinRows_drop_suffix rest k
  cases rest with
  | nil => exact ⟨text ++ ['\n'], by simp, by simp [joinRows]⟩
  | cons r₁ rest =>
    obtain ⟨p', hp', hjoin⟩ := joinRows_cons_cons r r₁ rest
    refine ⟨p' ++ p, ?_, by rw [← htext, hjoin, ← hp, append_assoc]⟩
    cases text with
    | nil => simp [Screen.rows] at hrows
    | cons c text =>
      intro hnil
      rw [(append_eq_nil_iff.mp hnil).1, prefix_nil] at hp'
      exact hne c rfl (hhead c rfl) hp'

/-! ### The name of the session is found in the markers -/

variable {m : Mark} {out after a b : List Char}

/-- What is on the console from the begin marker on. -/
def transcript (m : Mark) (out after : List Char) : List Char :=
  m.begin ++ '\n' :: (out ++ (m.finish ++ '\n' :: after))

theorem found_before_or_after {w : List Char} (hw : '\n' ∉ w) (h : a ++ (w ++ b) = u ++ '\n' :: v) :
    (∃ b', a ++ (w ++ b') = u) ∨ ∃ a', a = u ++ '\n' :: a' ∧ a' ++ (w ++ b) = v := by
  obtain ⟨c, rfl, hc⟩ | ⟨c, rfl, hc⟩ := append_eq_append_iff.mp h
  · obtain ⟨d, rfl, -⟩ | ⟨d, rfl, hd⟩ := append_eq_append_iff.mp hc
    · exact Or.inl ⟨d, rfl⟩
    · cases d with
      | nil => exact Or.inl ⟨[], by simp⟩
      | cons e d =>
        obtain rfl := (cons.inj hd).1
        simp at hw
  · cases c with
    | nil =>
      cases w with
      | nil => exact Or.inl ⟨[], by simp⟩
      | cons e w =>
        obtain rfl := (cons.inj hc).1
        simp at hw
    | cons e c =>
      obtain ⟨rfl, rfl⟩ := cons.inj hc
      exact Or.inr ⟨c, rfl, rfl⟩

theorem Mark.newline_not_mem_sess (m : Mark) : '\n' ∉ m.sess := by
  simp [Mark.sess, m.newline_not_mem_random]

theorem eq_nil_of_append_cons {l : List Char} (hc : c ∉ l) (h : a ++ c :: b = c :: l) : a = [] := by
  cases a with
  | nil => rfl
  | cons d a =>
    rw [cons_append, cons.injEq] at h
    exact absurd (h.2 ▸ by simp) hc

theorem Mark.Q_not_mem_random (m : Mark) : 'Q' ∉ m.random := fun h => by
  simpa using m.random_digits _ h

/-- The name starts with a letter that it has nowhere else, and neither have the numbers. -/
theorem Mark.eq_nil_of_marker (hc : c ≠ 'Q')
    (h : a ++ (m.sess ++ b) = m.sess ++ c :: Nat.toDigits 10 m.n) : a = [] := by
  have hnumber : 'Q' ∉ Nat.toDigits 10 m.n := fun hmem => by
    simpa using Nat.isDigit_of_mem_toDigits (by decide) (by decide) hmem
  refine eq_nil_of_append_cons (c := 'Q') (b := 'F' :: m.random ++ ['_'] ++ b)
    (l := 'F' :: m.random ++ '_' :: c :: Nat.toDigits 10 m.n) ?_ ?_
  · simp [m.Q_not_mem_random, hnumber, hc.symm]
  · simpa [Mark.sess] using h

/-- The end of some text and the start of a name after it do not make up a name. -/
theorem Mark.found_before_or_at (h : a ++ (m.sess ++ b) = u ++ (m.sess ++ v)) :
    (∃ b', a ++ (m.sess ++ b') = u) ∨ ∃ a', a = u ++ a' ∧ a' ++ (m.sess ++ b) = m.sess ++ v := by
  obtain ⟨c, rfl, hc⟩ | ⟨c, rfl, hc⟩ := append_eq_append_iff.mp h
  · obtain ⟨d, rfl, -⟩ | ⟨d, hd, hd'⟩ := append_eq_append_iff.mp hc
    · exact Or.inl ⟨d, rfl⟩
    · cases d with
      | nil => exact Or.inl ⟨[], by simp [hd]⟩
      | cons e d =>
        obtain rfl : e = 'Q' := (cons.inj hd').1.symm
        have hnil : c = [] := by
          refine eq_nil_of_append_cons (c := 'Q') (b := d) (l := 'F' :: m.random ++ ['_']) ?_ ?_
          · simp [m.Q_not_mem_random]
          · rw [← hd, Mark.sess]
            rfl
        subst hnil
        exact Or.inr ⟨[], by simp, hc⟩
  · exact Or.inr ⟨c, rfl, hc.symm⟩

/-- In the transcript the session's name stands in the markers only. -/
theorem eq_of_sess_found (hout : ¬ m.sess <:+: out) (hafter : ¬ m.sess <:+: after)
    (h : a ++ (m.sess ++ b) = transcript m out after) : a = [] ∨ a = m.begin ++ '\n' :: out := by
  have hsess := m.newline_not_mem_sess
  obtain ⟨b', hb'⟩ | ⟨a', rfl, ha'⟩ := found_before_or_after hsess h
  · exact Or.inl (Mark.eq_nil_of_marker (by decide) hb')
  · rw [Mark.finish, append_assoc] at ha'
    obtain ⟨b', hb'⟩ | ⟨a₁, rfl, ha₁⟩ := Mark.found_before_or_at ha'
    · exact absurd ⟨a', b', by simpa using hb'⟩ hout
    · rw [← append_assoc m.sess] at ha₁
      obtain ⟨b', hb'⟩ | ⟨a₂, -, ha₂⟩ := found_before_or_after hsess ha₁
      · rw [Mark.eq_nil_of_marker (by decide) hb', append_nil]
        exact Or.inr rfl
      · exact absurd ⟨a₂, b, by simpa using ha₂⟩ hafter

/-! ### Reading the answer -/

theorem exists_of_lastIndexOf {pat s : List Char} {i : ℕ} (h : lastIndexOf pat s = some i) :
    ∃ a b, s = a ++ (pat ++ b) ∧ a.length = i := by
  induction s generalizing i with
  | nil =>
    rw [lastIndexOf, ite_none_right_eq_some] at h
    obtain ⟨rfl, h⟩ := h
    exact ⟨[], [], rfl, some.inj h⟩
  | cons c s ih =>
    rw [lastIndexOf] at h
    split at h
    next j hj =>
      obtain ⟨a, b, rfl, rfl⟩ := ih hj
      exact ⟨c :: a, b, rfl, some.inj h⟩
    next =>
      rw [ite_none_right_eq_some] at h
      obtain ⟨⟨b, hb⟩, h⟩ := h
      exact ⟨[], b, hb.symm, some.inj h⟩

/-- Where the markers are found, the end marker is after the begin marker. -/
theorem exists_of_between {buf : List Char} (h : between m buf = some mid) :
    ∃ x y, buf = x ++ (m.begin ++ '\n' :: y) ∧ m.finish ++ ['\n'] <:+: y := by
  rw [between] at h
  split at h
  next bi ei hbi hei =>
    obtain ⟨x, y, hx, rfl⟩ := exists_of_lastIndexOf hbi
    obtain ⟨x', y', hx', rfl⟩ := exists_of_lastIndexOf hei
    rw [ite_none_right_eq_some] at h
    rw [hx, append_eq_append_iff] at hx'
    rw [append_assoc, singleton_append] at hx
    refine ⟨x, y, hx, ?_⟩
    obtain ⟨a, rfl, ha⟩ | ⟨a, rfl, -⟩ := hx'
    · have hfound : a ++ (m.sess ++ ('E' :: Nat.toDigits 10 m.n ++ '\n' :: y')) =
          m.begin ++ '\n' :: y := by
        simpa [Mark.finish] using ha.symm
      obtain ⟨b', hb'⟩ | ⟨a', -, ha'⟩ := found_before_or_after m.newline_not_mem_sess hfound
      · obtain rfl := Mark.eq_nil_of_marker (by decide) hb'
        simp at h
      · exact ⟨a', y', by simpa [Mark.finish] using ha'⟩
    · simp only [length_append] at h
      omega
  next => cases h

theorem between_append {buf : List Char} (h : between m buf = some mid) (p : List Char) :
    between m (p ++ buf) = some mid := by
  rw [between] at h
  split at h
  next bi ei hbi hei =>
    rw [ite_none_right_eq_some] at h
    obtain ⟨hlt, hmid⟩ := h
    rw [← hmid, between, lastIndexOf_append hbi, lastIndexOf_append hei]
    dsimp only
    rw [if_pos (by omega), take_length_add_append, Nat.add_assoc, drop_length_add_append]
  next => cases h

/-- The last rows are read first, but the markers found there are those of the whole text. -/
theorem poll_eq (win : ℕ) (b : List Row) : poll m win b = between m (readBuf 0 b) := by
  obtain ⟨p, hp⟩ : readBuf win b <:+ readBuf 0 b := by
    rw [readBuf_zero, readBuf]
    exact joinRows_drop_suffix b _
  rw [poll]
  split
  next mid hmid => rw [← hp, between_append hmid]
  next hnone =>
    by_cases hwin : win = 0
    · subst hwin
      simp [hnone]
    · rw [if_pos hwin]

theorem Mark.begin_ne_finish {x y : List Char} : m.begin ++ x ≠ m.finish ++ y := by
  intro h
  simp [Mark.begin, Mark.finish] at h

theorem joinRows_cases (rows : List Row) :
    joinRows rows = [] ∨ ∃ p, joinRows rows = p ++ ['\n'] := by
  induction rows using reverseRecOn with
  | nil => exact Or.inl rfl
  | append_singleton rows r =>
    rw [joinRows_concat]
    exact Or.inr (joinRow_concat _ r)

/-- A marker's line is in what was there before or in what follows. -/
theorem found_of_not_infix {w : List Char} (hw : '\n' ∉ w) (hu : u = [] ∨ ∃ u', u = u' ++ ['\n'])
    (hnot : ¬ w ++ ['\n'] <:+: u) (h : a ++ (w ++ '\n' :: b) = u ++ v) :
    ∃ a', a = u ++ a' ∧ a' ++ (w ++ '\n' :: b) = v := by
  obtain rfl | ⟨u, rfl⟩ := hu
  · exact ⟨a, rfl, h⟩
  · rw [append_assoc, singleton_append] at h
    obtain ⟨b', rfl⟩ | ⟨a', rfl, ha'⟩ := found_before_or_after hw h
    · -- the newline after it is there too
      have hrest : '\n' :: b = b' ++ '\n' :: v := by simpa using h
      refine absurd ?_ hnot
      cases b' with
      | nil => exact ⟨a, [], by simp⟩
      | cons c b' =>
        obtain rfl := (cons.inj hrest).1
        exact ⟨a, b' ++ ['\n'], by simp⟩
    · exact ⟨a', by simp, ha'⟩

theorem head_transcript (htext : text <+: transcript m out after) : ∀ c ∈ text.head?, c ≠ '\n' := by
  intro c hc
  cases text with
  | nil => cases hc
  | cons d text =>
    obtain ⟨rest, hrest⟩ := htext
    obtain rfl := some.inj hc
    have hd : d = 'Q' := (cons.inj hrest).1
    rw [hd]
    decide

/-- While the end marker is not printed, or when the begin marker is lost, nothing is found. -/
theorem complete_of_between (hout : ¬ m.sess <:+: out) (hafter : ¬ m.sess <:+: after)
    (hrow : s.row = ⟨[], false⟩) (hfresh : ¬ m.begin ++ ['\n'] <:+: joinRows s.above)
    (htext : text <+: transcript m out after)
    (h : between m (readBuf 0 (t.buffer (text.foldl t.put s))) = some mid) :
    Fits t s text ∧ m.begin ++ '\n' :: (out ++ m.finish) <+: text := by
  obtain ⟨x, y, hbuf, y₁, y₂, rfl⟩ := exists_of_between h
  obtain ⟨rest, hrest⟩ := htext
  by_cases hfits : Fits t s text
  · refine ⟨hfits, ?_⟩
    obtain ⟨j, k, hread⟩ := exists_of_fits hfits hrow
    rw [hread] at hbuf
    obtain ⟨x', -, hx'⟩ := found_of_not_infix m.newline_not_mem_begin (joinRows_cases _)
      (fun hinf => hfresh (hinf.trans (joinRows_drop_suffix _ j).isInfix)) hbuf.symm
    -- the second occurrence of the session's name is in the end marker
    have hfinish : (x' ++ m.begin ++ '\n' :: y₁) ++ (m.finish ++ '\n' :: y₂) =
        text ++ '\n' :: replicate k '\n' := by
      simpa using hx'
    obtain ⟨b', hb'⟩ | ⟨a', -, ha'⟩ := found_before_or_after m.newline_not_mem_finish hfinish
    · have hsess : (x' ++ m.begin ++ '\n' :: y₁) ++
          (m.sess ++ ('E' :: Nat.toDigits 10 m.n ++ b' ++ rest)) = transcript m out after := by
        rw [← hrest, ← hb']
        simp [Mark.finish]
      obtain hnil | heq := eq_of_sess_found hout hafter hsess
      · simp at hnil
      · rw [← hb', heq]
        exact ⟨b', by simp⟩
    · have hQ : 'Q' ∈ replicate k '\n' := by
        rw [← ha']
        simp [Mark.finish, Mark.sess]
      simp at hQ
  · obtain ⟨p, hp, hread⟩ := exists_of_not_fits hfits hrow (head_transcript ⟨rest, hrest⟩)
    rw [hbuf, ← append_assoc] at hread
    obtain ⟨b', hb'⟩ | ⟨a', -, ha'⟩ := found_before_or_after m.newline_not_mem_begin hread.symm
    · have hsess : (p ++ x) ++ (m.sess ++ ('B' :: Nat.toDigits 10 m.n ++ b' ++ rest)) =
          transcript m out after := by
        rw [← hrest, ← hb']
        simp [Mark.begin]
      obtain hnil | heq := eq_of_sess_found hout hafter hsess
      · exact absurd (append_eq_nil_iff.mp hnil).1 hp
      · rw [heq] at hb'
        rw [← hb', transcript] at hrest
        simp only [append_assoc, cons_append, append_cancel_left_eq, cons.injEq, true_and] at hrest
        exact absurd hrest Mark.begin_ne_finish
    · simp [Mark.begin] at ha'

/-- The newlines that are read after the text do not make up a name. -/
theorem sess_not_infix_append {after' : List Char} (hafter : ¬ m.sess <:+: after')
    (k : ℕ) : ¬ m.sess <:+: after' ++ '\n' :: replicate k '\n' := by
  rintro ⟨a, b, h⟩
  rw [append_assoc] at h
  obtain ⟨b', hb'⟩ | ⟨a', -, ha'⟩ := found_before_or_after m.newline_not_mem_sess h
  · exact hafter ⟨a, b', by simpa using hb'⟩
  · have hQ : 'Q' ∈ replicate k '\n' := by
      rw [← ha']
      simp [Mark.sess]
    simp at hQ

theorem between_transcript {q : List Char} (hout : ¬ m.sess <:+: out) (hq : ¬ m.sess <:+: q)
    (p : List Char) :
    between m (p ++ transcript m out q) = some out := by
  refine between_eq ?_ ?_
  · rintro ⟨a, b, h⟩
    have hsess : (m.begin ++ '\n' :: a) ++ (m.sess ++ ('B' :: Nat.toDigits 10 m.n ++ '\n' :: b)) =
        transcript m out q := by
      rw [transcript, ← h]
      simp [Mark.begin]
    obtain hnil | heq := eq_of_sess_found hout hq hsess
    · simp at hnil
    · obtain rfl : a = out := by simpa using heq
      rw [append_assoc, append_assoc, append_cancel_left_eq] at h
      exact Mark.begin_ne_finish h
  · rintro ⟨a, b, h⟩
    exact hq ⟨a, 'E' :: Nat.toDigits 10 m.n ++ '\n' :: b, by rw [← h]; simp [Mark.finish]⟩

theorem between_of_complete (hout : ¬ m.sess <:+: out) (hafter : ¬ m.sess <:+: after)
    (hrow : s.row = ⟨[], false⟩)
    (htext : text <+: transcript m out after) (hfits : Fits t s text)
    (hcomplete : m.begin ++ '\n' :: (out ++ m.finish) <+: text) :
    between m (readBuf 0 (t.buffer (text.foldl t.put s))) = some out := by
  obtain ⟨rest, rfl⟩ := hcomplete
  obtain ⟨j, k, hread⟩ := exists_of_fits hfits hrow
  have hrest : rest <+: '\n' :: after := by
    simpa [transcript, prefix_append_right_inj] using htext
  -- after the end marker there is a newline, printed or put there by `readBuf`
  obtain ⟨q, hq, hq'⟩ : ∃ q, rest ++ '\n' :: replicate k '\n' = '\n' :: q ∧ ¬ m.sess <:+: q := by
    cases rest with
    | nil =>
      refine ⟨replicate k '\n', rfl, ?_⟩
      intro hinf
      have hQ : 'Q' ∈ replicate k '\n' := hinf.subset (by simp [Mark.sess])
      simp at hQ
    | cons c rest =>
      obtain ⟨rfl, hpre⟩ := cons_prefix_cons.mp hrest
      exact ⟨_, rfl, sess_not_infix_append (fun hinf => hafter (hinf.trans hpre.isInfix)) k⟩
  have hall : m.begin ++ '\n' :: (out ++ m.finish) ++ rest ++ '\n' :: replicate k '\n' =
      transcript m out q := by
    rw [append_assoc, hq, transcript]
    simp
  rw [hread, hall]
  exact between_transcript hout hq' _

/-- The guest's console while a command runs and nobody else prints: the texts read are beginnings
of its transcript, and one of them has the end marker. -/
structure Quiet (m : Mark) (s : Screen) (out : List Char) (texts : List (List Char)) : Prop where
  row : s.row = ⟨[], false⟩
  fresh : ¬ m.begin ++ ['\n'] <:+: joinRows s.above
  shown : Shown s.rows
  printed : ∃ after, isPlain after = true ∧ ¬ m.sess <:+: after ∧
    ∀ text ∈ texts, text <+: transcript m out after
  complete : ∃ text ∈ texts, m.begin ++ '\n' :: (out ++ m.finish) <+: text

/-- A transcript alone on an empty screen. -/
theorem quiet_transcript (m : Mark) (out : List Char) :
    Quiet m ⟨[], ⟨[], false⟩⟩ out [transcript m out []] where
  row := rfl
  fresh := by simp [joinRows]
  shown := by simp [Shown, Screen.rows]
  printed := ⟨[], rfl, by simp [Mark.sess], by simp⟩
  complete := ⟨_, mem_singleton_self _, ['\n'], by simp [transcript]⟩

/-- The begin marker is still in the buffer at a time when the end marker is there. -/
def Kept (t : Terminal) (m : Mark) (s : Screen) (out : List Char)
    (texts : List (List Char)) : Prop :=
  ∃ text ∈ texts, m.begin ++ '\n' :: (out ++ m.finish) <+: text ∧ Fits t s (t.seen .first text)

theorem isPlain_append (a b : List Char) : isPlain (a ++ b) = (isPlain a && isPlain b) := by
  simp [isPlain]

/-! ### The markers are shown -/

def Ascii (c : Char) : Prop := 32 ≤ c.toNat ∧ c.toNat < 127

instance (c : Char) : Decidable (Ascii c) := inferInstanceAs (Decidable (_ ∧ _))

theorem isPlain_of_ascii (h : ∀ c ∈ text, Ascii c) : isPlain text = true := by
  rw [isPlain, List.all_eq_true]
  intro c hc
  obtain ⟨hlo, hhi⟩ := h c hc
  simp only [isControl, Bool.or_eq_true, Bool.not_eq_true', Bool.or_eq_false_iff,
    Bool.and_eq_false_iff, decide_eq_false_iff_not]
  right
  omega

theorem Terminal.cells_ne_zero (t : Terminal) (h : Ascii c) : t.cells c ≠ 0 := by
  rw [t.cells_ascii c h.1 h.2]
  decide

theorem ascii_of_between (lo hi : Char) (hlo : 32 ≤ lo.val.toNat) (hhi : hi.val.toNat < 127)
    (h : (decide (c.val ≥ lo.val) && decide (c.val ≤ hi.val)) = true) : Ascii c := by
  simp only [ge_iff_le, Bool.and_eq_true, decide_eq_true_eq, UInt32.le_iff_toNat_le] at h
  simp only [Ascii, Char.toNat]
  omega

theorem Mark.ascii_marker (hc : Ascii c) : ∀ d ∈ m.sess ++ c :: Nat.toDigits 10 m.n, Ascii d := by
  have hdigit : ∀ d : Char, d.isDigit → Ascii d := fun d hd =>
    ascii_of_between '0' '9' (by decide) (by decide) hd
  have hlower : ∀ d : Char, d.isLower → Ascii d := fun d hd =>
    ascii_of_between 'a' 'z' (by decide) (by decide) hd
  intro d hd
  simp only [Mark.sess, mem_append, mem_cons, not_mem_nil, or_false] at hd
  rcases hd with ((rfl | rfl | hd) | rfl) | rfl | hd
  · decide
  · decide
  · exact (m.random_digits d hd).elim (hdigit d) (hlower d)
  · decide
  · exact hc
  · exact hdigit d (Nat.isDigit_of_mem_toDigits (by decide) (by decide) hd)

theorem Mark.ascii_begin : ∀ d ∈ m.begin, Ascii d := Mark.ascii_marker (by decide)

theorem Mark.ascii_finish : ∀ d ∈ m.finish, Ascii d := Mark.ascii_marker (by decide)

theorem isPlain_transcript (hout : isPlain out = true) (hafter : isPlain after = true) :
    isPlain (transcript m out after) = true := by
  have hbegin : isPlain m.begin = true := isPlain_of_ascii Mark.ascii_begin
  have hfinish : isPlain m.finish = true := isPlain_of_ascii Mark.ascii_finish
  have hnewline : ∀ text, isPlain ('\n' :: text) = isPlain text := fun text => by simp [isPlain]
  simp [transcript, isPlain_append, hnewline, hbegin, hfinish, hout, hafter]

/-! ### What is seen of a line -/

namespace Terminal

variable {l : List Char} {z : Char}

theorem seen_later (hl : '\n' ∉ l) : t.seen .later l = l := by
  induction l with
  | nil => rfl
  | cons c l ih =>
    rw [mem_cons, not_or] at hl
    simp [seen, see, Ne.symm hl.1, ih hl.2]

theorem seen_zero (hl : '\n' ∉ l) :
    t.seen (.zero z) l = [] ∨ ∃ l', l' <:+ l ∧ t.seen (.zero z) l = z :: l' := by
  induction l with
  | nil => exact .inl rfl
  | cons c l ih =>
    rw [mem_cons, not_or] at hl
    by_cases hc : t.cells c = 0
    · have hseen : t.seen (.zero z) (c :: l) = t.seen (.zero z) l := by
        simp [seen, see, Ne.symm hl.1, hc]
      rw [hseen]
      obtain hnil | ⟨l', hsuffix, heq⟩ := ih hl.2
      · exact .inl hnil
      · exact .inr ⟨l', hsuffix.trans (suffix_cons c l), heq⟩
    · refine .inr ⟨c :: l, suffix_rfl, ?_⟩
      simp [seen, see, Ne.symm hl.1, hc, seen_later hl.2]

/-- A line is seen as it is, or it starts with characters without width: then at most one of them
is seen. -/
theorem seen_line (hl : '\n' ∉ l) : t.seen .first l = l ∨ t.seen .first l = [] ∨
    ∃ z l', t.cells z = 0 ∧ l' <:+ l ∧ t.seen .first l = z :: l' := by
  cases l with
  | nil => exact .inl rfl
  | cons c l =>
    rw [mem_cons, not_or] at hl
    by_cases hc : t.cells c = 0
    · have hseen : t.seen .first (c :: l) = t.seen (.zero c) l := by
        simp [seen, see, Ne.symm hl.1, hc]
      rw [hseen]
      obtain hnil | ⟨l', hsuffix, heq⟩ := seen_zero (t := t) (z := c) hl.2
      · exact .inr (.inl hnil)
      · exact .inr (.inr ⟨c, l', hc, hsuffix.trans (suffix_cons c l), heq⟩)
    · exact .inl (by simp [seen, see, Ne.symm hl.1, hc, seen_later hl.2])

theorem sess_not_infix_line (hl : '\n' ∉ l) (h : ¬ m.sess <:+: l) :
    ¬ m.sess <:+: t.seen .first l := by
  rcases seen_line (t := t) hl with heq | heq | ⟨z, l', hz, hsuffix, heq⟩
  · rwa [heq]
  · rw [heq]
    simp [Mark.sess]
  · rw [heq, infix_cons_iff, not_or]
    refine ⟨fun hpre => ?_, fun hinf => h (hinf.trans hsuffix.isInfix)⟩
    obtain rfl : 'Q' = z := (cons_prefix_cons.mp hpre).1
    exact t.cells_ne_zero (by decide) hz

theorem sess_not_infix_seen (h : ¬ m.sess <:+: text) : ¬ m.sess <:+: t.seen .first text := by
  induction hn : text.length using Nat.strong_induction_on generalizing text with | _ n ih =>
  by_cases hnewline : '\n' ∈ text
  · obtain ⟨l, rest, rfl, hl⟩ := eq_append_cons_of_mem hnewline
    rw [seen_append, seen_newline]
    rintro ⟨a, b, hab⟩
    rw [append_assoc] at hab
    obtain ⟨b', hb'⟩ | ⟨a', -, ha'⟩ := found_before_or_after m.newline_not_mem_sess hab
    · refine sess_not_infix_line (t := t) hl (fun hinf => h ?_) ⟨a, b', by simpa using hb'⟩
      exact hinf.trans (prefix_append ..).isInfix
    · refine ih rest.length (by simp +arith [← hn]) (fun hinf => h ?_) rfl
        ⟨a', b, by simpa using ha'⟩
      exact hinf.trans ((suffix_cons _ _).trans (suffix_append ..)).isInfix
  · exact sess_not_infix_line hnewline h

end Terminal

/-! ### The answer -/

theorem seen_of_ascii {cur : Cursor} (hcur : ∀ z, cur ≠ .zero z) (h : ∀ c ∈ text, Ascii c) :
    t.seen cur text = text :=
  (t.seen_eq_self hcur fun c hc => .inr (t.cells_ne_zero (h c hc))).1

theorem seen_marked (hend : ∀ z, t.cursor .first out ≠ .zero z) :
    t.seen .first (m.begin ++ '\n' :: (out ++ m.finish)) =
      m.begin ++ '\n' :: (t.seen .first out ++ m.finish) := by
  rw [t.seen_append, seen_of_ascii (by simp) Mark.ascii_begin, t.seen_newline, t.seen_append,
    seen_of_ascii hend Mark.ascii_finish]

theorem seen_transcript (hend : ∀ z, t.cursor .first out ≠ .zero z) (after : List Char) :
    t.seen .first (transcript m out after) =
      transcript m (t.seen .first out) (t.seen .first after) := by
  have hall : transcript m out after =
      m.begin ++ '\n' :: (out ++ m.finish) ++ '\n' :: after := by simp [transcript]
  rw [hall, t.seen_append, seen_marked hend, t.seen_newline, transcript]
  simp

/-- A text that ends in a character with a width is not seen before all of it is printed. -/
theorem prefix_of_seen {all : List Char} (hlast : ∀ c ∈ all.getLast?, Ascii c)
    (h : text <+: all ∨ all <+: text) (hseen : t.seen .first all <+: t.seen .first text) :
    all <+: text := by
  refine h.elim (fun ⟨x, hx⟩ => ?_) id
  obtain rfl | ⟨x, d, rfl⟩ := eq_nil_or_concat' x
  · rw [← hx, append_nil]
  · have hd : Ascii d := hlast d (by rw [← hx, ← append_assoc, getLast?_concat]; rfl)
    have hsee : ∀ cur, t.seen cur [d] ≠ [] := by
      intro cur
      simp only [Terminal.seen, Terminal.see, t.cells_ne_zero hd, if_false]
      split_ifs
      · simp
      · cases cur <;> simp
    have hlen := hseen.length_le
    rw [← hx, t.seen_append, t.seen_append, length_append, length_append] at hlen
    have hpos := length_pos_iff.mpr (hsee (t.cursor (t.cursor .first text) x))
    omega

theorem scrape_quiet {texts : List (List Char)} (hplain : isPlain out = true)
    (hend : ∀ z, t.cursor .first out ≠ .zero z) (hout : ¬ m.sess <:+: out)
    (hquiet : Quiet m s out texts) (win : ℕ) :
    (Kept t m s out texts ∧
        scrape t m win s (.polled texts) = some (clean m.sess (t.seen .first out))) ∨
      ¬ Kept t m s out texts ∧ scrape t m win s (.polled texts) = some stillWorking := by
  obtain ⟨after, hafterPlain, hafter, htexts⟩ := hquiet.printed
  replace hout := t.sess_not_infix_seen hout
  replace hafter := t.sess_not_infix_seen hafter
  have hprint : ∀ text ∈ texts, poll m win (t.buffer (t.print s text)) =
      between m (readBuf 0 (t.buffer ((t.seen .first text).foldl t.put s))) := by
    intro text htext
    have htextPlain : isPlain text = true := by
      obtain ⟨after, hafter⟩ := htexts text htext
      have hall := isPlain_transcript (m := m) hplain hafterPlain
      rw [← hafter, isPlain_append, Bool.and_eq_true] at hall
      exact hall.1
    rw [poll_eq, Terminal.print, if_pos htextPlain, hquiet.row, if_pos rfl]
  -- what is seen of the texts is the beginning of what is seen of the transcript
  have hseen : ∀ text ∈ texts, t.seen .first text <+:
      transcript m (t.seen .first out) (t.seen .first after) := by
    intro text htext
    rw [← seen_transcript hend]
    exact t.seen_prefix .first (htexts text htext)
  have hcomplete : ∀ text ∈ texts, m.begin ++ '\n' :: (out ++ m.finish) <+: text ↔
      m.begin ++ '\n' :: (t.seen .first out ++ m.finish) <+: t.seen .first text := by
    intro text htext
    rw [← seen_marked hend]
    refine ⟨t.seen_prefix .first, prefix_of_seen ?_ ?_⟩
    · intro c hc
      rw [← cons_append, ← append_assoc,
        getLast?_append_of_ne_nil _ (by simp [Mark.finish])] at hc
      exact Mark.ascii_finish c (mem_of_getLast? hc)
    · exact prefix_or_prefix_of_prefix (htexts text htext) ⟨'\n' :: after, by simp [transcript]⟩
  rw [scrape]
  cases hfind : texts.findSome? fun text => poll m win (t.buffer (t.print s text)) with
  | none =>
    refine Or.inr ⟨?_, rfl⟩
    rintro ⟨text, htext, hall, hfits⟩
    have hnone := findSome?_eq_none_iff.mp hfind text htext
    rw [hprint text htext, between_of_complete hout hafter hquiet.row (hseen text htext)
      hfits ((hcomplete text htext).mp hall)] at hnone
    cases hnone
  | some mid =>
    obtain ⟨text, htext, hmid⟩ := exists_of_findSome?_eq_some hfind
    rw [hprint text htext] at hmid
    obtain ⟨hfits, hall⟩ := complete_of_between hout hafter hquiet.row hquiet.fresh
      (hseen text htext) hmid
    rw [between_of_complete hout hafter hquiet.row (hseen text htext) hfits hall] at hmid
    obtain rfl := some.inj hmid
    exact Or.inl ⟨⟨text, htext, (hcomplete text htext).mpr hall, hfits⟩, rfl⟩

theorem clean_of_unmarked {text : List Char} (h : ¬ m.sess <:+: text) :
    clean m.sess text = text.rdropWhile isSpace := by
  have hall : (text.splitOn '\n').filter (fun l => ¬ m.sess <:+: l) = text.splitOn '\n' := by
    rw [filter_eq_self]
    intro l hl
    simpa using fun hinf => h (hinf.trans (Lib.infix_of_mem_splitOn hl))
  rw [clean, hall, intercalate_splitOn]

end Bootbox.Panel
