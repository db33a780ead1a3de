import Mathlib.Data.List.Forall2
import Mathlib.Data.List.Flatten

/-!
A stream of frames that arrives in pieces.

A framing takes the first frame off a buffer, once all of it is there. What a
receiver then takes off does not depend on how the stream was cut into pieces: it is
what would be taken off the whole stream at once, and what is held back is the part
of the last frame that has arrived.
-/

namespace Bootbox.Lib

/-- A way to take the first frame off a buffer. A frame is found by its own bytes,
whatever follows them. -/
structure Framing (β α : Type*) where
  take : List β → Option (α × List β)
  cut : ∀ {buf a rest}, take buf = some (a, rest) →
    ∃ raw, raw ≠ [] ∧ buf = raw ++ rest ∧ ∀ more, take (raw ++ more) = some (a, more)

namespace Framing

variable {β α : Type*} (F : Framing β α) {buf rest : List β} {a : α}

theorem consumes (h : F.take buf = some (a, rest)) : rest.length < buf.length := by
  obtain ⟨raw, hraw, rfl, -⟩ := F.cut h
  have := List.length_pos_iff.mpr hraw
  rw [List.length_append]
  omega

theorem take_append (h : F.take buf = some (a, rest)) (more : List β) :
    F.take (buf ++ more) = some (a, rest ++ more) := by
  obtain ⟨raw, -, rfl, htake⟩ := F.cut h
  rw [List.append_assoc, htake]

theorem take_nil : F.take [] = none := by
  cases h : F.take [] with
  | none => rfl
  | some p => exact absurd (F.consumes h) (Nat.not_lt_zero _)

theorem rest_of_snoc {b : β} (hnone : F.take buf = none)
    (h : F.take (buf ++ [b]) = some (a, rest)) : rest = [] := by
  obtain ⟨raw, -, hbuf, htake⟩ := F.cut h
  rcases List.eq_nil_or_concat' rest with hrest | ⟨rest', b', hrest⟩
  · exact hrest
  · rw [hrest, ← List.append_assoc] at hbuf
    have heq : buf = raw ++ rest' := (List.append_inj' hbuf rfl).1
    rw [heq, htake] at hnone
    cases hnone

def split (buf : List β) : List α × List β :=
  match h : F.take buf with
  | none => ([], buf)
  | some (a, rest) =>
    have : rest.length < buf.length := F.consumes h
    (a :: (split rest).1, (split rest).2)
termination_by buf.length

theorem split_of_none (h : F.take buf = none) : F.split buf = ([], buf) := by
  rw [split]
  split
  · rfl
  · rename_i h'
    rw [h] at h'
    cases h'

theorem split_of_some (h : F.take buf = some (a, rest)) :
    F.split buf = (a :: (F.split rest).1, (F.split rest).2) := by
  rw [split]
  split
  · rename_i h'
    rw [h] at h'
    cases h'
  · rename_i h'
    rw [h] at h'
    cases h'
    rfl

theorem split_induction {P : List β → Prop} (hnone : ∀ buf, F.take buf = none → P buf)
    (hsome : ∀ buf a rest, F.take buf = some (a, rest) → P rest → P buf) (buf : List β) :
    P buf := by
  induction hn : buf.length using Nat.strongRecOn generalizing buf with
  | ind n ih =>
    cases h : F.take buf with
    | none => exact hnone buf h
    | some p => exact hsome buf p.1 p.2 h (ih _ (hn ▸ F.consumes h) p.2 rfl)

/-- Nothing complete is held back. -/
theorem take_tail (buf : List β) : F.take (F.split buf).2 = none := by
  induction buf using F.split_induction with
  | hnone buf h => rw [F.split_of_none h, h]
  | hsome buf a rest h ih => rw [F.split_of_some h, ih]

/-- The frames and the tail are the buffer: nothing is lost, and every frame stands for
exactly the bytes taken for it. -/
theorem split_spec (buf : List β) :
    ∃ raws, buf = raws.flatten ++ (F.split buf).2 ∧
      List.Forall₂ (fun raw a => F.take raw = some (a, [])) raws (F.split buf).1 := by
  induction buf using F.split_induction with
  | hnone buf h =>
    rw [F.split_of_none h]
    exact ⟨[], rfl, .nil⟩
  | hsome buf a rest h ih =>
    obtain ⟨raws, hrest, hraws⟩ := ih
    obtain ⟨raw, -, hbuf, htake⟩ := F.cut h
    rw [F.split_of_some h]
    refine ⟨raw :: raws, ?_, .cons ?_ hraws⟩
    · rw [List.flatten_cons, List.append_assoc, ← hrest, hbuf]
    · rw [← List.append_nil raw, htake]

/-- More bytes: the frames so far, and then the frames of what was held back and the
new bytes. -/
theorem split_append (buf more : List β) :
    F.split (buf ++ more) =
      ((F.split buf).1 ++ (F.split ((F.split buf).2 ++ more)).1,
        (F.split ((F.split buf).2 ++ more)).2) := by
  induction buf using F.split_induction with
  | hnone buf h =>
    rw [F.split_of_none h]
    rfl
  | hsome buf a rest h ih =>
    rw [F.split_of_some (F.take_append h more), ih, F.split_of_some h]
    rfl

end Framing

end Bootbox.Lib
