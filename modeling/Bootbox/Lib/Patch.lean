import Mathlib.Tactic.Common

/-!
Code that is patched after it is emitted: a list of positions, each with what is to
be written there. The patches of a prefix leave the rest alone, and those of the
rest, shifted by the prefix's length, leave the prefix alone; so patching the whole
is patching each part by itself.
-/

namespace Bootbox.Lib.Patch

variable {κ τ : Type*}

/-- Apply the patches in order; what is written may depend on the position. -/
def patchAll (f : ℕ → κ → τ → τ) (ps : List (ℕ × κ)) (l : List τ) : List τ :=
  ps.foldl (fun l p => l.modify p.1 (f p.1 p.2)) l

/-- The patches of a part of the code that starts at `n`. -/
def shift (n : ℕ) (ps : List (ℕ × κ)) : List (ℕ × κ) := ps.map fun p => (n + p.1, p.2)

variable {f : ℕ → κ → τ → τ} {ps qs : List (ℕ × κ)} {l r : List τ}

theorem mem_shift {n : ℕ} {q : ℕ × κ} : q ∈ shift n ps ↔ ∃ p ∈ ps, (n + p.1, p.2) = q :=
  List.mem_map

@[simp] theorem length_patchAll : (patchAll f ps l).length = l.length := by
  induction ps generalizing l with
  | nil => rfl
  | cons p ps ih => simpa [patchAll] using ih (l := l.modify p.1 (f p.1 p.2))

theorem modify_prefix {i : ℕ} (g : τ → τ) (h : i < l.length) :
    (l ++ r).modify i g = l.modify i g ++ r := by
  induction l generalizing i with
  | nil => simp at h
  | cons x l ih =>
    cases i with
    | zero => rfl
    | succ i => simpa using ih (by simpa using h)

theorem modify_length_add (i : ℕ) (g : τ → τ) :
    (l ++ r).modify (l.length + i) g = l ++ r.modify i g := by
  induction l with
  | nil => simp
  | cons x l ih => simpa [Nat.succ_add] using ih

theorem patchAll_prefix (h : ∀ p ∈ ps, p.1 < l.length) :
    patchAll f ps (l ++ r) = patchAll f ps l ++ r := by
  induction ps generalizing l with
  | nil => rfl
  | cons p ps ih =>
    have hp := modify_prefix (r := r) (f p.1 p.2) (h p (List.mem_cons_self ..))
    have hps : ∀ q ∈ ps, q.1 < (l.modify p.1 (f p.1 p.2)).length := by
      intro q hq
      rw [List.length_modify]
      exact h q (List.mem_cons_of_mem _ hq)
    change patchAll f ps ((l ++ r).modify p.1 (f p.1 p.2)) = _
    rw [hp, ih hps]
    rfl

theorem patchAll_shift :
    patchAll f (shift l.length ps) (l ++ r) = l ++ patchAll (fun i => f (l.length + i)) ps r := by
  induction ps generalizing r with
  | nil => rfl
  | cons p ps ih =>
    change patchAll f (shift l.length ps)
      ((l ++ r).modify (l.length + p.1) (f (l.length + p.1) p.2)) = _
    rw [modify_length_add, ih]
    rfl

theorem patchAll_append_shift (h : ∀ p ∈ ps, p.1 < l.length) :
    patchAll f (ps ++ shift l.length qs) (l ++ r)
      = patchAll f ps l ++ patchAll (fun i => f (l.length + i)) qs r := by
  have hshift : patchAll f (shift (patchAll f ps l).length qs) (patchAll f ps l ++ r)
      = patchAll f ps l ++ patchAll (fun i => f ((patchAll f ps l).length + i)) qs r :=
    patchAll_shift
  rw [length_patchAll] at hshift
  rw [← hshift, ← patchAll_prefix h]
  exact List.foldl_append

end Bootbox.Lib.Patch
