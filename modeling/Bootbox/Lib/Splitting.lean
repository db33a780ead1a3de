import Mathlib.Data.List.Infix

/-!
Lists cut at a separator and put together again.
-/

namespace Bootbox.Lib

open List

variable {α : Type*}

theorem infix_intercalate (sep : List α) {l : List α} {ls : List (List α)} (h : l ∈ ls) :
    l <:+: sep.intercalate ls := by
  induction ls with
  | nil => cases h
  | cons l' ls ih =>
    cases ls with
    | nil =>
      rw [mem_singleton] at h
      rw [h, intercalate_singleton]
    | cons l₂ ls =>
      rw [intercalate_cons_cons]
      rcases mem_cons.mp h with rfl | hrest
      · rw [append_assoc]
        exact (prefix_append l _).isInfix
      · exact (ih hrest).trans (suffix_append _ _).isInfix

section Split

variable [DecidableEq α] {sep : α} {s l : List α}

theorem flatten_splitOn (sep : α) (s : List α) : (s.splitOn sep).flatten = s.filter (· ≠ sep) := by
  induction s with
  | nil => rfl
  | cons c s ih =>
    rw [splitOn_cons_eq_if_modifyHead]
    split
    next hc => simpa [beq_iff_eq.mp hc] using ih
    next hc =>
      obtain ⟨l, ls, hls⟩ := exists_cons_of_ne_nil (splitOn_ne_nil sep s)
      rw [hls] at ih ⊢
      have hne : c ≠ sep := by simpa using hc
      simpa [hne] using ih

theorem mem_of_mem_splitOn (h : l ∈ s.splitOn sep) {x : α} (hx : x ∈ l) : x ∈ s ∧ x ≠ sep := by
  have hmem : x ∈ (s.splitOn sep).flatten := mem_flatten_of_mem h hx
  rw [flatten_splitOn, mem_filter] at hmem
  exact ⟨hmem.1, by simpa using hmem.2⟩

theorem infix_of_mem_splitOn (h : l ∈ s.splitOn sep) : l <:+: s := by
  have hinf := infix_intercalate [sep] h
  rwa [intercalate_splitOn] at hinf

end Split

end Bootbox.Lib
