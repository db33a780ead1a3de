import Mathlib.Data.List.Basic

/-!
Association lists that keep the order of insertion, with the operations of a
JavaScript `Map`: setting a present key keeps its place, setting an absent one
appends it, and the first entry is the oldest.
-/

namespace Bootbox.Lib.OrderedMap

open List

variable {κ ν : Type*} [DecidableEq κ]

/-- The value stored under `k`. -/
def get (m : List (κ × ν)) (k : κ) : Option ν := m.lookup k

/-- Store `v` under `k`, in place if `k` is present and at the end otherwise. -/
def set (m : List (κ × ν)) (k : κ) (v : ν) : List (κ × ν) :=
  if (get m k).isSome then m.map fun e => if e.1 = k then (k, v) else e
  else m ++ [(k, v)]

/-- Remove the entry of `k`. -/
def delete (m : List (κ × ν)) (k : κ) : List (κ × ν) :=
  m.filter fun e => e.1 ≠ k

def deleteFirst (m : List (κ × ν)) : List (κ × ν) :=
  match m with
  | [] => []
  | e :: _ => delete m e.1

@[simp] theorem get_nil (k : κ) : get ([] : List (κ × ν)) k = none := rfl

theorem get_cons (e : κ × ν) (m : List (κ × ν)) (k : κ) :
    get (e :: m) k = if e.1 = k then some e.2 else get m k := by
  obtain ⟨a, v⟩ := e
  by_cases h : a = k
  · subst h
    simp [get]
  · have h' : (k == a) = false := by simpa using Ne.symm h
    simp [get, lookup_cons, h, h']

theorem get_append (m₁ m₂ : List (κ × ν)) (k : κ) :
    get (m₁ ++ m₂) k = (get m₁ k).or (get m₂ k) := by
  induction m₁ with
  | nil => simp
  | cons e m ih =>
    simp only [cons_append, get_cons, ih]
    split <;> simp

theorem get_filter_key (m : List (κ × ν)) (p : κ → Prop) [DecidablePred p] (k : κ) :
    get (m.filter fun e => p e.1) k = if p k then get m k else none := by
  induction m with
  | nil => simp
  | cons e m ih =>
    by_cases he : p e.1
    · rw [filter_cons_of_pos (by simpa using he), get_cons, get_cons, ih]
      by_cases hk : e.1 = k
      · subst hk
        simp [he]
      · simp [hk]
    · rw [filter_cons_of_neg (by simpa using he), ih, get_cons]
      by_cases hk : e.1 = k
      · subst hk
        simp [he]
      · simp [hk]

theorem get_delete (m : List (κ × ν)) (k k' : κ) :
    get (delete m k) k' = if k' = k then none else get m k' := by
  rw [delete, get_filter_key m (fun x => x ≠ k) k']
  by_cases h : k' = k <;> simp [h]

theorem get_map_replace (m : List (κ × ν)) (k : κ) (v : ν) (k' : κ) :
    get (m.map fun e => if e.1 = k then (k, v) else e) k' =
      if k' = k then (get m k).map fun _ => v else get m k' := by
  induction m with
  | nil => simp
  | cons e m ih =>
    rw [map_cons, get_cons, ih, get_cons, get_cons]
    by_cases he : e.1 = k
    · subst he
      by_cases hk : k' = e.1
      · simp [hk]
      · simp [hk, Ne.symm hk]
    · by_cases hk : k' = k
      · subst hk
        simp [he]
      · simp [he, hk]

theorem get_set (m : List (κ × ν)) (k : κ) (v : ν) (k' : κ) :
    get (set m k v) k' = if k' = k then some v else get m k' := by
  unfold set
  cases hm : get m k with
  | none =>
    simp only [Option.isSome_none, Bool.false_eq_true, if_false, get_append, get_cons, get_nil]
    by_cases hk : k' = k
    · subst hk
      simp [hm]
    · simp [hk, Ne.symm hk]
  | some u =>
    simp only [Option.isSome_some, if_true]
    rw [get_map_replace, hm]
    rfl

/-- Changing every value. -/
theorem get_map (m : List (κ × ν)) (f : ν → ν) (k : κ) :
    get (m.map fun e => (e.1, f e.2)) k = (get m k).map f := by
  induction m with
  | nil => rfl
  | cons e m ih =>
    rw [map_cons, get_cons, get_cons, ih]
    split <;> rfl

variable {m : List (κ × ν)} {k : κ} {v : ν}

theorem mem_of_get (h : get m k = some v) : (k, v) ∈ m := by
  induction m with
  | nil => simp at h
  | cons e m ih =>
    rw [get_cons] at h
    split at h
    · rename_i hk
      cases h
      subst hk
      exact mem_cons_self ..
    · exact mem_cons_of_mem _ (ih h)

variable {e : κ × ν}

theorem mem_set (h : e ∈ set m k v) : e = (k, v) ∨ e ∈ m := by
  unfold set at h
  split at h
  · obtain ⟨d, hd, rfl⟩ := mem_map.mp h
    split
    · exact .inl rfl
    · exact .inr hd
  · rcases mem_append.mp h with h | h
    · exact .inr h
    · exact .inl (mem_singleton.mp h)

theorem mem_of_mem_delete (h : e ∈ delete m k) : e ∈ m :=
  (mem_filter.mp h).1

theorem mem_of_mem_deleteFirst (h : e ∈ deleteFirst m) : e ∈ m := by
  cases m with
  | nil => exact h
  | cons d m => exact mem_of_mem_delete h

/-! ### Maps whose keys are all different -/

theorem map_replace_of_not_mem (h : k ∉ m.map Prod.fst) (v : ν) :
    (m.map fun e => if e.1 = k then (k, v) else e) = m := by
  refine (map_congr_left fun e he => if_neg ?_).trans (map_id' m)
  rintro rfl
  exact h (mem_map_of_mem he)

theorem isSome_get (m : List (κ × ν)) (k : κ) : (get m k).isSome ↔ k ∈ m.map Prod.fst := by
  induction m with
  | nil => simp
  | cons e m ih =>
    rw [get_cons, map_cons, mem_cons, ← ih]
    by_cases h : e.1 = k
    · simp [h]
    · simp [h, Ne.symm h]

theorem map_fst_set (m : List (κ × ν)) (k : κ) (v : ν) : (set m k v).map Prod.fst =
    if k ∈ m.map Prod.fst then m.map Prod.fst else m.map Prod.fst ++ [k] := by
  rw [set]
  simp only [isSome_get]
  split
  · rw [map_map]
    refine map_congr_left fun e he => ?_
    by_cases h : e.1 = k
    · simp [h]
    · simp [h]
  · simp

theorem nodup_set (hm : (m.map Prod.fst).Nodup) (k : κ) (v : ν) :
    ((set m k v).map Prod.fst).Nodup := by
  rw [map_fst_set]
  split
  case isTrue => exact hm
  case isFalse h =>
    rw [nodup_append]
    refine ⟨hm, by simp, fun a ha b hb => ?_⟩
    rw [mem_singleton.mp hb]
    rintro rfl
    exact h ha

/-- Setting a value that is there already changes nothing. -/
theorem set_eq_self (hm : (m.map Prod.fst).Nodup) (h : get m k = some v) : set m k v = m := by
  rw [set, h, Option.isSome_some, if_pos rfl]
  induction m with
  | nil => rfl
  | cons e m ih =>
    rw [map_cons, nodup_cons] at hm
    rw [get_cons] at h
    rw [map_cons]
    split at h
    case isTrue hk =>
      cases h
      subst hk
      rw [if_pos rfl, map_replace_of_not_mem hm.1]
    case isFalse hk => rw [if_neg hk, ih hm.2 h]

end Bootbox.Lib.OrderedMap
