import Mathlib.Data.List.Basic

/-!
A folder with open files, as a Unix kernel keeps it: names lead to files, and a file
that has lost its name lives on for whoever has opened it. So a job that writes
through a handle writes to the file it opened, whatever the name leads to by then.

Names are of any type. The store carries what makes it one: a name leads to a file
that exists, and no file has two names.
-/

namespace Bootbox.Lib

open List Function

structure FileStore (ν : Type*) where
  /-- The file of a name. -/
  dir : ν → Option ℕ
  /-- The bytes of a file. -/
  data : ℕ → List UInt8
  /-- The number of the next file. -/
  fresh : ℕ
  dir_lt : ∀ {n i}, dir n = some i → i < fresh
  dir_inj : ∀ {m n i}, dir m = some i → dir n = some i → m = n

namespace FileStore

variable {ν : Type*}

def empty : FileStore ν where
  dir _ := none
  data _ := []
  fresh := 0
  dir_lt h := by cases h
  dir_inj h := by cases h

/-! ### Files and handles -/

def content (s : FileStore ν) (n : ν) : Option (List UInt8) := (s.dir n).map s.data

def setData (s : FileStore ν) (i : ℕ) (bytes : List UInt8) : FileStore ν :=
  { s with data := update s.data i bytes }

/-- Write through a handle at a position; a gap is filled with zeros. -/
def writeAt (s : FileStore ν) (i pos : ℕ) (bytes : List UInt8) : FileStore ν :=
  s.setData i ((s.data i ++ replicate (pos - (s.data i).length) 0).take pos ++ bytes ++
    (s.data i).drop (pos + bytes.length))

theorem data_writeAt_end (s : FileStore ν) (i : ℕ) (bytes : List UInt8) :
    (s.writeAt i (s.data i).length bytes).data i = s.data i ++ bytes := by
  change update s.data i _ i = _
  rw [update_self, Nat.sub_self, replicate_zero, append_nil,
    take_length, drop_eq_nil_of_le (Nat.le_add_right _ _), append_nil]

/-- Only the names in `N` and the files in `I` have changed, and new files may have come. -/
structure Frame (N : ν → Prop) (I : ℕ → Prop) (s s' : FileStore ν) : Prop where
  dir : ∀ n, ¬ N n → s'.dir n = s.dir n
  data : ∀ i, i < s.fresh → ¬ I i → s'.data i = s.data i

namespace Frame

variable {N N' : ν → Prop} {I I' : ℕ → Prop} {s s' : FileStore ν}

theorem refl (N : ν → Prop) (I : ℕ → Prop) (s : FileStore ν) : Frame N I s s :=
  ⟨fun _ _ => rfl, fun _ _ _ => rfl⟩

theorem mono (h : Frame N I s s') (hN : ∀ n, N n → N' n) (hI : ∀ i, I i → I' i) :
    Frame N' I' s s' where
  dir n hn := h.dir n fun hn' => hn (hN n hn')
  data i hi hi' := h.data i hi fun h' => hi' (hI i h')

theorem ite (h : Frame N I s s') (b : Bool) : Frame N I s (if b then s' else s) := by
  split
  · exact h
  · exact .refl _ _ _

theorem content (h : Frame N I s s') {n : ν} (hn : ¬ N n)
    (hi : ∀ i, s.dir n = some i → ¬ I i) : s'.content n = s.content n := by
  rw [FileStore.content, FileStore.content, h.dir n hn]
  cases hdir : s.dir n with
  | none => rfl
  | some i => rw [Option.map_some, Option.map_some, h.data i (s.dir_lt hdir) (hi i hdir)]

theorem writeAt (s : FileStore ν) (i pos : ℕ) (bytes : List UInt8) :
    Frame (fun _ => False) (· = i) s (s.writeAt i pos bytes) where
  dir _ _ := rfl
  data _ _ hj := update_of_ne hj ..

end Frame

/-! ### Names -/

variable [DecidableEq ν]

def remove (s : FileStore ν) (n : ν) : FileStore ν where
  dir := update s.dir n none
  data := s.data
  fresh := s.fresh
  dir_lt := by
    intro m i h
    rcases eq_or_ne m n with rfl | hne
    · rw [update_self] at h
      cases h
    · rw [update_of_ne hne] at h
      exact s.dir_lt h
  dir_inj := by
    intro m m' i h h'
    rcases eq_or_ne m n with rfl | hne
    · rw [update_self] at h
      cases h
    · rcases eq_or_ne m' n with rfl | hne'
      · rw [update_self] at h'
        cases h'
      · rw [update_of_ne hne] at h
        rw [update_of_ne hne'] at h'
        exact s.dir_inj h h'

def put (s : FileStore ν) (n : ν) (bytes : List UInt8) : FileStore ν where
  dir := update s.dir n (some s.fresh)
  data := update s.data s.fresh bytes
  fresh := s.fresh + 1
  dir_lt := by
    intro m i h
    rcases eq_or_ne m n with rfl | hne
    · rw [update_self] at h
      cases h
      exact Nat.lt_succ_self _
    · rw [update_of_ne hne] at h
      exact Nat.lt_succ_of_lt (s.dir_lt h)
  dir_inj := by
    intro m m' i h h'
    rcases eq_or_ne m n with rfl | hne
    · rcases eq_or_ne m' m with rfl | hne'
      · rfl
      · rw [update_self] at h
        rw [update_of_ne hne'] at h'
        cases h
        exact absurd (s.dir_lt h') (Nat.lt_irrefl _)
    · rw [update_of_ne hne] at h
      rcases eq_or_ne m' n with rfl | hne'
      · rw [update_self] at h'
        cases h'
        exact absurd (s.dir_lt h) (Nat.lt_irrefl _)
      · rw [update_of_ne hne'] at h'
        exact s.dir_inj h h'

def create (s : FileStore ν) (n : ν) : FileStore ν :=
  match s.dir n with
  | some i => s.setData i []
  | none => s.put n []

def move (s : FileStore ν) (a b : ν) : Option (FileStore ν) :=
  if h : (s.dir a).isSome ∧ s.dir b = none then
    some {
      dir := update (update s.dir b (s.dir a)) a none
      data := s.data
      fresh := s.fresh
      dir_lt := by
        intro m i hm
        rcases eq_or_ne m a with rfl | hne
        · rw [update_self] at hm
          cases hm
        · rw [update_of_ne hne] at hm
          rcases eq_or_ne m b with rfl | hne'
          · rw [update_self] at hm
            exact s.dir_lt hm
          · rw [update_of_ne hne'] at hm
            exact s.dir_lt hm
      dir_inj := by
        -- a name of the new folder had its file before, under the old name if it is `b`
        have hold : ∀ {m i}, update (update s.dir b (s.dir a)) a none m = some i →
            m ≠ a ∧ s.dir (if m = b then a else m) = some i := by
          intro m i hm
          rcases eq_or_ne m a with rfl | hne
          · rw [update_self] at hm
            cases hm
          · rw [update_of_ne hne] at hm
            rcases eq_or_ne m b with rfl | hne'
            · rw [update_self] at hm
              exact ⟨hne, by rwa [if_pos rfl]⟩
            · rw [update_of_ne hne'] at hm
              exact ⟨hne, by rwa [if_neg hne']⟩
        intro m m' i hm hm'
        obtain ⟨hne, hm⟩ := hold hm
        obtain ⟨hne', hm'⟩ := hold hm'
        have heq := s.dir_inj hm hm'
        split at heq <;> split at heq
        · rename_i h₁ h₂
          rw [h₁, h₂]
        · exact absurd heq.symm hne'
        · exact absurd heq hne
        · exact heq }
  else none

theorem remove_of_none {s : FileStore ν} {n : ν} (h : s.dir n = none) : s.remove n = s := by
  cases s
  simp only [remove, FileStore.mk.injEq, and_true]
  rw [← h, update_eq_self]

theorem move_eq_some {s s' : FileStore ν} {a b : ν} (h : s.move a b = some s') :
    (s.dir a).isSome ∧ s.dir b = none ∧
      s'.dir = update (update s.dir b (s.dir a)) a none ∧
      s'.data = s.data := by
  rw [move] at h
  split at h
  case isTrue hab =>
    cases h
    exact ⟨hab.1, hab.2, rfl, rfl⟩
  case isFalse => cases h

theorem exists_move {s : FileStore ν} {a b : ν} {i : ℕ} (ha : s.dir a = some i)
    (hb : s.dir b = none) : ∃ s', s.move a b = some s' := by
  rw [move, dif_pos ⟨by rw [ha]; rfl, hb⟩]
  exact ⟨_, rfl⟩

theorem dir_move {s s' : FileStore ν} {a b : ν} (h : s.move a b = some s') :
    s'.dir b = s.dir a := by
  obtain ⟨ha, hb, hdir, -⟩ := move_eq_some h
  have hne : b ≠ a := by
    rintro rfl
    rw [hb] at ha
    cases ha
  rw [hdir, update_of_ne hne, update_self]

namespace Frame

variable {s s' : FileStore ν}

theorem remove (s : FileStore ν) (n : ν) : Frame (· = n) (fun _ => False) s (s.remove n) where
  dir _ hm := update_of_ne hm ..
  data _ _ _ := rfl

theorem put (s : FileStore ν) (n : ν) (bytes : List UInt8) :
    Frame (· = n) (fun _ => False) s (s.put n bytes) where
  dir _ hm := update_of_ne hm ..
  data _ hi _ := update_of_ne (Nat.ne_of_lt hi) ..

theorem create (s : FileStore ν) (n : ν) :
    Frame (· = n) (fun i => s.dir n = some i) s (s.create n) := by
  rw [FileStore.create]
  split
  case h_1 i h =>
    refine ⟨fun _ _ => rfl, fun j _ hj => update_of_ne ?_ ..⟩
    rintro rfl
    exact hj h
  case h_2 => exact (put s n []).mono (fun _ h => h) fun _ h => h.elim

theorem move {a b : ν} (h : s.move a b = some s') :
    Frame (fun n => n = a ∨ n = b) (fun _ => False) s s' := by
  obtain ⟨-, -, hdir, hdata⟩ := move_eq_some h
  refine ⟨fun n hn => ?_, fun i _ _ => by rw [hdata]⟩
  rw [not_or] at hn
  rw [hdir, update_of_ne hn.1, update_of_ne hn.2]

end Frame

end FileStore

end Bootbox.Lib
