import Mathlib.Data.List.Infix

/-!
A tree of files and directories, with the operations of a file manager: remove what is
at a path with all below it, copy or move it to a path that is free, and write a file.

The root is a directory, and what is in the tree stands in a directory; that is part of
the structure, so that no operation can leave anything without a parent.
-/

namespace Bootbox.Lib

open List

inductive FileEntry
  | dir
  | file (bytes : List UInt8)
deriving DecidableEq

structure FileTree (ν : Type*) where
  node : List ν → Option FileEntry
  root : node [] = some .dir
  parent : ∀ {p n}, (node (p ++ [n])).isSome → node p = some .dir

namespace FileTree

variable {ν : Type*}

def empty [DecidableEq ν] : FileTree ν where
  node p := if p = [] then some .dir else none
  root := if_pos rfl
  parent := by
    intro p n h
    rw [if_neg (append_ne_nil_of_right_ne_nil p (cons_ne_nil n []))] at h
    cases h

def content (t : FileTree ν) (p : List ν) : Option (List UInt8) :=
  match t.node p with
  | some (.file bytes) => some bytes
  | _ => none

variable {t : FileTree ν} {p q : List ν}

theorem node_of_content {bytes : List UInt8} (h : t.content p = some bytes) :
    t.node p = some (.file bytes) := by
  rw [content] at h
  split at h
  case h_1 b hb =>
    cases h
    exact hb
  case h_2 => cases h

theorem content_congr {t' : FileTree ν} (h : t'.node q = t.node p) :
    t'.content q = t.content p := by
  rw [content, content, h]

theorem dir_of_isSome (hq : q ≠ []) (h : (t.node (p ++ q)).isSome) : t.node p = some .dir := by
  induction q using reverseRecOn generalizing p with
  | nil => exact absurd rfl hq
  | append_singleton q n ih =>
    rw [← append_assoc] at h
    have hparent := t.parent h
    cases q with
    | nil => rwa [append_nil] at hparent
    | cons m q => exact ih (cons_ne_nil m q) (by rw [hparent]; rfl)

theorem dir_of_dir (h : t.node (p ++ q) = some .dir) : t.node p = some .dir := by
  rcases eq_or_ne q [] with rfl | hq
  · rwa [append_nil] at h
  · exact dir_of_isSome hq (by rw [h]; rfl)

theorem not_prefix_of_content {bytes : List UInt8} (hp : t.content p = some bytes)
    (hq : (t.node q).isSome) (hne : p ≠ q) : ¬ p <+: q := by
  rintro ⟨r, rfl⟩
  have hr : r ≠ [] := by
    rintro rfl
    exact hne (append_nil p).symm
  have hdir := dir_of_isSome hr hq
  rw [node_of_content hp] at hdir
  cases hdir

def HasParent (t : FileTree ν) (p : List ν) : Prop := p ≠ [] ∧ t.node p.dropLast = some .dir

instance (t : FileTree ν) (p : List ν) : Decidable (t.HasParent p) :=
  inferInstanceAs (Decidable (_ ∧ _))

theorem hasParent_iff {n : ν} : t.HasParent (p ++ [n]) ↔ t.node p = some .dir := by
  simp [HasParent]

theorem hasParent_of_isSome (hp : p ≠ []) (h : (t.node p).isSome) : t.HasParent p := by
  obtain ⟨q, n, rfl⟩ := eq_nil_or_concat' p |>.resolve_left hp
  exact hasParent_iff.mpr (t.parent h)

variable [DecidableEq ν]

def erase (t : FileTree ν) (p : List ν) (hp : p ≠ []) : FileTree ν where
  node q := if p <+: q then none else t.node q
  root := by rw [if_neg fun h => hp (prefix_nil.mp h), t.root]
  parent := by
    intro q n h
    split at h
    · cases h
    · rename_i hpre
      rw [if_neg fun hq => hpre (hq.trans (prefix_append q [n]))]
      exact t.parent h

def copyTo (t : FileTree ν) (a b : List ν) (hb : t.HasParent b) : FileTree ν where
  node q := if b <+: q then t.node (a ++ q.drop b.length) else t.node q
  root := by rw [if_neg fun h => hb.1 (prefix_nil.mp h), t.root]
  parent := by
    intro q n h
    by_cases hq : b <+: q
    · have hqn : b <+: q ++ [n] := hq.trans (prefix_append q [n])
      rw [if_pos hqn, drop_append_of_le_length hq.length_le, ← append_assoc] at h
      rw [if_pos hq]
      exact t.parent h
    · rw [if_neg hq]
      by_cases hqn : b <+: q ++ [n]
      · have heq : b = q ++ [n] := (prefix_concat_iff.mp hqn).resolve_right hq
        subst heq
        exact hasParent_iff.mp hb
      · rw [if_neg hqn] at h
        exact t.parent h

def put (t : FileTree ν) (p : List ν) (bytes : List UInt8) (hp : t.HasParent p)
    (hdir : t.node p ≠ some .dir) : FileTree ν where
  node q := if q = p then some (.file bytes) else t.node q
  root := by rw [if_neg (Ne.symm hp.1), t.root]
  parent := by
    intro q n h
    have hne : q ≠ p := by
      rintro rfl
      have hqn : q ++ [n] ≠ q := by simp
      rw [if_neg hqn] at h
      exact hdir (t.parent h)
    rw [if_neg hne]
    split at h
    · rename_i heq
      subst heq
      exact hasParent_iff.mp hp
    · exact t.parent h

/-! ### The operations, which can fail -/

/-- `removeItem`: not of the root. -/
def remove (t : FileTree ν) (p : List ν) : Option (FileTree ν) :=
  if h : p ≠ [] ∧ (t.node p).isSome then some (t.erase p h.1) else none

/-- `copyItem`: not onto something, and not into itself. -/
def copy (t : FileTree ν) (a b : List ν) : Option (FileTree ν) :=
  if h : (t.node a).isSome ∧ t.node b = none ∧ t.HasParent b ∧ ¬ a <+: b then
    some (t.copyTo a b h.2.2.1)
  else none

/-- `moveItem` -/
def move (t : FileTree ν) (a b : List ν) : Option (FileTree ν) := do
  let copied ← t.copy a b
  copied.remove a

def write (t : FileTree ν) (p : List ν) (bytes : List UInt8) : Option (FileTree ν) :=
  if h : t.HasParent p ∧ t.node p ≠ some .dir then some (t.put p bytes h.1 h.2) else none

/-! ### What they leave -/

section Contents

variable {t t' : FileTree ν} {a b p q : List ν} {bytes : List UInt8}

theorem remove_isSome_iff : (t.remove p).isSome ↔ p ≠ [] ∧ (t.node p).isSome := by
  rw [remove]
  split <;> simp_all

theorem node_remove (h : t.remove p = some t') (q : List ν) :
    t'.node q = if p <+: q then none else t.node q := by
  rw [remove] at h
  split at h
  · cases h
    rfl
  · cases h

theorem content_remove_of_prefix (h : t.remove p = some t') (hq : p <+: q) :
    t'.content q = none := by
  rw [content, node_remove h, if_pos hq]

theorem content_remove (h : t.remove p = some t') (hq : ¬ p <+: q) :
    t'.content q = t.content q :=
  content_congr ((node_remove h q).trans (if_neg hq))

theorem hasParent_remove (h : t.remove p = some t') : t'.HasParent p := by
  obtain ⟨hp, hsome⟩ := remove_isSome_iff.mp (Option.isSome_iff_exists.mpr ⟨t', h⟩)
  refine ⟨hp, ?_⟩
  rw [node_remove h, if_neg, (hasParent_of_isSome hp hsome).2]
  intro hpre
  have hlength := hpre.length_le
  have hpos := length_pos_iff.mpr hp
  rw [length_dropLast] at hlength
  omega

theorem content_copy (h : t.copy a b = some t') : t'.content b = t.content a := by
  rw [copy] at h
  split at h
  · cases h
    refine content_congr ?_
    exact (if_pos prefix_rfl).trans (by rw [drop_length, append_nil])
  · cases h

theorem copy_isSome_iff (ha : t.content a = some bytes) (hb : t.HasParent b) :
    (t.copy a b).isSome ↔ t.node b = none := by
  rw [copy]
  constructor
  · intro h
    split at h
    · rename_i hcond
      exact hcond.2.1
    · cases h
  · intro h
    have hnode := node_of_content ha
    have hpre : ¬ a <+: b := by
      rintro ⟨r, rfl⟩
      rcases eq_or_ne r [] with rfl | hr
      · rw [append_nil, hnode] at h
        cases h
      · have hdir := hb.2
        rw [dropLast_append_of_ne_nil hr] at hdir
        have hfile := dir_of_dir hdir
        rw [hnode] at hfile
        cases hfile
    rw [dif_pos ⟨by rw [hnode]; rfl, h, hb, hpre⟩]
    rfl

theorem content_move (h : t.move a b = some t') : t'.content b = t.content a := by
  rw [move, Option.bind_eq_bind] at h
  obtain ⟨copied, hcopy, hremove⟩ := Option.bind_eq_some_iff.mp h
  have hpre : ¬ a <+: b := by
    rw [copy] at hcopy
    split at hcopy
    · rename_i hcond
      exact hcond.2.2.2
    · cases hcopy
  rw [content_remove hremove hpre, content_copy hcopy]

theorem write_isSome_iff : (t.write p bytes).isSome ↔ t.HasParent p ∧ t.node p ≠ some .dir := by
  rw [write]
  split <;> simp_all

theorem node_write (h : t.write p bytes = some t') (q : List ν) :
    t'.node q = if q = p then some (.file bytes) else t.node q := by
  rw [write] at h
  split at h
  · cases h
    rfl
  · cases h

theorem content_write (h : t.write p bytes = some t') : t'.content p = some bytes := by
  rw [content, node_write h, if_pos rfl]

end Contents

end FileTree

end Bootbox.Lib
