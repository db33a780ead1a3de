import Bootbox.Lib.Trace
import Bootbox.Vfs.Views

/-!
Loading and saving the virtual file system: the tree can be changed from the start,
the stored disk is read by up to three attempts, and a timer writes the tree back.

Nothing is saved before the disk has been read, nor after it could not be read or
parsed. So what is ever stored is what was read, with the operations since, unless the
host answers null for a disk that it has stored but cannot read: that is taken for a
fresh disk. Changes made before the disk is read do not reach the stored tree: reading
it replaces the tree in memory, and they stay only if nothing was stored.
-/

namespace Bootbox.Vfs

open Lib.Trace List

/-- What the host has stored: nothing (or an empty text), a text that `JSON.parse`
refuses, or the text of a tree. -/
inductive Stored
  | nothing
  | unparsable
  | json (tree : Node)

/-- How far `load` is. The kernel calls it once, when it boots. -/
inductive Phase
  | idle
  | reading (attempt : ℕ)
  | done
  deriving DecidableEq

/-- The variables of the file system, the trees posted to the host to be written, in
order, and what it has stored. -/
structure State where
  tree : Node
  loaded : Bool
  readOnly : Bool
  phase : Phase
  saveTimer : Bool
  posted : List Node
  disk : Stored

def boot (disk : Stored) : State := ⟨defaultTree, false, false, .idle, false, [], disk⟩

inductive Event
  /-- `write`, `mkdir` or `remove` is called. -/
  | op (o : Op)
  | load
  /-- The host answers the read. -/
  | readOk
  /-- The host answers with null, as for a fresh disk: it could not read the file, or
  the bytes were not UTF-8. -/
  | readNull
  /-- The host refuses it, or it times out. -/
  | readFails
  /-- The save timer fires. -/
  | saveTimer
  /-- The host writes the oldest tree posted, or fails to. -/
  | hostWrites (ok : Bool)

def save (s : State) : State :=
  if !s.loaded || s.readOnly then s else { s with saveTimer := true }

def step (s : State) : Event → Option State
  | .op o =>
    let r := o.run s.tree
    let s := { s with tree := r.tree }
    some (if r.saves then save s else s)
  | .load =>
    match s.phase with
    | .idle => some { s with phase := .reading 1 }
    | .reading _ => none
    | .done => some s
  | .readOk =>
    match s.phase with
    | .reading _ =>
      match s.disk with
      | .nothing => some { s with loaded := true, phase := .done }
      | .unparsable => some { s with loaded := true, readOnly := true, phase := .done }
      | .json tree => some { s with tree := tree, loaded := true, phase := .done }
    | _ => none
  | .readNull =>
    match s.phase with
    | .reading _ => some { s with loaded := true, phase := .done }
    | _ => none
  | .readFails =>
    match s.phase with
    | .reading attempt =>
      if attempt < 3 then some { s with phase := .reading (attempt + 1) }
      else some { s with loaded := true, readOnly := true, phase := .done }
    | _ => none
  | .saveTimer =>
    if s.saveTimer then
      some { s with saveTimer := false, posted := s.posted ++ [stripped s.tree] }
    else none
  | .hostWrites ok =>
    match s.posted with
    | tree :: posted =>
      some { s with posted := posted, disk := if ok then .json tree else s.disk }
    | [] => none

def Steps (s : State) (e : Event) (s' : State) : Prop := step s e = some s'

def ops (es : List Event) : List Op :=
  es.filterMap fun e => match e with
    | .op o => some o
    | _ => none

def applyAll (os : List Op) (tree : Node) : Node := os.foldl (fun tree o => (o.run tree).tree) tree

/-- The tree when `load` is done, by the event that completed it and the operations
before. -/
def afterLoad (disk : Stored) (e : Event) (early : List Op) : Node :=
  match disk, e with
  | .json tree, .readOk => tree
  | _, _ => applyAll early defaultTree

/-- The tree as it was saved when the timer fired at one of the events. -/
def Saved (base : Node) (es : List Event) (tree : Node) : Prop :=
  ∃ es₁ es₂, es = es₁ ++ .saveTimer :: es₂ ∧ tree = stripped (applyAll (ops es₁) base)

theorem Saved.snoc {base tree : Node} {es : List Event} (h : Saved base es tree) (e : Event) :
    Saved base (es ++ [e]) tree := by
  obtain ⟨es₁, es₂, rfl, htree⟩ := h
  exact ⟨es₁, es₂ ++ [e], by simp, htree⟩

structure Before (disk : Stored) (es : List Event) (s : State) : Prop where
  loaded : s.loaded = false
  readOnly : s.readOnly = false
  phase : s.phase ≠ .done
  tree : s.tree = applyAll (ops es) defaultTree
  saveTimer : s.saveTimer = false
  posted : s.posted = []
  disk_eq : s.disk = disk

/-- It has been read, or given up, at the event `e` between the others. -/
structure After (disk : Stored) (es₁ : List Event) (e : Event) (es₂ : List Event) (s : State) :
    Prop where
  loaded : s.loaded = true
  phase : s.phase = .done
  completes : e = .readOk ∨ e = .readNull ∨ e = .readFails
  given_up : e = .readFails ∨ disk = .unparsable ∧ e = .readOk → s.readOnly = true
  tree : s.tree = applyAll (ops es₂) (afterLoad disk e (ops es₁))
  frozen : s.readOnly = true → s.saveTimer = false ∧ s.posted = [] ∧ s.disk = disk
  posted : ∀ tree ∈ s.posted, Saved (afterLoad disk e (ops es₁)) es₂ tree
  stored : s.disk = disk ∨ ∃ tree, s.disk = .json tree ∧ s.readOnly = false ∧
    Saved (afterLoad disk e (ops es₁)) es₂ tree

variable {disk : Stored} {es es₁ es₂ : List Event} {e e' : Event} {s s' : State}

@[simp] theorem ops_snoc_op (es : List Event) (o : Op) : ops (es ++ [.op o]) = ops es ++ [o] := by
  simp [ops]

theorem ops_snoc (es : List Event) (he : ∀ o, e ≠ .op o) : ops (es ++ [e]) = ops es := by
  cases e with
  | op o => exact absurd rfl (he o)
  | _ => simp [ops]

@[simp] theorem applyAll_snoc (os : List Op) (o : Op) (tree : Node) :
    applyAll (os ++ [o]) tree = (o.run (applyAll os tree)).tree := by
  simp [applyAll]

theorem afterLoad_of_ne {early : List Op} (he : e ≠ .readOk) :
    afterLoad disk e early = applyAll early defaultTree := by
  cases disk with
  | json tree => cases e <;> first | rfl | exact absurd rfl he
  | _ => rfl

theorem step_before (h : Before disk es s) (hstep : Steps s e s') :
    Before disk (es ++ [e]) s' ∨ After disk es e [] s' := by
  rw [Steps] at hstep
  revert hstep
  fun_cases step s e with
  | case1 o r s₁ =>
    rintro ⟨⟩
    left
    have hsave : save { s with tree := (o.run s.tree).tree }
        = { s with tree := (o.run s.tree).tree } := by
      simp [save, h.loaded]
    rw [hsave, ite_self]
    refine { h with tree := ?_ }
    rw [ops_snoc_op, applyAll_snoc, ← h.tree]
  | case2 | case11 =>
    rintro ⟨⟩
    left
    exact { h with phase := by simp, tree := by rw [ops_snoc es (by simp)]; exact h.tree }
  | case4 hdone => exact absurd hdone h.phase
  | case5 attempt hphase hdisk | case7 attempt hphase tree hdisk =>
    rintro ⟨⟩
    rw [h.disk_eq] at hdisk
    refine .inr ⟨rfl, rfl, .inl rfl, by simp [hdisk], ?_, by simp [h.readOnly], by simp [h.posted],
      .inl h.disk_eq⟩
    rw [hdisk]
    first | exact h.tree | rfl
  | case6 attempt hphase hdisk =>
    rintro ⟨⟩
    refine .inr ⟨rfl, rfl, .inl rfl, fun _ => rfl, ?_,
      fun _ => ⟨h.saveTimer, h.posted, h.disk_eq⟩, by simp [h.posted], .inl h.disk_eq⟩
    rw [← h.disk_eq, hdisk]
    exact h.tree
  | case9 attempt hphase =>
    rintro ⟨⟩
    refine .inr ⟨rfl, rfl, .inr (.inl rfl), by simp, ?_, by simp [h.readOnly], by simp [h.posted],
      .inl h.disk_eq⟩
    exact h.tree.trans (afterLoad_of_ne (by simp)).symm
  | case12 attempt hphase =>
    rintro ⟨⟩
    refine .inr ⟨rfl, rfl, .inr (.inr rfl), fun _ => rfl, ?_,
      fun _ => ⟨h.saveTimer, h.posted, h.disk_eq⟩, by simp [h.posted], .inl h.disk_eq⟩
    exact h.tree.trans (afterLoad_of_ne (by simp)).symm
  | case14 htimer => cases h.saveTimer.symm.trans htimer
  | case16 ok tree posted hposted => cases h.posted.symm.trans hposted
  | _ => nofun

theorem step_after (h : After disk es₁ e es₂ s) (hstep : Steps s e' s') :
    After disk es₁ e (es₂ ++ [e']) s' := by
  have hposted : ∀ tree ∈ s.posted, Saved (afterLoad disk e (ops es₁)) (es₂ ++ [e']) tree :=
    fun tree htree => (h.posted tree htree).snoc e'
  have hstored : s.disk = disk ∨ ∃ tree, s.disk = .json tree ∧ s.readOnly = false ∧
      Saved (afterLoad disk e (ops es₁)) (es₂ ++ [e']) tree := by
    refine h.stored.imp_right ?_
    rintro ⟨tree, hdisk, hreadOnly, hsaved⟩
    exact ⟨tree, hdisk, hreadOnly, hsaved.snoc e'⟩
  have htree (he : ∀ o, e' ≠ .op o) :
      s.tree = applyAll (ops (es₂ ++ [e'])) (afterLoad disk e (ops es₁)) :=
    h.tree.trans (by rw [ops_snoc es₂ he])
  rw [Steps] at hstep
  revert hstep
  fun_cases step s e' with
  | case1 o =>
    rintro ⟨⟩
    have htree : (o.run s.tree).tree
        = applyAll (ops (es₂ ++ [.op o])) (afterLoad disk e (ops es₁)) := by
      rw [ops_snoc_op, applyAll_snoc, ← h.tree]
    rcases Bool.eq_false_or_eq_true s.readOnly with hreadOnly | hreadOnly
    · have hsave : save { s with tree := (o.run s.tree).tree }
          = { s with tree := (o.run s.tree).tree } := by
        simp [save, hreadOnly]
      rw [hsave, ite_self]
      exact { h with tree := htree, posted := hposted, stored := hstored }
    · have hthaw : ∀ timer : Bool, After disk es₁ e (es₂ ++ [.op o])
          { s with tree := (o.run s.tree).tree, saveTimer := timer } := by
        intro timer
        exact { h with
          tree := htree, frozen := by simp [hreadOnly], posted := hposted, stored := hstored }
      have hsave : save { s with tree := (o.run s.tree).tree }
          = { s with tree := (o.run s.tree).tree, saveTimer := true } := by
        simp [save, h.loaded, hreadOnly]
      rw [hsave]
      split
      · exact hthaw true
      · exact hthaw s.saveTimer
  | case4 =>
    rintro ⟨⟩
    exact { h with tree := htree (by simp), posted := hposted, stored := hstored }
  | case14 htimer =>
    rintro ⟨⟩
    have hthawed : s.readOnly = false := by
      cases hreadOnly : s.readOnly with
      | true => rw [(h.frozen hreadOnly).1] at htimer; cases htimer
      | false => rfl
    refine { h with
      tree := htree (by simp), frozen := by simp [hthawed], posted := ?_, stored := hstored }
    intro tree hmem
    rcases mem_append.mp hmem with hmem | hmem
    · exact hposted tree hmem
    · refine ⟨es₂, [], rfl, ?_⟩
      rw [mem_singleton.mp hmem, h.tree]
  | case16 ok tree rest hrest =>
    rintro ⟨⟩
    have hthawed : s.readOnly = false := by
      cases hreadOnly : s.readOnly with
      | true => rw [(h.frozen hreadOnly).2.1] at hrest; cases hrest
      | false => rfl
    refine { h with
      tree := htree (by simp), frozen := by simp [hthawed], posted := ?_, stored := ?_ }
    · exact fun t ht => hposted t (by rw [hrest]; exact mem_cons_of_mem _ ht)
    · cases ok with
      | false => exact hstored
      | true =>
        refine .inr ⟨tree, rfl, hthawed, hposted tree ?_⟩
        rw [hrest]
        exact mem_cons_self
  | case2 hphase | case5 _ hphase | case6 _ hphase | case7 _ hphase | case9 _ hphase
  | case11 _ hphase | case12 _ hphase => cases h.phase.symm.trans hphase
  | _ => nofun

/-- Every run from the start of the page. -/
theorem before_or_after (hrun : Run Steps (boot disk) es s) :
    Before disk es s ∨ ∃ es₁ e es₂, es = es₁ ++ e :: es₂ ∧ After disk es₁ e es₂ s := by
  refine hrun.invariant_history (I := fun es s => Before disk es s ∨
    ∃ es₁ e es₂, es = es₁ ++ e :: es₂ ∧ After disk es₁ e es₂ s) ?_ (.inl ?_)
  · rintro es s e s' (h | ⟨es₁, e₁, es₂, rfl, h⟩) hstep
    · rcases step_before h hstep with h' | h'
      · exact .inl h'
      · exact .inr ⟨es, e, [], rfl, h'⟩
    · exact .inr ⟨es₁, e₁, es₂ ++ [e], by simp, step_after h hstep⟩
  · exact ⟨rfl, rfl, by simp [boot], rfl, rfl, rfl, rfl⟩

/-- A stored file is still there after operations that do not go to its path. -/
theorem resolve_applyAll {q : List String} {tree : Node} {content mime : String} {os : List Op}
    (hos : ∀ o ∈ os, ∀ p, o.target = some p → ¬ p <+: q)
    (h : resolve q tree = some (.file content mime)) :
    resolve q (applyAll os tree) = some (.file content mime) := by
  induction os generalizing tree with
  | nil => exact h
  | cons o os ih =>
    refine ih (fun o ho => hos o (mem_cons_of_mem _ ho)) ?_
    exact kindAt_eq_file.mp
      (kindAt_run_of_file o (hos o mem_cons_self) (kindAt_eq_file.mpr h))

/-- A disk with one file; a second one is written while the first attempt to read the
disk fails, and a third when it has been read. -/
def slowBoot : List Event :=
  [.load, .op (.write "/early" "1" "text/plain"), .readFails, .readOk,
    .op (.write "/late" "2" "text/plain"), .saveTimer, .hostWrites true]

def oneFile : Node := .dir [("kept", .file "0" "text/plain")] none

end Bootbox.Vfs
