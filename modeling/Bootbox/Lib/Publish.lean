import Bootbox.Lib.FileStore
import Bootbox.Lib.Trace

/-!
Publishing files by renaming: a job fills a temporary file and, once it is complete,
moves it to the name it is for. Any number of jobs do so in one folder, in steps that
interleave, and may stop anywhere.

What holds over every run, provided that no two jobs for one name are active together
and no job's temporary name is the name that another is for: under each name there is
what was there before, or the complete text of a job, or nothing, and nothing only
between a job's two steps of replacing the file (`Run.inv`).

A program is connected to this by mapping its states to worlds and its steps to runs.
-/

namespace Bootbox.Lib.Publish

open Trace Function

variable {ι ν : Type*}

/-- The name that each job is for, and its temporary name. -/
structure Plan (ι ν : Type*) where
  dest : ι → ν
  tmp : ι → ν

inductive Stage
  | idle
  /-- It prepares the temporary file. -/
  | prep
  /-- It has opened the file and fills it with a text, so far with its beginning. -/
  | filling (file : ℕ) (text : List UInt8) (count : ℕ)
  | full (file : ℕ) (text : List UInt8)
  /-- It has taken away what had the name. -/
  | gap (file : ℕ) (text : List UInt8)
  /-- The file has its name, and the job is still there. -/
  | published (text : List UInt8)
  | done (text : List UInt8)
  /-- It has stopped. -/
  | dead
  /-- It has stopped in the gap. -/
  | lost
  deriving DecidableEq

namespace Stage

def IsActive : Stage → Prop
  | .prep | .filling _ _ _ | .full _ _ | .gap _ _ | .published _ => True
  | _ => False

def IsWorking : Stage → Prop
  | .prep | .filling _ _ _ | .full _ _ => True
  | _ => False

/-- The text that the job has brought under its name. -/
def IsPublished (st : Stage) (text : List UInt8) : Prop := st = .published text ∨ st = .done text

def LeavesGap (st : Stage) : Prop := (∃ file text, st = .gap file text) ∨ st = .lost

end Stage

/-- The folder, the jobs, and the names that others have changed. -/
structure World (ι ν : Type*) where
  store : FileStore ν
  stage : ι → Stage
  touched : ν → Prop

namespace World

def withStore (w : World ι ν) (store : FileStore ν) : World ι ν := { w with store := store }

def init (store : FileStore ν) : World ι ν := ⟨store, fun _ => .idle, fun _ => False⟩

end World

/-- Nothing stands in the way of a job: no other is active for its name, and its names are not
mixed up with those of a job that has begun. -/
structure Free (P : Plan ι ν) (w : World ι ν) (i : ι) : Prop where
  alone : ∀ j, (w.stage j).IsActive → P.dest j ≠ P.dest i
  untouched : ¬ w.touched (P.dest i)
  tmp_ne : P.tmp i ≠ P.dest i
  apart : ∀ j, w.stage j ≠ .idle →
    P.dest j ≠ P.tmp i ∧ P.dest i ≠ P.tmp j ∧ (P.tmp j = P.tmp i → P.dest j = P.dest i)

def Knows (P : Plan ι ν) (store : FileStore ν) (i : ι) : Stage → Prop
  | .filling file text count =>
    store.dir (P.tmp i) = some file ∧ store.data file = text.take count
  | .full file text => store.dir (P.tmp i) = some file ∧ store.data file = text
  | .gap file text =>
    store.dir (P.tmp i) = some file ∧ store.data file = text ∧ store.dir (P.dest i) = none
  | .published text => store.content (P.dest i) = some text
  | _ => True

/-- What is under a name: what was there, a job's text, or nothing while a job replaces it. -/
def Holds (P : Plan ι ν) (before : FileStore ν) (w : World ι ν) (n : ν) : Prop :=
  w.store.content n = before.content n ∨
    (∃ i text, P.dest i = n ∧ (w.stage i).IsPublished text ∧ w.store.content n = some text) ∨
    (w.store.content n = none ∧ ∃ i, P.dest i = n ∧ (w.stage i).LeavesGap)

structure Inv (P : Plan ι ν) (before : FileStore ν) (w : World ι ν) : Prop where
  alone : ∀ i j, (w.stage i).IsActive → (w.stage j).IsActive → P.dest i = P.dest j → i = j
  apart : ∀ i j, w.stage i ≠ .idle → w.stage j ≠ .idle → P.dest i ≠ P.tmp j
  tmps : ∀ i j, w.stage i ≠ .idle → w.stage j ≠ .idle → P.tmp i = P.tmp j → P.dest i = P.dest j
  knows : ∀ i, Knows P w.store i (w.stage i)
  holds : ∀ n, ¬ w.touched n → (∀ i, w.stage i ≠ .idle → n ≠ P.tmp i) → Holds P before w n

variable {st : Stage} {store : FileStore ν} {j : ι}

section OwnSteps

variable {P : Plan ι ν} {before : FileStore ν} {w w' : World ι ν} {i : ι}

theorem Stage.IsActive.ne_idle (h : st.IsActive) : st ≠ .idle := by
  rintro rfl
  exact h

theorem Stage.IsWorking.isActive (h : st.IsWorking) : st.IsActive := by
  cases st <;> trivial

/-- A job that works on its temporary file has brought nothing and leaves no gap. -/
theorem Stage.IsWorking.quiet (h : st.IsWorking) :
    (∀ text, ¬ st.IsPublished text) ∧ ¬ st.LeavesGap := by
  cases st <;> simp_all [Stage.IsWorking, Stage.IsPublished, Stage.LeavesGap]

theorem Knows.frame {N : ν → Prop} {I : ℕ → Prop} {store' : FileStore ν}
    (hframe : store.Frame N I store') (htmp : ¬ N (P.tmp i)) (hdest : ¬ N (P.dest i))
    (hfile : ∀ k, store.dir (P.tmp i) = some k → ¬ I k)
    (hpub : ∀ k, store.dir (P.dest i) = some k → ¬ I k) (h : Knows P store i st) :
    Knows P store' i st := by
  cases st with
  | filling file text count =>
    refine ⟨(hframe.dir _ htmp).trans h.1, ?_⟩
    rw [hframe.data file (store.dir_lt h.1) (hfile file h.1)]
    exact h.2
  | full file text =>
    refine ⟨(hframe.dir _ htmp).trans h.1, ?_⟩
    rw [hframe.data file (store.dir_lt h.1) (hfile file h.1)]
    exact h.2
  | gap file text =>
    refine ⟨(hframe.dir _ htmp).trans h.1, ?_, (hframe.dir _ hdest).trans h.2.2⟩
    rw [hframe.data file (store.dir_lt h.1) (hfile file h.1)]
    exact h.2.1
  | published text => exact (hframe.content hdest hpub).trans h
  | _ => trivial

/-- A step of an active job: it touches its own names and its own file, and stays begun. -/
structure OwnStep (P : Plan ι ν) (w : World ι ν) (i : ι) (w' : World ι ν) : Prop where
  others : ∀ j, j ≠ i → w'.stage j = w.stage j
  active : (w.stage i).IsActive
  begun : w'.stage i ≠ .idle
  touched : w'.touched = w.touched
  frame : w.store.Frame (fun n => n = P.tmp i ∨ n = P.dest i)
    (fun k => w.store.dir (P.tmp i) = some k) w'.store

namespace OwnStep

theorem begun_iff (h : OwnStep P w i w') (j : ι) : w'.stage j ≠ .idle ↔ w.stage j ≠ .idle := by
  rcases eq_or_ne j i with rfl | hne
  · exact ⟨fun _ => h.active.ne_idle, fun _ => h.begun⟩
  · rw [h.others j hne]

theorem active_of (h : OwnStep P w i w') (hj : (w'.stage j).IsActive) : (w.stage j).IsActive := by
  rcases eq_or_ne j i with rfl | hne
  · exact h.active
  · rwa [h.others j hne] at hj

theorem knows (h : OwnStep P w i w') (hinv : Inv P before w) (hj : j ≠ i) :
    Knows P w'.store j (w'.stage j) := by
  rw [h.others j hj]
  by_cases hactive : (w.stage j).IsActive
  · have hij := h.active.ne_idle
    have hjj := hactive.ne_idle
    have hdest : P.dest j ≠ P.dest i := fun heq => hj (hinv.alone j i hactive h.active heq)
    have htmp : P.tmp j ≠ P.tmp i := fun heq => hdest (hinv.tmps j i hjj hij heq)
    have hcross : P.dest j ≠ P.tmp i := hinv.apart j i hjj hij
    refine Knows.frame h.frame (not_or.mpr ⟨htmp, (hinv.apart i j hij hjj).symm⟩)
      (not_or.mpr ⟨hcross, hdest⟩) (fun k hk hk' => ?_) (fun k hk hk' => ?_) (hinv.knows j)
    · exact htmp (w.store.dir_inj hk hk')
    · exact hcross (w.store.dir_inj hk hk')
  · cases hst : w.stage j <;> rw [hst] at hactive <;>
      first | trivial | exact absurd trivial hactive

theorem holds (h : OwnStep P w i w') {n : ν} (hn : n ≠ P.tmp i) (hdest : n ≠ P.dest i)
    (hold : Holds P before w n) : Holds P before w' n := by
  have hcontent : w'.store.content n = w.store.content n := by
    refine h.frame.content (not_or.mpr ⟨hn, hdest⟩) fun k hk hk' => ?_
    exact hn (w.store.dir_inj hk hk')
  have hother : ∀ j, P.dest j = n → j ≠ i := by
    rintro j rfl rfl
    exact hdest rfl
  rcases hold with hsame | ⟨j, text, hj, hpub, hc⟩ | ⟨hc, j, hj, hgap⟩
  · exact .inl (hcontent.trans hsame)
  · refine .inr (.inl ⟨j, text, hj, ?_, hcontent.trans hc⟩)
    rwa [h.others j (hother j hj)]
  · refine .inr (.inr ⟨hcontent.trans hc, j, hj, ?_⟩)
    rwa [h.others j (hother j hj)]

/-- What is left to show of a step of a job: what it knows then, and what its name holds. -/
theorem inv (h : OwnStep P w i w') (hinv : Inv P before w)
    (hknows : Knows P w'.store i (w'.stage i))
    (hdest : Holds P before w (P.dest i) → Holds P before w' (P.dest i)) : Inv P before w' where
  alone j k hj hk := hinv.alone j k (h.active_of hj) (h.active_of hk)
  apart j k hj hk := hinv.apart j k ((h.begun_iff j).mp hj) ((h.begun_iff k).mp hk)
  tmps j k hj hk := hinv.tmps j k ((h.begun_iff j).mp hj) ((h.begun_iff k).mp hk)
  knows j := by
    rcases eq_or_ne j i with rfl | hne
    · exact hknows
    · exact h.knows hinv hne
  holds n htouched hn := by
    have hold : Holds P before w n := by
      refine hinv.holds n (h.touched ▸ htouched) fun j hj => hn j ((h.begun_iff j).mpr hj)
    rcases eq_or_ne n (P.dest i) with rfl | hne
    · exact hdest hold
    · exact h.holds (hn i h.begun) hne hold

end OwnStep

/-- A job that brings nothing and leaves no gap keeps what its name holds, when that has not
changed. -/
theorem holds_of_content (hcontent : w'.store.content (P.dest i) = w.store.content (P.dest i))
    (hpub : ∀ j text, (w.stage j).IsPublished text → (w'.stage j).IsPublished text)
    (hgap : ∀ j, (w.stage j).LeavesGap → (w'.stage j).LeavesGap)
    (h : Holds P before w (P.dest i)) : Holds P before w' (P.dest i) := by
  rcases h with hsame | ⟨j, text, hj, hp, hc⟩ | ⟨hc, j, hj, hg⟩
  · exact .inl (hcontent.trans hsame)
  · exact .inr (.inl ⟨j, text, hj, hpub j text hp, hcontent.trans hc⟩)
  · exact .inr (.inr ⟨hcontent.trans hc, j, hj, hgap j hg⟩)

theorem Inv.outside (hinv : Inv P before w) {N : ν → Prop}
    (hstore : w.store.Frame N (fun _ => False) store)
    (hN : ∀ j, w.stage j ≠ .idle → ¬ N (P.dest j) ∧ ¬ N (P.tmp j)) :
    Inv P before { w with store := store, touched := fun n => w.touched n ∨ N n } := by
  refine ⟨hinv.alone, hinv.apart, hinv.tmps, fun j => ?_, fun n htouched hn => ?_⟩
  · by_cases hj : w.stage j = .idle
    · change Knows P store j (w.stage j)
      rw [hj]
      trivial
    · exact Knows.frame hstore (hN j hj).2 (hN j hj).1 (fun _ _ => not_false)
        (fun _ _ => not_false) (hinv.knows j)
  · rw [not_or] at htouched
    have hcontent : store.content n = w.store.content n :=
      hstore.content htouched.2 fun _ _ => not_false
    rcases hinv.holds n htouched.1 hn with hsame | ⟨j, text, hj, hp, hc⟩ | ⟨hc, hg⟩
    · exact .inl (hcontent.trans hsame)
    · exact .inr (.inl ⟨j, text, hj, hp, hcontent.trans hc⟩)
    · exact .inr (.inr ⟨hcontent.trans hc, hg⟩)

theorem Inv.init (P : Plan ι ν) (before : FileStore ν) :
    Inv P before (World.init before : World ι ν) where
  alone _ _ hi := hi.elim
  apart _ _ hi := absurd rfl hi
  tmps _ _ hi := absurd rfl hi
  knows _ := trivial
  holds _ _ _ := .inl rfl

end OwnSteps

/-! ### The steps -/

section Steps

variable [DecidableEq ι]

def World.set (w : World ι ν) (i : ι) (st : Stage) : World ι ν :=
  { w with stage := update w.stage i st }

variable {P : Plan ι ν} {before : FileStore ν} {w w' : World ι ν} {i : ι}

theorem World.stage_set_self (w : World ι ν) (i : ι) (st : Stage) : (w.set i st).stage i = st :=
  update_self ..

theorem World.stage_set_of_ne (w : World ι ν) {i : ι} (h : j ≠ i) (st : Stage) :
    (w.set i st).stage j = w.stage j :=
  update_of_ne h ..

theorem World.set_eq_self (h : w.stage i = st) : w.set i st = w := by
  rw [World.set, ← h, update_eq_self]

theorem World.set_set (w : World ι ν) (i : ι) (st st' : Stage) :
    (w.set i st).set i st' = w.set i st' := by
  rw [World.set, World.set, World.set, update_idem]

theorem OwnStep.set (hactive : (w.stage i).IsActive) (hst : st ≠ .idle)
    (hframe : w.store.Frame (fun n => n = P.tmp i ∨ n = P.dest i)
      (fun k => w.store.dir (P.tmp i) = some k) store) :
    OwnStep P w i ((w.withStore store).set i st) where
  others j hj := World.stage_set_of_ne _ hj st
  active := hactive
  begun := by rwa [World.stage_set_self]
  touched := rfl
  frame := hframe

theorem Inv.start (hinv : Inv P before w) (h : w.stage i = .idle) (hfree : Free P w i) :
    Inv P before (w.set i .prep) := by
  have hstage : ∀ {j}, j ≠ i → (w.set i .prep).stage j = w.stage j :=
    fun hj => World.stage_set_of_ne w hj .prep
  have hbegun : ∀ {j}, j ≠ i → (w.set i .prep).stage j ≠ .idle → w.stage j ≠ .idle := by
    intro j hj
    rw [hstage hj]
    exact id
  refine ⟨fun j k hj hk heq => ?_, fun j k hj hk heq => ?_, fun j k hj hk heq => ?_, fun j => ?_,
    fun n htouched hn => ?_⟩
  · by_cases hji : j = i <;> by_cases hki : k = i
    · rw [hji, hki]
    · rw [hstage hki] at hk
      exact absurd (heq.symm.trans (congrArg P.dest hji)) (hfree.alone k hk)
    · rw [hstage hji] at hj
      exact absurd (heq.trans (congrArg P.dest hki)) (hfree.alone j hj)
    · rw [hstage hji] at hj
      rw [hstage hki] at hk
      exact hinv.alone j k hj hk heq
  · by_cases hji : j = i <;> by_cases hki : k = i
    · rw [hji, hki] at heq
      exact hfree.tmp_ne heq.symm
    · rw [hji] at heq
      exact (hfree.apart k (hbegun hki hk)).2.1 heq
    · rw [hki] at heq
      exact (hfree.apart j (hbegun hji hj)).1 heq
    · exact hinv.apart j k (hbegun hji hj) (hbegun hki hk) heq
  · by_cases hji : j = i <;> by_cases hki : k = i
    · rw [hji, hki]
    · rw [hji] at heq ⊢
      exact ((hfree.apart k (hbegun hki hk)).2.2 heq.symm).symm
    · rw [hki] at heq ⊢
      exact (hfree.apart j (hbegun hji hj)).2.2 heq
    · exact hinv.tmps j k (hbegun hji hj) (hbegun hki hk) heq
  · by_cases hji : j = i
    · rw [hji, World.stage_set_self]
      trivial
    · rw [hstage hji]
      exact hinv.knows j
  · have hold : Holds P before w n := by
      refine hinv.holds n htouched fun j hj => hn j ?_
      by_cases hji : j = i
      · exact absurd (hji ▸ h) hj
      · rwa [hstage hji]
    have hne : ∀ {j}, w.stage j ≠ .idle → j ≠ i := by
      rintro j hj rfl
      exact hj h
    rcases hold with hsame | ⟨j, text, hj, hp, hc⟩ | ⟨hc, j, hj, hg⟩
    · exact .inl hsame
    · refine .inr (.inl ⟨j, text, hj, ?_, hc⟩)
      rwa [hstage (hne (by rintro heq; simp [heq, Stage.IsPublished] at hp))]
    · refine .inr (.inr ⟨hc, j, hj, ?_⟩)
      rwa [hstage (hne (by rintro heq; simp [heq, Stage.LeavesGap] at hg))]

/-- A step of an active job that leaves its name alone. -/
theorem Inv.advance (hinv : Inv P before w) (hactive : (w.stage i).IsActive) (hst : st ≠ .idle)
    (hframe : w.store.Frame (· = P.tmp i) (fun k => w.store.dir (P.tmp i) = some k) store)
    (hknows : Knows P store i st)
    (hpub : ∀ text, (w.stage i).IsPublished text → st.IsPublished text)
    (hgap : (w.stage i).LeavesGap → st.LeavesGap) :
    Inv P before ((w.withStore store).set i st) := by
  have hown : OwnStep P w i ((w.withStore store).set i st) :=
    .set hactive hst (hframe.mono (fun _ => .inl) fun _ hk => hk)
  have hstage : ∀ j, j ≠ i → ((w.withStore store).set i st).stage j = w.stage j := hown.others
  refine hown.inv hinv ?_ (holds_of_content ?_ (fun j text hp => ?_) fun j hg => ?_)
  · rw [World.stage_set_self]
    exact hknows
  · have hne : P.dest i ≠ P.tmp i := hinv.apart i i hactive.ne_idle hactive.ne_idle
    exact hframe.content hne fun k hk hk' => hne (w.store.dir_inj hk hk')
  · rcases eq_or_ne j i with rfl | hj
    · rw [World.stage_set_self]
      exact hpub text hp
    · rwa [hstage j hj]
  · rcases eq_or_ne j i with rfl | hj
    · rw [World.stage_set_self]
      exact hgap hg
    · rwa [hstage j hj]

variable [DecidableEq ν]

inductive Step (P : Plan ι ν) : World ι ν → ι → World ι ν → Prop
  | start {w : World ι ν} {i : ι} (h : w.stage i = .idle) (hfree : Free P w i) :
      Step P w i (w.set i .prep)
  /-- It works on its temporary file, perhaps after it has failed to fill it. -/
  | prepare {w : World ι ν} {i : ι} {store : FileStore ν} (h : (w.stage i).IsWorking)
      (hstore : w.store.Frame (· = P.tmp i) (fun k => w.store.dir (P.tmp i) = some k) store) :
      Step P w i ((w.withStore store).set i .prep)
  | opened {w : World ι ν} {i : ι} {file : ℕ} {text : List UInt8} (h : w.stage i = .prep)
      (hdir : w.store.dir (P.tmp i) = some file) (hdata : w.store.data file = []) :
      Step P w i (w.set i (.filling file text 0))
  | fill {w : World ι ν} {i : ι} {file count count' : ℕ} {text : List UInt8} {store : FileStore ν}
      (h : w.stage i = .filling file text count)
      (hstore : w.store.Frame (fun _ => False) (· = file) store)
      (hdata : store.data file = text.take count') :
      Step P w i ((w.withStore store).set i (.filling file text count'))
  | completed {w : World ι ν} {i : ι} {file count : ℕ} {text : List UInt8}
      (h : w.stage i = .filling file text count) (hcount : text.length ≤ count) :
      Step P w i (w.set i (.full file text))
  | drop {w : World ι ν} {i : ι} {file : ℕ} {text : List UInt8}
      (h : w.stage i = .full file text) :
      Step P w i ((w.withStore (w.store.remove (P.dest i))).set i (.gap file text))
  | publish {w : World ι ν} {i : ι} {file : ℕ} {text : List UInt8} {store : FileStore ν}
      (h : w.stage i = .gap file text) (hstore : w.store.move (P.tmp i) (P.dest i) = some store) :
      Step P w i ((w.withStore store).set i (.published text))
  | release {w : World ι ν} {i : ι} {text : List UInt8} (h : w.stage i = .published text) :
      Step P w i (w.set i (.done text))
  | quit {w : World ι ν} {i : ι} {store : FileStore ν} (h : (w.stage i).IsWorking)
      (hstore : w.store.Frame (· = P.tmp i) (fun _ => False) store) :
      Step P w i ((w.withStore store).set i .dead)
  | abandon {w : World ι ν} {i : ι} {file : ℕ} {text : List UInt8} {store : FileStore ν}
      (h : w.stage i = .gap file text)
      (hstore : w.store.Frame (· = P.tmp i) (fun _ => False) store) :
      Step P w i ((w.withStore store).set i .lost)
  /-- Somebody else changes other names. -/
  | outside {w : World ι ν} {i : ι} {store : FileStore ν} (N : ν → Prop)
      (hstore : w.store.Frame N (fun _ => False) store)
      (hN : ∀ j, w.stage j ≠ .idle → ¬ N (P.dest j) ∧ ¬ N (P.tmp j)) :
      Step P w i { w with store := store, touched := fun n => w.touched n ∨ N n }

theorem World.stays (h : w.stage i = st) : ∃ is, Run (Step P) w is (w.set i st) :=
  ⟨[], Run.nil_iff.mpr (World.set_eq_self h).symm⟩

theorem Step.once (h : Step P w i w') : ∃ is, Run (Step P) w is w' :=
  ⟨[i], .cons h (.nil _)⟩

theorem Inv.drop (hinv : Inv P before w) {file : ℕ} {text : List UInt8}
    (h : w.stage i = .full file text) :
    Inv P before ((w.withStore (w.store.remove (P.dest i))).set i (.gap file text)) := by
  have hactive : (w.stage i).IsActive := h ▸ trivial
  have hne : P.tmp i ≠ P.dest i := (hinv.apart i i hactive.ne_idle hactive.ne_idle).symm
  have hknows := hinv.knows i
  rw [h] at hknows
  have hnone : (w.store.remove (P.dest i)).dir (P.dest i) = none := update_self ..
  have hown : OwnStep P w i ((w.withStore (w.store.remove (P.dest i))).set i (.gap file text)) :=
    .set hactive (by simp) ((FileStore.Frame.remove _ _).mono (fun _ => .inr) fun _ hk => hk.elim)
  refine hown.inv hinv ?_ fun _ => .inr (.inr ⟨?_, i, rfl, ?_⟩)
  · rw [World.stage_set_self]
    refine ⟨?_, hknows.2, hnone⟩
    exact (update_of_ne hne ..).trans hknows.1
  · change ((w.store.remove (P.dest i)).dir (P.dest i)).map _ = none
    rw [hnone]
    rfl
  · rw [World.stage_set_self]
    exact .inl ⟨file, text, rfl⟩

theorem Inv.publish (hinv : Inv P before w) {file : ℕ} {text : List UInt8}
    (h : w.stage i = .gap file text) (hstore : w.store.move (P.tmp i) (P.dest i) = some store) :
    Inv P before ((w.withStore store).set i (.published text)) := by
  have hactive : (w.stage i).IsActive := h ▸ trivial
  have hknows := hinv.knows i
  rw [h] at hknows
  have hcontent : store.content (P.dest i) = some text := by
    rw [FileStore.content, FileStore.dir_move hstore, hknows.1, Option.map_some,
      (FileStore.move_eq_some hstore).2.2.2, hknows.2.1]
  have hown : OwnStep P w i ((w.withStore store).set i (.published text)) :=
    .set hactive (by simp) ((FileStore.Frame.move hstore).mono (fun _ hn => hn) fun _ hk => hk.elim)
  refine hown.inv hinv ?_ fun _ => .inr (.inl ⟨i, text, rfl, ?_, hcontent⟩)
  · rw [World.stage_set_self]
    exact hcontent
  · rw [World.stage_set_self]
    exact .inl rfl

/-- Every step keeps the invariant. -/
theorem Step.inv (hstep : Step P w i w') (hinv : Inv P before w) : Inv P before w' := by
  -- a job that works on its temporary file may get into any stage
  have hworking : ∀ {store : FileStore ν} {st : Stage}, (w.stage i).IsWorking → st ≠ .idle →
      w.store.Frame (· = P.tmp i) (fun k => w.store.dir (P.tmp i) = some k) store →
      Knows P store i st → Inv P before ((w.withStore store).set i st) := by
    intro store st h hst hframe hk
    exact hinv.advance h.isActive hst hframe hk (fun text hp => absurd hp (h.quiet.1 text))
      fun hg => absurd hg h.quiet.2
  have hknows := hinv.knows i
  cases hstep with
  | start h hfree => exact hinv.start h hfree
  | prepare h hstore => exact hworking h (by simp) hstore trivial
  | opened h hdir hdata => exact hworking (h ▸ trivial) (by simp) (.refl _ _ _) ⟨hdir, hdata⟩
  | fill h hstore hdata =>
    rw [h] at hknows
    refine hworking (h ▸ trivial) (by simp) (hstore.mono (fun _ hn => hn.elim) ?_)
      ⟨(hstore.dir _ not_false).trans hknows.1, hdata⟩
    rintro k rfl
    exact hknows.1
  | completed h hcount =>
    rw [h] at hknows
    refine hworking (h ▸ trivial) (by simp) (.refl _ _ _) ⟨hknows.1, ?_⟩
    rw [hknows.2, List.take_of_length_le hcount]
  | drop h => exact hinv.drop h
  | publish h hstore => exact hinv.publish h hstore
  | release h =>
    refine hinv.advance (h ▸ trivial) (by simp) (.refl _ _ _) trivial ?_ ?_ <;>
      simp [h, Stage.IsPublished, Stage.LeavesGap]
  | quit h hstore =>
    exact hworking h (by simp) (hstore.mono (fun _ hn => hn) fun _ hk => hk.elim) trivial
  | abandon h hstore =>
    refine hinv.advance (h ▸ trivial) (by simp)
      (hstore.mono (fun _ hn => hn) fun _ hk => hk.elim) trivial ?_ fun _ => .inr rfl
    simp [h, Stage.IsPublished]
  | outside N hstore hN => exact hinv.outside hstore hN

/-- Every run keeps the invariant. -/
theorem Run.inv {is : List ι} (hrun : Run (Step P) w is w') (hinv : Inv P before w) :
    Inv P before w' :=
  hrun.invariant (fun h hstep => hstep.inv h) hinv

end Steps

end Bootbox.Lib.Publish
