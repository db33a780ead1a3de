import Bootbox.Lib.Trace

/-!
The 16-byte atomics (`atomic16_cmpxchg`, `atomic16_read_rw` and `atomic16_set` for wasm): the two
halves of a value are loaded and stored one after the other, under one global spinlock, and
`atomic16_set` also reads its location without the lock.

The interleavings of any number of threads are compared with an object whose operations take
effect in one step between call and return.
-/

namespace Bootbox.Tcg.Atomic16

open Lib.Trace Function

abbrev Int128 := BitVec 64 × BitVec 64

variable {Loc ι : Type*}

inductive Op (Loc : Type*)
  | cmpxchg (ptr : Loc) (cmp new : Int128)
  | read (ptr : Loc)
  | set (ptr : Loc) (val : Int128)

namespace Op

def ptr : Op Loc → Loc
  | cmpxchg p _ _ | read p | set p _ => p

/-- What the operation's `atomic16_cmpxchg` stores. -/
def new : Op Loc → Int128
  | cmpxchg _ _ new => new
  | read _ => (0, 0)
  | set _ val => val

def result (old : Int128) : Op Loc → Option Int128
  | cmpxchg _ _ _ | read _ => some old
  | set _ _ => none

/-- The operation `cmp` is compared for. -/
def Expects (cmp : Int128) : Op Loc → Prop
  | cmpxchg _ c _ => cmp = c
  | read _ => cmp = (0, 0)
  | set _ _ => True

/-- `set` tries again when the location has changed. -/
def Retries (cmp old : Int128) : Op Loc → Prop
  | set _ _ => old ≠ cmp
  | _ => False

instance (cmp old : Int128) : (op : Op Loc) → Decidable (op.Retries cmp old)
  | cmpxchg _ _ _ | read _ => isFalse id
  | set _ _ => inferInstanceAs (Decidable (old ≠ cmp))

end Op

inductive Event (Loc ι : Type*)
  | call (i : ι) (op : Op Loc)
  | ret (i : ι) (r : Option Int128)

/-! ### The object -/

inductive Call (Loc : Type*)
  | idle
  | pending (op : Op Loc)
  | done (r : Option Int128)

/-- What an operation returns and what it leaves in memory. -/
def Op.apply [DecidableEq Loc] (mem : Loc → Int128) : Op Loc → Option Int128 × (Loc → Int128)
  | cmpxchg p cmp new => (some (mem p), if mem p = cmp then update mem p new else mem)
  | read p => (some (mem p), mem)
  | set p val => (none, update mem p val)

structure Object (Loc ι : Type*) where
  mem : Loc → Int128
  call : ι → Call Loc

section Object

variable [DecidableEq Loc] [DecidableEq ι]

/-- The object's steps; those between call and return are not seen from outside. -/
inductive Object.Step : Object Loc ι → Option (Event Loc ι) → Object Loc ι → Prop
  | call {a : Object Loc ι} {i : ι} (op : Op Loc) (h : a.call i = .idle) :
      Object.Step a (some (.call i op)) ⟨a.mem, update a.call i (.pending op)⟩
  | act {a : Object Loc ι} {i : ι} {op : Op Loc} (h : a.call i = .pending op) :
      Object.Step a none
        ⟨(op.apply a.mem).2, update a.call i (.done (op.apply a.mem).1)⟩
  | ret {a : Object Loc ι} {i : ι} {r : Option Int128} (h : a.call i = .done r) :
      Object.Step a (some (.ret i r)) ⟨a.mem, update a.call i .idle⟩

end Object

/-! ### The code -/

/-- Where a thread is. -/
inductive Pc (Loc : Type*)
  | idle
  /-- `cur = *ptr` -/
  | curLo (op : Op Loc)
  | curHi (op : Op Loc) (lo : BitVec 64)
  /-- `while (qatomic_xchg(&qemu_wasm128_lock, 1u))` -/
  | acquire (op : Op Loc) (cmp : Int128)
  /-- `old = *ptr_align` -/
  | readLo (op : Op Loc) (cmp : Int128)
  | readHi (op : Op Loc) (cmp : Int128) (lo : BitVec 64)
  /-- `*ptr_align = new` -/
  | writeLo (op : Op Loc) (cmp old : Int128)
  | writeHi (op : Op Loc) (cmp old : Int128)
  /-- `qatomic_store_release(&qemu_wasm128_lock, 0u)` -/
  | release (op : Op Loc) (cmp old : Int128)
  | ret (r : Option Int128)

def Op.start : Op Loc → Pc Loc
  | cmpxchg p cmp new => .acquire (.cmpxchg p cmp new) cmp
  | read p => .acquire (.read p) (0, 0)
  | set p val => .curLo (.set p val)

structure State (Loc ι : Type*) where
  mem : Loc → Int128
  lock : Bool
  pc : ι → Pc Loc

section Code

variable [DecidableEq Loc] [DecidableEq ι]

def State.goto (s : State Loc ι) (i : ι) (pc : Pc Loc) : State Loc ι :=
  { s with pc := update s.pc i pc }

/-- One access of thread `i` to the memory or the lock. -/
def State.run (s : State Loc ι) (i : ι) : State Loc ι :=
  match s.pc i with
  | .idle | .ret _ => s
  | .curLo op => s.goto i (.curHi op (s.mem op.ptr).1)
  | .curHi op lo => s.goto i (.acquire op (lo, (s.mem op.ptr).2))
  | .acquire op cmp => if s.lock then s else { s with lock := true }.goto i (.readLo op cmp)
  | .readLo op cmp => s.goto i (.readHi op cmp (s.mem op.ptr).1)
  | .readHi op cmp lo =>
    let old := (lo, (s.mem op.ptr).2)
    s.goto i (if old = cmp ∧ old ≠ op.new then .writeLo op cmp old else .release op cmp old)
  | .writeLo op cmp old =>
    { s with mem := update s.mem op.ptr (op.new.1, (s.mem op.ptr).2) }.goto i
      (.writeHi op cmp old)
  | .writeHi op cmp old =>
    { s with mem := update s.mem op.ptr ((s.mem op.ptr).1, op.new.2) }.goto i
      (.release op cmp old)
  | .release op cmp old =>
    { s with lock := false }.goto i
      (if op.Retries cmp old then op.start else .ret (op.result old))

inductive State.Step : State Loc ι → Option (Event Loc ι) → State Loc ι → Prop
  | call {s : State Loc ι} {i : ι} (op : Op Loc) (h : s.pc i = .idle) :
      State.Step s (some (.call i op)) (s.goto i op.start)
  | run (s : State Loc ι) (i : ι) : State.Step s none (s.run i)
  | ret {s : State Loc ι} {i : ι} {r : Option Int128} (h : s.pc i = .ret r) :
      State.Step s (some (.ret i r)) (s.goto i .idle)

end Code

/-! ### The simulation -/

def Pc.storing : Pc Loc → Option (Op Loc)
  | .writeLo op _ _ | .writeHi op _ _ => some op
  | _ => none

/-- The operation that the thread is in. -/
def Pc.op : Pc Loc → Option (Op Loc)
  | .curLo op | .curHi op _ | .acquire op _ | .readLo op _ | .readHi op _ _ | .writeLo op _ _
  | .writeHi op _ _ | .release op _ _ => some op
  | .idle | .ret _ => none

def Pc.Holds : Pc Loc → Prop
  | .readLo _ _ | .readHi _ _ _ | .writeLo _ _ _ | .writeHi _ _ _ | .release _ _ _ => True
  | _ => False

/-- Where the object is when a thread is at a place. -/
def Pc.Sim (mem : Loc → Int128) : Pc Loc → Call Loc → Prop
  | .idle, c => c = .idle
  | .curLo op, c | .curHi op _, c => (∀ cmp, op.Expects cmp) ∧ c = .pending op
  | .acquire op cmp, c | .readLo op cmp, c => op.Expects cmp ∧ c = .pending op
  | .readHi op cmp lo, c => op.Expects cmp ∧ lo = (mem op.ptr).1 ∧ c = .pending op
  | .writeLo op cmp old, c =>
    op.Expects cmp ∧ old = cmp ∧ old ≠ op.new ∧ c = .done (op.result old)
  | .writeHi op cmp old, c =>
    (op.Expects cmp ∧ old = cmp ∧ old ≠ op.new ∧ c = .done (op.result old)) ∧
      (mem op.ptr).1 = op.new.1
  | .release op cmp old, c => c = if op.Retries cmp old then .pending op else .done (op.result old)
  | .ret r, c => c = .done r

structure Sim [DecidableEq Loc] (s : State Loc ι) (a : Object Loc ι) : Prop where
  threads : ∀ i, (s.pc i).Sim s.mem (a.call i)
  lock : ∀ i, (s.pc i).Holds → s.lock = true ∧ ∀ j, j ≠ i → ¬ (s.pc j).Holds
  /-- What is being stored is already in the object's memory. -/
  storing : ∀ i, ∀ op ∈ (s.pc i).storing, a.mem = update s.mem op.ptr op.new
  quiet : (∀ i, (s.pc i).storing = none) → a.mem = s.mem

variable {pc : Pc Loc}

theorem Pc.storing_of_not_holds (h : ¬ pc.Holds) : pc.storing = none := by
  cases pc <;> first | rfl | exact absurd trivial h

variable {c : Call Loc} {mem : Loc → Int128}

theorem Pc.Sim.of_not_holds (h : pc.Sim mem c) (hpc : ¬ pc.Holds) (mem' : Loc → Int128) :
    pc.Sim mem' c := by
  cases pc <;> first | exact h | exact absurd trivial hpc

theorem Op.start_sim (op : Op Loc) (mem : Loc → Int128) : op.start.Sim mem (.pending op) := by
  cases op with
  | cmpxchg | read => exact ⟨rfl, rfl⟩
  | set => exact ⟨fun _ => trivial, rfl⟩

theorem Op.start_not_holds (op : Op Loc) : ¬ op.start.Holds := by
  cases op <;> exact id

variable {op : Op Loc}

theorem Op.not_retries {cmp old : Int128} (h : old = cmp) : ¬ op.Retries cmp old := by
  cases op with
  | cmpxchg | read => exact id
  | set => exact fun hne => hne h

/-- The operation that compares `cmp` with what is in memory takes effect, unless it tries
again. -/
theorem Op.apply_eq [DecidableEq Loc] {cmp : Int128} (h : op.Expects cmp)
    (hretry : ¬ op.Retries cmp (mem op.ptr)) :
    op.apply mem = (op.result (mem op.ptr),
      if mem op.ptr = cmp ∧ mem op.ptr ≠ op.new then update mem op.ptr op.new
      else mem) := by
  have hskip : ∀ p cmp new, (if mem p = cmp ∧ mem p ≠ new then update mem p new
      else mem) = if mem p = cmp then update mem p new else mem := by
    intro p cmp new
    by_cases hn : mem p = new
    · have hsame : update mem p new = mem := by
        rw [← hn]
        exact update_eq_self ..
      rw [hsame, ite_self, ite_self]
    · simp only [hn, ne_eq, not_false_eq_true, and_true]
  rw [hskip]
  cases op with
  | cmpxchg p c new =>
    obtain rfl : cmp = c := h
    rfl
  | read p =>
    obtain rfl : cmp = (0, 0) := h
    refine Prod.ext rfl ?_
    change mem = if mem p = (0, 0) then update mem p (0, 0) else mem
    split
    case isTrue hzero => rw [← hzero, update_eq_self]
    case isFalse => rfl
  | set p val => exact Prod.ext rfl (if_pos (not_not.mp hretry)).symm

section Step

variable [DecidableEq Loc] [DecidableEq ι] {s : State Loc ι} {a : Object Loc ι} {i : ι}

/-- A step of a thread that does not have the lock, before and after. -/
theorem Sim.outside (h : Sim s a) (hbefore : ¬ (s.pc i).Holds) (hafter : ¬ pc.Holds)
    (hsim : pc.Sim s.mem c) : Sim (s.goto i pc) ⟨a.mem, update a.call i c⟩ := by
  have hpc : ∀ j, j ≠ i → (s.goto i pc).pc j = s.pc j := fun j hj => update_of_ne hj ..
  have hself : (s.goto i pc).pc i = pc := update_self ..
  have hstoring : ∀ j, ((s.goto i pc).pc j).storing = (s.pc j).storing := by
    intro j
    rcases eq_or_ne j i with rfl | hj
    · rw [hself, Pc.storing_of_not_holds hafter, Pc.storing_of_not_holds hbefore]
    · rw [hpc j hj]
  have hholds : ∀ j, ((s.goto i pc).pc j).Holds ↔ (s.pc j).Holds := by
    intro j
    rcases eq_or_ne j i with rfl | hj
    · rw [hself]
      exact iff_of_false hafter hbefore
    · rw [hpc j hj]
  refine ⟨fun j => ?_, fun j hj => ?_, fun j op hop => ?_, fun hnone => ?_⟩
  · rcases eq_or_ne j i with rfl | hj
    · rw [hself]
      change pc.Sim s.mem (update a.call j c j)
      rwa [update_self]
    · rw [hpc j hj]
      change (s.pc j).Sim s.mem (update a.call i c j)
      rw [update_of_ne hj]
      exact h.threads j
  · obtain ⟨hlock, hothers⟩ := h.lock j ((hholds j).mp hj)
    exact ⟨hlock, fun k hk hk' => hothers k hk ((hholds k).mp hk')⟩
  · rw [hstoring] at hop
    exact h.storing j op hop
  · exact h.quiet fun j => (hstoring j).symm.trans (hnone j)

/-- A step of a thread while no other has the lock. -/
theorem Sim.inside (h : Sim s a) (hothers : ∀ j, j ≠ i → ¬ (s.pc j).Holds) {mem' : Loc → Int128}
    {lock : Bool} (hlock : pc.Holds → lock = true) (hsim : pc.Sim mem c)
    (hmem : mem' = match pc.storing with
      | some op => update mem op.ptr op.new
      | none => mem) :
    Sim ⟨mem, lock, update s.pc i pc⟩ ⟨mem', update a.call i c⟩ := by
  have hfree : ∀ j, j ≠ i → ¬ (update s.pc i pc j).Holds := by
    intro j hj
    rw [update_of_ne hj]
    exact hothers j hj
  have hself : ∀ j, (update s.pc i pc j).Holds → j = i := fun j hj => by
    by_contra hne
    exact hfree j hne hj
  refine ⟨fun j => ?_, fun j hj => ?_, fun j op hop => ?_, fun hnone => ?_⟩
  · rcases eq_or_ne j i with rfl | hj
    · change (update s.pc j pc j).Sim mem (update a.call j c j)
      rwa [update_self, update_self]
    · change (update s.pc i pc j).Sim mem (update a.call i c j)
      rw [update_of_ne hj, update_of_ne hj]
      exact (h.threads j).of_not_holds (hothers j hj) mem
  · obtain rfl := hself j hj
    refine ⟨hlock ?_, hfree⟩
    change (update s.pc j pc j).Holds at hj
    rwa [update_self] at hj
  · have hj : j = i := by
      by_contra hne
      rw [Pc.storing_of_not_holds (hfree j hne)] at hop
      cases hop
    subst hj
    change op ∈ (update s.pc j pc j).storing at hop
    rw [update_self] at hop
    rw [hmem, hop]
  · have hpc := hnone i
    change (update s.pc i pc i).storing = none at hpc
    rw [update_self] at hpc
    rw [hmem, hpc]

omit [DecidableEq ι] in
theorem Sim.mem_eq (h : Sim s a) (hothers : ∀ j, j ≠ i → ¬ (s.pc j).Holds)
    (hself : (s.pc i).storing = none) : a.mem = s.mem := by
  refine h.quiet fun j => ?_
  rcases eq_or_ne j i with rfl | hj
  · exact hself
  · exact Pc.storing_of_not_holds (hothers j hj)

/-- Every step of a thread is no step of the object or one. -/
theorem Sim.step {s' : State Loc ι} {e : Option (Event Loc ι)} (h : Sim s a)
    (hstep : State.Step s e s') :
    ∃ es a', Run Object.Step a es a' ∧ es.filterMap id = e.toList ∧ Sim s' a' := by
  cases hstep with
  | @call i op hpc =>
    have hthread := h.threads i
    rw [hpc] at hthread
    refine ⟨[some (.call i op)], _, .cons (.call op hthread) (.nil _), rfl, ?_⟩
    exact h.outside (by rw [hpc]; exact id) op.start_not_holds (op.start_sim s.mem)
  | @ret i r hpc =>
    have hthread := h.threads i
    rw [hpc] at hthread
    refine ⟨[some (.ret i r)], _, .cons (.ret hthread) (.nil _), rfl, ?_⟩
    exact h.outside (by rw [hpc]; exact id) id rfl
  | run i =>
    have hthread := h.threads i
    -- the object stays where it is unless the thread reads the second half
    have hstay : ∀ {s'}, Sim s' ⟨a.mem, update a.call i (a.call i)⟩ →
        ∃ es a', Run Object.Step a es a' ∧ es.filterMap id = [] ∧ Sim s' a' := by
      intro s' hs'
      rw [update_eq_self] at hs'
      exact ⟨[], a, .nil a, rfl, hs'⟩
    rw [State.run]
    split
    case h_1 | h_2 => exact ⟨[], a, .nil a, rfl, h⟩
    case h_3 op hpc | h_4 op lo hpc =>
      rw [hpc] at hthread
      refine hstay (h.outside (by rw [hpc]; exact id) id ?_)
      first | exact hthread | exact ⟨hthread.1 _, hthread.2⟩
    case h_5 op cmp hpc =>
      rw [hpc] at hthread
      split
      case isTrue => exact ⟨[], a, .nil a, rfl, h⟩
      case isFalse hfree =>
        have hothers : ∀ j, j ≠ i → ¬ (s.pc j).Holds := fun j _ hj => hfree (h.lock j hj).1
        have hmem : a.mem = s.mem := h.mem_eq hothers (by rw [hpc]; rfl)
        exact hstay (h.inside hothers (fun _ => rfl) hthread hmem)
    case h_6 op cmp hpc =>
      rw [hpc] at hthread
      have hlock := h.lock i (by rw [hpc]; trivial)
      have hmem : a.mem = s.mem := h.mem_eq hlock.2 (by rw [hpc]; rfl)
      exact hstay (h.inside hlock.2 (fun _ => hlock.1) ⟨hthread.1, rfl, hthread.2⟩ hmem)
    case h_7 op cmp lo hpc =>
      rw [hpc] at hthread
      have hlock := h.lock i (by rw [hpc]; trivial)
      have hmem : a.mem = s.mem := h.mem_eq hlock.2 (by rw [hpc]; rfl)
      obtain ⟨hexpects, hlo, hcall⟩ := hthread
      have hold : (lo, (s.mem op.ptr).2) = s.mem op.ptr := Prod.ext hlo rfl
      dsimp only
      rw [hold]
      by_cases hretry : op.Retries cmp (s.mem op.ptr)
      · rw [if_neg (fun hc : _ ∧ _ => Op.not_retries hc.1 hretry)]
        refine hstay (h.inside hlock.2 (fun _ => hlock.1) ?_ hmem)
        exact hcall.trans (if_pos hretry).symm
      · have hact := Object.Step.act hcall
        rw [hmem, Op.apply_eq hexpects hretry] at hact
        refine ⟨[none], _, .cons hact (.nil _), rfl, ?_⟩
        split
        case isTrue hc =>
          exact h.inside hlock.2 (fun _ => hlock.1) ⟨hexpects, hc.1, hc.2, rfl⟩ rfl
        case isFalse hc =>
          exact h.inside hlock.2 (fun _ => hlock.1) (if_neg hretry).symm rfl
    case h_8 op cmp old hpc =>
      rw [hpc] at hthread
      have hlock := h.lock i (by rw [hpc]; trivial)
      refine hstay (h.inside hlock.2 (fun _ => hlock.1) ⟨hthread, ?_⟩ ?_)
      · change (update s.mem op.ptr _ op.ptr).1 = _
        rw [update_self]
      · rw [h.storing i op (by rw [hpc]; rfl)]
        exact (update_idem ..).symm
    case h_9 op cmp old hpc =>
      rw [hpc] at hthread
      have hlock := h.lock i (by rw [hpc]; trivial)
      obtain ⟨⟨-, hold, -, hcall⟩, hlo⟩ := hthread
      refine hstay (h.inside hlock.2 (fun _ => hlock.1) ?_ ?_)
      · exact hcall.trans (if_neg (Op.not_retries hold)).symm
      · rw [h.storing i op (by rw [hpc]; rfl), hlo]
        rfl
    case h_10 op cmp old hpc =>
      rw [hpc] at hthread
      have hlock := h.lock i (by rw [hpc]; trivial)
      have hmem : a.mem = s.mem := h.mem_eq hlock.2 (by rw [hpc]; rfl)
      have hcall : a.call i = _ := hthread
      by_cases hretry : op.Retries cmp old
      · rw [if_pos hretry] at hcall ⊢
        refine hstay (h.inside hlock.2 (fun hh => absurd hh op.start_not_holds) ?_ ?_)
        · rw [hcall]
          exact op.start_sim s.mem
        · rw [Pc.storing_of_not_holds op.start_not_holds]
          exact hmem
      · rw [if_neg hretry] at hcall ⊢
        exact hstay (h.inside hlock.2 False.elim hcall hmem)

/-- An operation that compares with what it would store changes nothing. -/
theorem Sim.run_mem (h : Sim s a) (hop : (s.pc i).op = some op)
    (hread : ∀ cmp, op.Expects cmp → cmp = op.new) : (s.run i).mem = s.mem := by
  have hthread := h.threads i
  rw [State.run]
  split <;> rename_i hpc <;> rw [hpc] at hop hthread
  case h_5 => split <;> rfl
  case h_8 =>
    cases hop
    obtain ⟨hexpects, hold, hne, -⟩ := hthread
    exact absurd (hold.trans (hread _ hexpects)) hne
  case h_9 =>
    cases hop
    obtain ⟨⟨hexpects, hold, hne, -⟩, -⟩ := hthread
    exact absurd (hold.trans (hread _ hexpects)) hne
  all_goals rfl

end Step

variable [DecidableEq Loc] [DecidableEq ι]

def State.init (mem : Loc → Int128) : State Loc ι := ⟨mem, false, fun _ => .idle⟩

def Object.init (mem : Loc → Int128) : Object Loc ι := ⟨mem, fun _ => .idle⟩

theorem Sim.run {s s' : State Loc ι} {a : Object Loc ι} {es : List (Option (Event Loc ι))}
    (h : Sim s a) (hrun : Run State.Step s es s') :
    ∃ es' a', Run Object.Step a es' a' ∧ es'.filterMap id = es.filterMap id ∧ Sim s' a' := by
  induction hrun generalizing a with
  | nil s => exact ⟨[], a, .nil a, rfl, h⟩
  | @cons s s₁ s' e es hstep _ ih =>
    obtain ⟨es₁, a₁, hrun₁, hes₁, h₁⟩ := h.step hstep
    obtain ⟨es₂, a₂, hrun₂, hes₂, h₂⟩ := ih h₁
    refine ⟨es₁ ++ es₂, a₂, Run.append_iff.mpr ⟨a₁, hrun₁, hrun₂⟩, ?_, h₂⟩
    rw [List.filterMap_append, hes₁, hes₂]
    cases e <;> rfl

omit [DecidableEq ι] in
theorem Sim.init (mem : Loc → Int128) : Sim (State.init mem : State Loc ι) (.init mem) where
  threads _ := rfl
  lock _ h := h.elim
  storing _ _ h := by cases h
  quiet _ := rfl

/-- Every history of calls and returns is one of the object, whose operations take effect in one
step; and a thread that only reads changes nothing. -/
theorem linearizable (mem : Loc → Int128) {es : List (Option (Event Loc ι))} {s : State Loc ι}
    (hrun : Run State.Step (.init mem) es s) :
    (∃ es' a, Run Object.Step (.init mem) es' a ∧ es'.filterMap id = es.filterMap id ∧
      ((∀ i, (s.pc i).storing = none) → a.mem = s.mem)) ∧
    ∀ i p, (s.pc i).op = some (.read p) → (s.run i).mem = s.mem := by
  obtain ⟨es', a, hrun', hes, hsim⟩ := (Sim.init mem).run hrun
  exact ⟨⟨es', a, hrun', hes, hsim.quiet⟩, fun i p hop => hsim.run_mem hop fun _ h => h⟩

theorem run_schedule (s : State Loc ι) (is : List ι) :
    Run State.Step s (is.map fun _ => none) (is.foldl State.run s) := by
  induction is generalizing s with
  | nil => exact .nil s
  | cons i is ih => exact .cons (.run s i) (ih _)

/-- Two threads: the one that sets reads halves of two values while the other stores, waits for
the lock, finds another value than it has read and tries again. -/
theorem linearizable_swap : ∃ s : State Unit Bool, s.mem () = (2, 2) ∧ ∃ es a,
    Run Object.Step (.init fun _ => (0, 0)) es a ∧ a.mem = s.mem ∧
      es.filterMap id = [.call false (.cmpxchg () (0, 0) (1, 1)), .call true (.set () (2, 2)),
        .ret false (some (0, 0)), .ret true none] := by
  have hrun : Run State.Step (.init fun _ => (0, 0))
      ([some (.call false (.cmpxchg () (0, 0) (1, 1))), some (.call true (.set () (2, 2)))] ++
        ([false, false, false, true, false, false, true, true, false].map fun _ => none) ++
        [some (.ret false (some (0, 0)))] ++ ((List.replicate 12 true).map fun _ => none) ++
        [some (.ret true none)]) _ :=
    Run.append_iff.mpr ⟨_, Run.append_iff.mpr ⟨_, Run.append_iff.mpr ⟨_, Run.append_iff.mpr
      ⟨_, .cons (.call _ rfl) <| .cons (.call _ rfl) <| .nil _, run_schedule _ _⟩,
      .cons (.ret rfl) <| .nil _⟩, run_schedule _ _⟩, .cons (.ret rfl) <| .nil _⟩
  obtain ⟨es, a, hrun', hes, hmem⟩ := (linearizable _ hrun).1
  exact ⟨_, rfl, es, a, hrun', hmem fun i => by cases i <;> rfl, hes⟩

/-! ### The lock -/

/-- A lock that is taken is held by a thread. -/
def Held (s : State Loc ι) : Prop := s.lock = true → ∃ i, (s.pc i).Holds

omit [DecidableEq Loc] in
theorem Held.goto {s : State Loc ι} {i : ι} {pc : Pc Loc} (h : Held s)
    (hpc : (s.pc i).Holds → pc.Holds) : Held (s.goto i pc) := by
  intro hlock
  obtain ⟨j, hj⟩ := h hlock
  refine ⟨j, ?_⟩
  rcases eq_or_ne j i with rfl | hne
  · simpa [State.goto] using hpc hj
  · simpa [State.goto, hne] using hj

theorem Held.step {s s' : State Loc ι} {e : Option (Event Loc ι)} (h : Held s)
    (hstep : State.Step s e s') : Held s' := by
  cases hstep with
  | call op hpc | ret hpc => exact h.goto (by simp [hpc, Pc.Holds])
  | run i =>
    rw [State.run]
    split
    case h_1 | h_2 => exact h
    case h_5 =>
      split
      · exact h
      · exact fun _ => ⟨i, by simp [State.goto, Pc.Holds]⟩
    case h_7 =>
      refine h.goto fun _ => ?_
      split <;> trivial
    case h_8 | h_9 => exact fun _ => ⟨i, by simp [State.goto, Pc.Holds]⟩
    case h_10 => exact fun hlock => by cases hlock
    all_goals exact h.goto (by simp_all [Pc.Holds])

/-- However the threads interleave, the lock is taken exactly while one of them is between
acquiring and releasing it, and no second one is. -/
theorem one_holder (mem : Loc → Int128) {es : List (Option (Event Loc ι))} {s : State Loc ι}
    (hrun : Run State.Step (.init mem) es s) :
    (s.lock = true → ∃! i, (s.pc i).Holds) ∧ (s.lock = false → ∀ i, ¬ (s.pc i).Holds) := by
  obtain ⟨_, a, -, -, hsim⟩ := (Sim.init mem).run hrun
  have hheld : Held s := hrun.invariant (fun h => h.step) fun h => by cases h
  refine ⟨fun hlock => ?_, fun hfree i hi => ?_⟩
  · obtain ⟨i, hi⟩ := hheld hlock
    exact ⟨i, hi, fun j hj => by_contra fun hne => (hsim.lock i hi).2 j hne hj⟩
  · rw [(hsim.lock i hi).1] at hfree
    cases hfree

/-- The second thread waits for the first. -/
theorem one_holder_waiting : ∃ s : State Unit Bool, s.lock = true ∧
    (s.pc true).op = some (.read ()) ∧ ∃! i, (s.pc i).Holds := by
  have hrun : Run State.Step (.init fun _ => (0, 0))
      [some (.call false (.read ())), none, some (.call true (.read ())), none] _ :=
    .cons (.call _ rfl) <| .cons (.run _ false) <| .cons (.call _ rfl) <| .cons (.run _ true) <|
      .nil _
  exact ⟨_, rfl, rfl, (one_holder _ hrun).1 rfl⟩

end Bootbox.Tcg.Atomic16
