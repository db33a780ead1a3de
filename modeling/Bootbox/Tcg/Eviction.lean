import Mathlib.Algebra.BigOperators.Group.Finset.Piecewise
import Mathlib.Data.Int.CardIntervalMod

/-!
The instances of compiled blocks (`tcg/wasm32.c`): a table of slots for each thread, and one
cap on what is alive in all of them. A thread that wants to compile when the cap is reached
sweeps its own table like a clock. The hand clears the `used` bit of the slot it passes, and
evicts what was not used since it passed last.

The sweep always frees what it set out to: an eighth of the thread's instances. That brings
the threads together below the cap only if this thread has enough of them. One that has none
frees nothing and goes on interpreting, however often it sweeps.
-/

namespace Bootbox.Tcg.Eviction

/-- `struct instance_info`; in a free slot `tb` is null. -/
structure InstanceInfo where
  tb : Option ℕ
  fidx : ℕ
  used : Bool

/-- `INSTANCE_RUNNING_LEN`. -/
def instanceRunningLen : ℕ := 65536

def alive (slots : List InstanceInfo) : ℕ := slots.countP (·.tb.isSome)

/-- What belongs to one thread: the slots it has handed out so far, of which
`instance_running_local` are in use. -/
structure Local where
  slots : List InstanceInfo
  clockHand : ℕ
  freeSlots : List ℕ
  runningLocal : ℕ
  slots_le : slots.length ≤ instanceRunningLen
  hand_lt : slots ≠ [] → clockHand < slots.length
  running_eq : runningLocal = alive slots

/-- The variables of the loop, and the slots it has visited. -/
structure Sweep where
  slots : List InstanceInfo
  clockHand : ℕ
  freed : List ℕ
  toRemove : List ℕ
  visits : List ℕ

namespace InstanceInfo

def evicts (e : InstanceInfo) : Bool := e.tb.isSome && !e.used

/-- What is left of a slot when the hand has passed. -/
def pass (e : InstanceInfo) : InstanceInfo :=
  if e.tb = none then e
  else if e.used then { e with used := false }
  else { e with tb := none }

end InstanceInfo

/-- The body of the loop, with the slot at the hand. -/
def Sweep.visit (w : Sweep) (e : InstanceInfo) : Sweep where
  slots := w.slots.set w.clockHand e.pass
  clockHand := if w.slots.length ≤ w.clockHand + 1 then 0 else w.clockHand + 1
  freed := if e.evicts then w.freed ++ [w.clockHand] else w.freed
  toRemove := if e.evicts then w.toRemove ++ [e.fidx] else w.toRemove
  visits := w.visits ++ [w.clockHand]

/-- The loop, with the number of slots that it may still scan. -/
def Sweep.loop (want : ℕ) : ℕ → Sweep → Sweep
  | 0, w => w
  | n + 1, w =>
    if w.freed.length < want then
      match w.slots[w.clockHand]? with
      | some e => loop want n (w.visit e)
      | none => w
    else w

namespace Local

def want (t : Local) : ℕ := if t.runningLocal / 8 < 1 then t.runningLocal else t.runningLocal / 8

def sweep (t : Local) : Sweep :=
  Sweep.loop t.want (2 * t.slots.length) ⟨t.slots, t.clockHand, [], [], []⟩

end Local

/-! ### The clock -/

namespace InstanceInfo

theorem isSome_pass (e : InstanceInfo) :
    (if e.pass.tb.isSome then 1 else 0) + (if e.evicts then 1 else 0)
      = if e.tb.isSome then 1 else 0 := by
  obtain ⟨tb, fidx, used⟩ := e
  cases tb <;> cases used <;> rfl

theorem tb_pass_pass (e : InstanceInfo) : e.pass.pass.tb = none := by
  obtain ⟨tb, fidx, used⟩ := e
  cases tb <;> cases used <;> rfl

theorem tb_pass_of_used {e : InstanceInfo} (h : e.used = true) : e.pass.tb = e.tb := by
  rw [pass, if_pos h]
  split <;> rfl

end InstanceInfo

section Sweeping

variable {t : Local} {w : Sweep} {e : InstanceInfo}

/-- A sweep of a table so far: how often each slot was visited, and what that has left of it. -/
structure Swept (t : Local) (w : Sweep) : Prop where
  length : w.slots.length = t.slots.length
  hand : w.clockHand = (t.clockHand + w.visits.length) % t.slots.length
  visits : ∀ i, w.visits.count i =
    Nat.count (fun j => (t.clockHand + j) % t.slots.length = i) w.visits.length
  slots : ∀ i, w.slots[i]? = t.slots[i]?.map InstanceInfo.pass^[w.visits.count i]
  freed : w.freed.length + alive w.slots = alive t.slots

theorem Swept.visit (h : Swept t w) (he : w.slots[w.clockHand]? = some e) :
    Swept t (w.visit e) := by
  obtain ⟨hlt, rfl⟩ := List.getElem?_eq_some_iff.mp he
  have hlt' := h.length ▸ hlt
  constructor
  · exact (List.length_set ..).trans h.length
  · simp only [Sweep.visit, List.length_append, List.length_singleton, h.length]
    rw [← Nat.add_assoc, ← Nat.mod_add_mod, ← h.hand]
    split
    case isTrue hle => rw [show w.clockHand + 1 = t.slots.length by omega, Nat.mod_self]
    case isFalse hle => exact (Nat.mod_eq_of_lt (by omega)).symm
  · intro i
    simp only [Sweep.visit, List.count_append, List.length_append, List.length_singleton,
      Nat.count_succ, h.visits i, ← h.hand, List.count_singleton, beq_iff_eq]
  · intro i
    simp only [Sweep.visit, List.getElem?_set, List.count_append, List.count_singleton, beq_iff_eq]
    split
    case isTrue heq =>
      subst heq
      rw [h.slots, Option.map_eq_some_iff] at he
      obtain ⟨e, he, heq⟩ := he
      simp only [he, Option.map_some, Function.iterate_succ_apply', heq]
    case isFalse hne => simpa [hne] using h.slots i
  · have hpass := w.slots[w.clockHand].isSome_pass
    have hle := List.boole_getElem_le_countP (p := fun e : InstanceInfo => e.tb.isSome) hlt
    have hfreed : (w.visit w.slots[w.clockHand]).freed.length
        = w.freed.length + if w.slots[w.clockHand].evicts then 1 else 0 := by
      simp only [Sweep.visit]
      split <;> simp
    rw [← h.freed, hfreed]
    simp only [Sweep.visit, alive, List.countP_set hlt]
    omega

/-- The loop ends when it has freed what it wants, or scanned what it may. -/
theorem Swept.loop (want n : ℕ) (h : Swept t w) (hn : 0 < n → 0 < t.slots.length)
    (hle : w.freed.length ≤ want) :
    ∃ w', Sweep.loop want n w = w' ∧ Swept t w' ∧ w'.freed.length ≤ want ∧
      w'.visits.length ≤ w.visits.length + n ∧
      (w'.freed.length = want ∨ w'.visits.length = w.visits.length + n) := by
  induction n generalizing w with
  | zero => exact ⟨w, rfl, h, hle, le_rfl, .inr rfl⟩
  | succ n ih =>
    rw [Sweep.loop]
    split
    case isFalse hfull => exact ⟨w, rfl, h, hle, by omega, .inl (by omega)⟩
    case isTrue hlt =>
      have hhand : w.clockHand < w.slots.length := by
        rw [h.hand, h.length]
        exact Nat.mod_lt _ (hn n.succ_pos)
      have he := List.getElem?_eq_getElem hhand
      have hfreed : (w.visit w.slots[w.clockHand]).freed.length ≤ want := by
        simp only [Sweep.visit]
        split
        · exact (List.length_append ..).trans_le hlt
        · exact hle
      obtain ⟨w', hw', hswept, hrest⟩ := ih (h.visit he) (fun _ => hn n.succ_pos) hfreed
      rw [he]
      refine ⟨w', hw', hswept, ?_⟩
      simpa [Sweep.visit, Nat.add_assoc, Nat.add_comm 1] using hrest

theorem count_rounds (h : ℕ) {i n : ℕ} (hi : i < n) :
    Nat.count (fun j => (h + j) % n = i) (2 * n) = 2 := by
  have hcount (b : ℕ) :
      Nat.count (fun x => x % n = i) b = b / n + if i < b % n then 1 else 0 := by
    have hmod := Nat.count_modEq_card b (Nat.zero_lt_of_lt hi) i
    simpa only [Nat.ModEq, Nat.mod_eq_of_lt hi] using hmod
  have hadd := Nat.count_add (fun x => x % n = i) h (2 * n)
  rw [hcount, hcount, Nat.add_mul_div_right _ _ (by omega), Nat.add_mul_mod_self_right] at hadd
  omega

theorem swept_init (t : Local) : Swept t ⟨t.slots, t.clockHand, [], [], []⟩ where
  length := rfl
  hand := by
    rcases eq_or_ne t.slots [] with hnil | hne
    · simp [hnil]
    · exact (Nat.mod_eq_of_lt (t.hand_lt hne)).symm
  visits i := by simp
  slots i := by simp
  freed := Nat.zero_add _

theorem want_le (t : Local) : t.want ≤ t.runningLocal := by
  rw [Local.want]
  split <;> omega

/-- The sweep frees what it wants, in two rounds at most. -/
theorem Local.sweep_spec (t : Local) :
    Swept t t.sweep ∧ t.sweep.freed.length = t.want ∧
      ∀ i < t.slots.length, t.sweep.visits.count i ≤ 2 := by
  obtain ⟨w, hw, h, hle, hlen, hend⟩ := (swept_init t).loop t.want
    (2 * t.slots.length) (by omega) (Nat.zero_le _)
  rw [List.length_nil, Nat.zero_add] at hlen hend
  rw [Local.sweep, hw]
  refine ⟨h, ?_, fun i hi => ?_⟩
  · rcases hend with hend | hend
    · exact hend
    -- two whole rounds leave nothing that is alive
    have hdead : alive w.slots = 0 := by
      refine List.countP_eq_zero.mpr fun e he => ?_
      obtain ⟨i, hi⟩ := List.mem_iff_getElem?.mp he
      have hlt := h.length ▸ (List.getElem?_eq_some_iff.mp hi).1
      rw [h.slots, h.visits, hend, count_rounds _ hlt] at hi
      obtain ⟨e', -, rfl⟩ := Option.map_eq_some_iff.mp hi
      simp [e'.tb_pass_pass]
    have hwant := want_le t
    have hfreed := h.freed
    rw [t.running_eq] at hwant
    omega
  · rw [h.visits, ← count_rounds t.clockHand hi]
    exact Nat.count_monotone _ hlen

end Sweeping

/-! ### The threads together -/

/-- `remove_instance_running_local` -/
def Local.removeInstanceRunningLocal (t : Local) : Local where
  slots := t.sweep.slots
  clockHand := t.sweep.clockHand
  freeSlots := t.freeSlots ++ t.sweep.freed
  runningLocal := t.runningLocal - t.sweep.freed.length
  slots_le := t.sweep_spec.1.length ▸ t.slots_le
  hand_lt hne := by
    have h := t.sweep_spec.1
    rw [h.hand, h.length]
    exact Nat.mod_lt _ (h.length ▸ List.length_pos_iff.mpr hne)
  running_eq := by
    have h := t.sweep_spec.1.freed
    rw [t.running_eq]
    omega

theorem sweep_freed_le (t : Local) : t.sweep.freed.length ≤ t.runningLocal :=
  t.sweep_spec.2.1 ▸ want_le t

/-- All threads, with the number of their instances and the cap on it. -/
structure System (ι : Type) [Fintype ι] where
  locals : ι → Local
  aliveGlobal : ℕ
  maxInstanceAlive : ℕ
  alive_eq : aliveGlobal = ∑ i, (locals i).runningLocal
  max_range : 1000 ≤ maxInstanceAlive ∧ maxInstanceAlive < instanceRunningLen

variable {ι : Type} [Fintype ι] [DecidableEq ι]

def System.canAddInstance (s : System ι) : Bool := s.aliveGlobal < s.maxInstanceAlive

/-- A thread sweeps. -/
def System.evict (s : System ι) (i : ι) : System ι where
  locals := Function.update s.locals i (s.locals i).removeInstanceRunningLocal
  aliveGlobal := s.aliveGlobal - (s.locals i).sweep.freed.length
  maxInstanceAlive := s.maxInstanceAlive
  alive_eq := by
    have hupdate := Function.comp_update Local.runningLocal s.locals i
      (s.locals i).removeInstanceRunningLocal
    change _ = ∑ j, (Local.runningLocal ∘ Function.update s.locals i _) j
    rw [hupdate, Finset.sum_update_of_mem (Finset.mem_univ i), s.alive_eq,
      Finset.sum_eq_add_sum_sdiff_singleton_of_mem (Finset.mem_univ i)]
    exact Nat.sub_add_comm (sweep_freed_le _)
  max_range := s.max_range

/-- What a sweep is for: the thread can add an instance afterwards. It frees what it wants, is at
each slot at most twice, and evicts what was used only the second time. -/
structure Evicts (s : System ι) (i : ι) : Prop where
  lowers : (s.evict i).aliveGlobal < s.aliveGlobal
  canAdd : (s.evict i).canAddInstance = true
  frees : (s.locals i).sweep.freed.length = (s.locals i).want
  twice : ∀ k < (s.locals i).slots.length, (s.locals i).sweep.visits.count k ≤ 2
  second : ∀ (k : ℕ) (e e' : InstanceInfo), (s.locals i).slots[k]? = some e → e.tb.isSome →
    e.used = true → (s.locals i).sweep.slots[k]? = some e' → e'.tb = none →
      (s.locals i).sweep.visits.count k = 2

/-- A sweep when the cap is reached makes room exactly if the thread's share of the instances is
large enough; when the cap is not exceeded, if the thread has any. -/
theorem evicts_iff (s : System ι) (i : ι) (hfull : s.canAddInstance = false) :
    Evicts s i ↔ s.aliveGlobal < s.maxInstanceAlive + (s.locals i).want := by
  obtain ⟨hswept, hfrees, htwice⟩ := (s.locals i).sweep_spec
  have halive : (s.evict i).aliveGlobal = s.aliveGlobal - (s.locals i).want :=
    congrArg (s.aliveGlobal - ·) hfrees
  have hadd : (s.evict i).canAddInstance = true ↔
      s.aliveGlobal - (s.locals i).want < s.maxInstanceAlive := by
    rw [System.canAddInstance, halive]
    exact decide_eq_true_iff
  have hle : s.maxInstanceAlive ≤ s.aliveGlobal := not_lt.mp (of_decide_eq_false hfull)
  constructor
  · intro h
    have hroom := hadd.mp h.canAdd
    omega
  · intro hlt
    have hroom : s.aliveGlobal - (s.locals i).want < s.maxInstanceAlive := by
      have := s.max_range.1
      omega
    refine ⟨halive ▸ hroom.trans_le hle, hadd.mpr hroom, hfrees, htwice, ?_⟩
    intro k e e' he hlive hused hafter hdead
    rw [hswept.slots, he] at hafter
    cases hafter
    have hcount := htwice k (List.getElem?_eq_some_iff.mp he).1
    by_contra hne
    obtain hcount | hcount : (s.locals i).sweep.visits.count k = 0 ∨
        (s.locals i).sweep.visits.count k = 1 := by omega
    · rw [hcount] at hdead
      exact absurd hdead (Option.isSome_iff_ne_none.mp hlive)
    · rw [hcount, Function.iterate_one, InstanceInfo.tb_pass_of_used hused] at hdead
      exact absurd hdead (Option.isSome_iff_ne_none.mp hlive)

/-- A thread that has compiled `n` blocks and run them all. -/
def filled (n : ℕ) (h : n ≤ instanceRunningLen) : Local :=
  ⟨List.replicate n ⟨some 1, 1, true⟩, 0, [], n, by simpa, by simp; omega,
    by simp [alive, List.countP_replicate]⟩

def twoThreads (m n : ℕ) (hm : m ≤ instanceRunningLen) (hn : n ≤ instanceRunningLen) :
    System Bool where
  locals i := if i then filled n hn else filled m hm
  aliveGlobal := n + m
  maxInstanceAlive := 15000
  alive_eq := by simp [filled]
  max_range := by decide

theorem evicts_sixteen :
    (twoThreads 16 14984 (by decide) (by decide)).canAddInstance = false ∧
      Evicts (twoThreads 16 14984 (by decide) (by decide)) false :=
  ⟨rfl, (evicts_iff _ _ rfl).mpr (by decide)⟩

/-- The other thread has all instances that there may be. -/
theorem thread_without_instances_frees_nothing :
    (twoThreads 0 15000 (by decide) (by decide)).canAddInstance = false ∧
      ¬ Evicts (twoThreads 0 15000 (by decide) (by decide)) false :=
  ⟨rfl, fun h => lt_irrefl 15000 h.lowers⟩

/-- However often a thread sweeps, it gets to add an instance exactly if the other threads have
fewer than the cap. -/
theorem canAddInstance_after_sweeps_iff (s : System ι) (i : ι) :
    (∃ n, ((System.evict · i)^[n] s).canAddInstance = true) ↔
      s.aliveGlobal - (s.locals i).runningLocal < s.maxInstanceAlive := by
  -- `n` sweeps free `k` instances, at least one each while there are any
  have hsweeps (n : ℕ) : ∀ s : System ι, ∃ k ≤ (s.locals i).runningLocal,
      min n (s.locals i).runningLocal ≤ k ∧ (((System.evict · i)^[n] s).canAddInstance = true ↔
        s.aliveGlobal - k < s.maxInstanceAlive) := by
    induction n with
    | zero => exact fun s => ⟨0, Nat.zero_le _, by omega, decide_eq_true_iff⟩
    | succ n ih =>
      intro s
      obtain ⟨k, hle, hmin, hadd⟩ := ih (s.evict i)
      have hfreed := (s.locals i).sweep_spec.2.1
      have hrun : ((s.evict i).locals i).runningLocal
          = (s.locals i).runningLocal - (s.locals i).want := by
        simp [System.evict, Local.removeInstanceRunningLocal, hfreed]
      have hwant := want_le (s.locals i)
      have hpos : 0 < (s.locals i).runningLocal → 0 < (s.locals i).want := by
        rw [Local.want]
        split <;> omega
      refine ⟨(s.locals i).want + k, by omega, by omega, hadd.trans ?_⟩
      change s.aliveGlobal - (s.locals i).sweep.freed.length - k < s.maxInstanceAlive ↔ _
      rw [hfreed, Nat.sub_sub]
  constructor
  · rintro ⟨n, hn⟩
    obtain ⟨k, hle, -, hadd⟩ := hsweeps n s
    have := hadd.mp hn
    omega
  · intro h
    obtain ⟨k, hle, hmin, hadd⟩ := hsweeps (s.locals i).runningLocal s
    exact ⟨_, hadd.mpr (by omega)⟩

end Bootbox.Tcg.Eviction
