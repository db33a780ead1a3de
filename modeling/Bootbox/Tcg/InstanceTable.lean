import Bootbox.Tcg.Eviction

/-!
The dispatcher of a thread (`tcg_qemu_tb_exec`) and its table of compiled blocks as a cache. A
block keeps the slot that it got when it was compiled. The slot may since have been evicted and
given to another block, so a lookup compares the block in the slot with its own; and a block that
is generated anew, perhaps where another one was, starts without a slot.

What the thread sees of the other threads, and what the browser makes of a module, is part of an
event. So whatever the other threads do, what this one does is a run of the model.
-/

namespace Bootbox.Tcg.Eviction

open List Option Function

/-! ### The table -/

/-- The list of the slots without a block, each of them once. -/
def Free (slots : List InstanceInfo) (free : List ℕ) : Prop :=
  free.Nodup ∧ ∀ i, i ∈ free ↔ slots[i]?.map (·.tb) = some none

/-- A thread's table. -/
structure Table extends Local where
  free : Free slots freeSlots
  hand_zero : slots = [] → clockHand = 0

variable {f : List ℕ} {w : Sweep} {e : InstanceInfo} {t : Table}

theorem Free.visit (h : Free w.slots (f ++ w.freed)) (he : w.slots[w.clockHand]? = some e) :
    Free (w.visit e).slots (f ++ (w.visit e).freed) := by
  unfold Free at *
  obtain ⟨tb, fidx, used⟩ := e
  cases tb <;> cases used <;> grind [Sweep.visit, InstanceInfo.pass, InstanceInfo.evicts]

theorem Free.loop (want n : ℕ) (h : Free w.slots (f ++ w.freed)) :
    Free (Sweep.loop want n w).slots (f ++ (Sweep.loop want n w).freed) := by
  fun_induction Sweep.loop want n w with
  | case2 n w hlt e he ih => exact ih (h.visit he)
  | _ => exact h

/-- No slot has come to another block or function. -/
def Keeps (slots slots' : List InstanceInfo) : Prop := ∀ (j : ℕ) (e' : InstanceInfo),
  slots'[j]? = some e' → e'.tb.isSome → ∃ e, slots[j]? = some e ∧ e.tb = e'.tb ∧ e.fidx = e'.fidx

/-- What is removed were the functions of blocks that have lost their slots. -/
structure Removes (slots : List InstanceInfo) (w : Sweep) : Prop where
  keeps : Keeps slots w.slots
  lost : ∀ fidx ∈ w.toRemove, ∃ (j : ℕ) (e : InstanceInfo),
    slots[j]? = some e ∧ e.tb.isSome ∧ e.fidx = fidx ∧ w.slots[j]?.map (·.tb) = some none

theorem Removes.visit {slots : List InstanceInfo} (h : Removes slots w)
    (he : w.slots[w.clockHand]? = some e) : Removes slots (w.visit e) := by
  obtain ⟨hkeeps, hlost⟩ := h
  constructor
  · intro j e' he' htb
    have hj := hkeeps j
    grind [Sweep.visit, InstanceInfo.pass]
  · intro fidx hfidx
    have hj := hlost fidx
    have hhand := hkeeps w.clockHand e he
    grind [Sweep.visit, InstanceInfo.pass, InstanceInfo.evicts]

theorem Removes.loop {slots : List InstanceInfo} (want n : ℕ) (h : Removes slots w) :
    Removes slots (Sweep.loop want n w) := by
  fun_induction Sweep.loop want n w with
  | case2 n w hlt e he ih => exact ih (h.visit he)
  | _ => exact h

theorem removes_sweep (t : Local) : Removes t.slots t.sweep :=
  Removes.loop _ _ ⟨fun _ e he _ => ⟨e, he, rfl, rfl⟩, by simp⟩

namespace Table

def removeInstanceRunningLocal (t : Table) : Table where
  toLocal := t.toLocal.removeInstanceRunningLocal
  free := Free.loop _ _ (w := ⟨t.slots, t.clockHand, [], [], []⟩)
    ((append_nil _).symm ▸ t.free)
  hand_zero hnil := by
    have hslots : t.slots = [] := length_eq_zero_iff.mp
      (t.sweep_spec.1.length.symm.trans (congrArg length hnil))
    simp [Local.removeInstanceRunningLocal, Local.sweep, hslots, Sweep.loop, t.hand_zero hslots]

/-- `elm->used = 1`. -/
def touch (t : Table) (j : ℕ) : Table where
  slots := t.slots.modify j ({ · with used := true })
  clockHand := t.clockHand
  freeSlots := t.freeSlots
  runningLocal := t.runningLocal
  slots_le := by simpa using t.slots_le
  hand_lt hne := by
    rw [length_modify]
    exact t.hand_lt (by simpa using hne)
  running_eq := by
    have hmap : (t.slots.modify j ({ · with used := true })).map (·.tb) = t.slots.map (·.tb) := by
      ext1 i
      grind
    have halive (l : List InstanceInfo) : alive l = (l.map (·.tb)).countP isSome := by
      rw [countP_map]
      rfl
    rw [t.running_eq, halive, halive, hmap]
  free := by
    have hfree := t.free
    unfold Free at *
    grind
  hand_zero := by simpa using t.hand_zero

theorem freeSlots_remove_ne_nil (t : Table) (hnil : t.freeSlots = []) (hslots : t.slots ≠ []) :
    t.removeInstanceRunningLocal.freeSlots ≠ [] := by
  -- all slots are in use, so the sweep frees one
  have halive : alive t.slots = t.slots.length := by
    refine countP_eq_length.mpr fun e he => ?_
    obtain ⟨i, hi⟩ := mem_iff_getElem?.mp he
    have hfree := (t.free.2 i).mpr
    rw [hnil, hi] at hfree
    exact isSome_iff_ne_none.mpr fun hnone => by simp [hnone] at hfree
  have hwant := t.sweep_spec.2.1
  have hrunning := t.running_eq
  intro h
  have hlength := congrArg length h
  simp only [removeInstanceRunningLocal, Local.removeInstanceRunningLocal, hnil] at hlength
  grind [Local.want]

/-- The slot that is taken. -/
def next (t : Table) : ℕ := t.freeSlots.getLast?.getD t.slots.length

theorem next_cases (t : Table) : t.freeSlots = [] ∧ t.next = t.slots.length ∨
    ∃ fs, t.freeSlots = fs ++ [t.next] ∧ t.slots[t.next]?.map (·.tb) = some none := by
  obtain hnil | ⟨fs, j, hlast⟩ := t.freeSlots.eq_nil_or_concat'
  · exact .inl ⟨hnil, by simp [next, hnil]⟩
  · have hj : t.next = j := by simp [next, hlast]
    exact .inr ⟨fs, hj ▸ hlast, hj ▸ (t.free.2 j).mp (by simp [hlast])⟩

/-- The end of `add_instance_running_local`. -/
def put (t : Table) (e : InstanceInfo) (he : e.tb.isSome)
    (hroom : t.freeSlots = [] → t.slots.length < instanceRunningLen) : Table where
  slots := if t.freeSlots = [] then t.slots ++ [e] else t.slots.set t.next e
  clockHand := t.clockHand
  freeSlots := t.freeSlots.dropLast
  runningLocal := t.runningLocal + 1
  slots_le := by
    have hle := t.slots_le
    grind
  hand_lt hne := by
    have hlt := t.hand_lt
    have hzero := t.hand_zero
    cases hslots : t.slots <;> grind
  running_eq := by
    rw [t.running_eq]
    obtain ⟨hnil, -⟩ | ⟨fs, hfs, hdead⟩ := t.next_cases
    · simp [alive, hnil, he]
    · have hlt : t.next < t.slots.length := by grind
      have htb : t.slots[t.next].tb = none := by simpa [hlt] using hdead
      simp [alive, hfs, countP_set hlt, htb, he]
  free := by
    have hfree := t.free
    have htb : e.tb ≠ none := isSome_iff_ne_none.mp he
    unfold Free at *
    obtain ⟨hnil, -⟩ | ⟨fs, hfs, hdead⟩ := t.next_cases
    · grind
    · rw [hfs] at hfree ⊢
      simp only [dropLast_concat]
      grind
  hand_zero hnil := t.hand_zero (by split at hnil <;> simp_all)

theorem getElem?_put {e : InstanceInfo} {he : e.tb.isSome}
    {hroom : t.freeSlots = [] → t.slots.length < instanceRunningLen} (i : ℕ) :
    (t.put e he hroom).slots[i]? = if i = t.next then some e else t.slots[i]? := by
  obtain ⟨hnil, hnext⟩ | ⟨fs, hfs, hdead⟩ := t.next_cases <;> grind [put]

end Table

/-! ### The dispatcher -/

/-- `wasm_instantiate_num`, `wasm_hot_num`, `wasm_hot_share` and `wasm_sum_count`. -/
structure Tune where
  instantiateNum : ℤ
  hotNum : ℤ
  hotShare : Bool
  sumCount : Bool

/-- What `tb_hot_elsewhere`, `tb_hot_in_sum` and `can_add_instance` say. -/
structure Others where
  hotElsewhere : Bool
  hotInSum : Bool
  canAdd : Bool

/-- `tb_wants_tci`. -/
def Tune.tbWantsTci (n : Tune) (cnt : ℤ) (o : Others) : Bool :=
  if cnt < n.hotNum then true
  else if n.instantiateNum ≤ cnt then false
  else if n.hotShare && o.hotElsewhere then false
  else if n.sumCount && cnt % 64 == 0 && o.hotInSum then false
  else true

/-- What comes of an attempt to compile: a function, a refusal of the host, or no module. With
`share` off, as it is by default, no module of another thread is taken over. -/
inductive Attempt
  | function (fidx : ℕ)
  | refused
  | noModule

/-- A block's address, and how many blocks had been generated there before. -/
abbrev Translation := ℕ × ℕ

/-- A thread, with its entries in the vectors of each block and its function table. A call of a
block's function is noted with what was found in the table. -/
structure Thread where
  table : Table
  exportVec : ℕ → Option ℕ
  counter : ℕ → ℤ
  generation : ℕ → ℕ
  functions : ℕ → Option Translation
  calls : List (Translation × Option Translation)

inductive Event
  | turn (tb : ℕ) (o : Others) (a : Attempt)
  | chain (tb : ℕ)
  | generate (tb : ℕ)

namespace Thread

def init : Thread where
  table := ⟨⟨[], 0, [], 0, Nat.zero_le _, fun h => absurd rfl h, rfl⟩, by simp [Free],
    fun _ => rfl⟩
  exportVec _ := none
  counter _ := 0
  generation _ := 0
  functions _ := none
  calls := []

/-- The slot of a block, unless it has become another's. -/
def slotOf (t : Thread) (tb : ℕ) : Option (ℕ × InstanceInfo) :=
  (t.exportVec tb).bind fun j => (t.table.slots[j]?.filter (·.tb = some tb)).map (j, ·)

def setCounter (t : Thread) (tb : ℕ) (cnt : ℤ) : Thread :=
  { t with counter := update t.counter tb cnt }

/-- `get_instance_running_local`: a slot that has become another's is forgotten. -/
def getInstanceRunningLocal (n : Tune) (t : Thread) (tb : ℕ) : Thread × Option ℕ :=
  match t.slotOf tb with
  | some (j, e) => ({ t with table := t.table.touch j }, some e.fidx)
  | none =>
    if t.exportVec tb = none then (t, none)
    else ({ t.setCounter tb n.instantiateNum with
      exportVec := update t.exportVec tb none }, none)

/-- The block's function is called. -/
def call (t : Thread) (tb fidx : ℕ) : Thread :=
  { t with calls := ((tb, t.generation tb), t.functions fidx) :: t.calls }

/-- The sweep, with `remove_module_js`. -/
def evict (t : Thread) : Thread :=
  { t with
    table := t.table.removeInstanceRunningLocal
    functions := fun fidx => if fidx ∈ t.table.sweep.toRemove then none else t.functions fidx }

/-- `add_instance_running_local` first makes room when every slot is in use. -/
def room (t : Thread) : Thread :=
  if t.table.freeSlots = [] ∧ instanceRunningLen ≤ t.table.slots.length then t.evict else t

theorem lt_of_room (t : Thread) (h : t.room.table.freeSlots = []) :
    t.room.table.slots.length < instanceRunningLen := by
  rw [room] at h ⊢
  split at h
  case isTrue hfull =>
    have hslots : t.table.slots ≠ [] := by grind [instanceRunningLen]
    exact absurd h (t.table.freeSlots_remove_ne_nil hfull.1 hslots)
  case isFalse hfull => grind

/-- The host's `addFunction` for a block that is compiled. -/
def addFunction (t : Thread) (tb fidx : ℕ) : Thread :=
  { t with functions := update t.functions fidx (some (tb, t.generation tb)) }

def addInstanceRunningLocal (t : Thread) (tb fidx : ℕ) : Thread :=
  { t.room with
    table := t.room.table.put ⟨some tb, fidx, true⟩ rfl t.lt_of_room
    exportVec := update t.room.exportVec tb (some t.room.table.next) }

/-- A turn of the loop of `tcg_qemu_tb_exec`. -/
def turn (n : Tune) (t : Thread) (tb : ℕ) (o : Others) (a : Attempt) : Thread :=
  match t.getInstanceRunningLocal n tb with
  | (t, some fidx) => t.call tb fidx
  | (t, none) =>
    if n.tbWantsTci (t.counter tb) o then t.setCounter tb (t.counter tb + 1)
    else if o.canAdd then
      match a with
      | .noModule => t.setCounter tb 0
      | .refused => (t.setCounter tb 0).evict
      | .function fidx =>
        -- the host gives out free indices only
        if t.functions fidx = none then
          ((t.addFunction tb fidx).addInstanceRunningLocal tb fidx).call tb fidx
        else t
    else t.evict

def step (n : Tune) (t : Thread) : Event → Thread
  | .turn tb o a => t.turn n tb o a
  | .chain tb =>
    -- generated code looks the next block up itself
    match t.slotOf tb with
    | some (j, e) => { t with table := t.table.touch j }.call tb e.fidx
    | none => t
  | .generate tb =>
    { t.setCounter tb 0 with
      exportVec := update t.exportVec tb none
      generation := update t.generation tb (t.generation tb + 1) }

/-- Every call of a block's function has found that of its present translation. -/
def CallsCurrent (t : Thread) : Prop := ∀ c ∈ t.calls, c.2 = some c.1

end Thread

/-! ### Coherence -/

structure Coherent (t : Thread) : Prop where
  held : ∀ (j tb : ℕ) (e : InstanceInfo), t.table.slots[j]? = some e → e.tb = some tb →
    ∃ g, t.functions e.fidx = some (tb, g) ∧ (t.exportVec tb = some j → g = t.generation tb)
  distinct : ∀ (i j : ℕ) (e e' : InstanceInfo), t.table.slots[i]? = some e →
    t.table.slots[j]? = some e' → e.tb.isSome → e'.tb.isSome → e.fidx = e'.fidx → i = j
  calls : t.CallsCurrent

/-- No block in the table has this function. -/
def New (t : Thread) (fidx : ℕ) : Prop := ∀ (j : ℕ) (e : InstanceInfo),
  t.table.slots[j]? = some e → e.tb.isSome → e.fidx ≠ fidx

namespace Coherent

variable {t : Thread}

theorem of_keeps (h : Coherent t) {t' : Thread} (hkeeps : Keeps t.table.slots t'.table.slots)
    (hfunctions : ∀ (j : ℕ) (e : InstanceInfo), t'.table.slots[j]? = some e → e.tb.isSome →
      t'.functions e.fidx = t.functions e.fidx)
    (hexport : ∀ tb j, t'.exportVec tb = some j → t.exportVec tb = some j ∧
      t'.generation tb = t.generation tb)
    (hcalls : t'.calls = t.calls) : Coherent t' where
  held j tb e he htb := by
    obtain ⟨e₀, he₀, htb₀, hfidx⟩ := hkeeps j e he (by simp [htb])
    obtain ⟨g, hg, hcurrent⟩ := h.held j tb e₀ he₀ (htb₀.trans htb)
    refine ⟨g, ?_, fun hj => ?_⟩
    · rw [hfunctions j e he (by simp [htb]), ← hfidx, hg]
    · rw [hcurrent (hexport tb j hj).1, (hexport tb j hj).2]
  distinct i j e e' he he' htb htb' hfidx := by
    obtain ⟨e₀, he₀, htb₀, hfidx₀⟩ := hkeeps i e he htb
    obtain ⟨e₁, he₁, htb₁, hfidx₁⟩ := hkeeps j e' he' htb'
    exact h.distinct i j e₀ e₁ he₀ he₁ (htb₀ ▸ htb) (htb₁ ▸ htb') (by grind)
  calls := by
    have hc := h.calls
    grind [Thread.CallsCurrent]

theorem touch (h : Coherent t) (j : ℕ) : Coherent { t with table := t.table.touch j } :=
  h.of_keeps (by grind [Keeps, Table.touch]) (fun _ _ _ _ => rfl) (fun _ _ hj => ⟨hj, rfl⟩) rfl

theorem evict (h : Coherent t) : Coherent t.evict := by
  obtain ⟨hkeeps, hlost⟩ := removes_sweep t.table.toLocal
  refine h.of_keeps hkeeps (fun j e he htb => if_neg fun hin => ?_) (fun _ _ hj => ⟨hj, rfl⟩) rfl
  -- the removed function was that of another slot, which has lost its block
  obtain ⟨i, e₀, he₀, htb₀, hfidx, hdead⟩ := hlost _ hin
  obtain ⟨e₁, he₁, htb₁, hfidx₁⟩ := hkeeps j e he htb
  have hij := h.distinct i j e₀ e₁ he₀ he₁ htb₀ (htb₁ ▸ htb) (hfidx.trans hfidx₁.symm)
  change t.table.sweep.slots[j]? = some e at he
  grind

theorem setCounter (h : Coherent t) (tb : ℕ) (cnt : ℤ) : Coherent (t.setCounter tb cnt) :=
  ⟨h.held, h.distinct, h.calls⟩

theorem call (h : Coherent t) {tb fidx : ℕ}
    (hfunction : t.functions fidx = some (tb, t.generation tb)) : Coherent (t.call tb fidx) :=
  ⟨h.held, h.distinct, forall_mem_cons.mpr ⟨hfunction, h.calls⟩⟩

theorem of_slotOf (h : Coherent t) {tb j : ℕ} {e : InstanceInfo}
    (hslot : t.slotOf tb = some (j, e)) : t.functions e.fidx = some (tb, t.generation tb) := by
  simp only [Thread.slotOf, bind_eq_some_iff, map_eq_some_iff,
    filter_eq_some_iff, decide_eq_true_eq, Prod.mk.injEq] at hslot
  obtain ⟨j, hj, e, ⟨he, htb⟩, rfl, rfl⟩ := hslot
  obtain ⟨g, hg, hcurrent⟩ := h.held j tb e he htb
  rw [hg, hcurrent hj]

theorem get (h : Coherent t) (n : Tune) (tb : ℕ) :
    Coherent (t.getInstanceRunningLocal n tb).1 ∧
      ∀ fidx, (t.getInstanceRunningLocal n tb).2 = some fidx →
        (t.getInstanceRunningLocal n tb).1.functions fidx =
          some (tb, (t.getInstanceRunningLocal n tb).1.generation tb) := by
  rw [Thread.getInstanceRunningLocal]
  split
  case h_1 j e hslot => exact ⟨h.touch j, by simpa using h.of_slotOf hslot⟩
  case h_2 =>
    split
    · exact ⟨h, by simp⟩
    · refine ⟨h.of_keeps (fun _ e he _ => ⟨e, he, rfl, rfl⟩) (fun _ _ _ _ => rfl)
        (fun tb' j hj => ?_) rfl, by simp⟩
      grind [update_apply, Thread.setCounter]

theorem room (h : Coherent t) (tb : ℕ) {fidx : ℕ} (hnew : New t fidx)
    (hfunction : t.functions fidx = some (tb, t.generation tb)) :
    Coherent t.room ∧ New t.room fidx ∧
      t.room.functions fidx = some (tb, t.room.generation tb) := by
  rw [Thread.room]
  split
  case isFalse => exact ⟨h, hnew, hfunction⟩
  case isTrue =>
    obtain ⟨hkeeps, hlost⟩ := removes_sweep t.table.toLocal
    refine ⟨h.evict, fun j e he htb => ?_, (if_neg fun hin => ?_).trans hfunction⟩
    · obtain ⟨e₀, he₀, htb₀, hfidx⟩ := hkeeps j e he htb
      exact hfidx ▸ hnew j e₀ he₀ (htb₀ ▸ htb)
    · obtain ⟨i, e, he, htb, hfidx, -⟩ := hlost _ hin
      exact hnew i e he htb hfidx

theorem put (h : Coherent t) {tb fidx : ℕ} (hnew : New t fidx)
    (hfunction : t.functions fidx = some (tb, t.generation tb)) {hroom} :
    Coherent { t with
      table := t.table.put ⟨some tb, fidx, true⟩ rfl hroom
      exportVec := update t.exportVec tb (some t.table.next) } where
  held j tb' e he htb := by
    have hheld := h.held j tb' e
    simp only [Table.getElem?_put, update_apply] at he ⊢
    grind
  distinct i j e e' he he' htb htb' hfidx := by
    have hdistinct := h.distinct i j e e'
    have hi := hnew i e
    have hj := hnew j e'
    simp only [Table.getElem?_put] at he he'
    grind
  calls := h.calls

theorem add (h : Coherent t) {tb fidx : ℕ} (hfree : t.functions fidx = none) :
    Coherent (((t.addFunction tb fidx).addInstanceRunningLocal tb fidx).call tb fidx) := by
  have hnew : New t fidx := fun j e he htb hfidx => by
    obtain ⟨tb', htb'⟩ := isSome_iff_exists.mp htb
    obtain ⟨g, hg, -⟩ := h.held j tb' e he htb'
    simp [hfidx, hfree] at hg
  have hadd : Coherent (t.addFunction tb fidx) := by
    refine h.of_keeps (fun _ e he _ => ⟨e, he, rfl, rfl⟩) (fun j e he htb => ?_)
      (fun _ _ hj => ⟨hj, rfl⟩) rfl
    exact update_of_ne (hnew j e he htb) _ _
  obtain ⟨hroom, hnew', hfunction⟩ := hadd.room tb hnew (update_self ..)
  exact (hroom.put hnew' hfunction).call hfunction

theorem step (h : Coherent t) (n : Tune) (e : Event) : Coherent (t.step n e) := by
  cases e with
  | turn tb o a =>
    obtain ⟨hget, hfidx⟩ := h.get n tb
    rw [Thread.step, Thread.turn]
    split
    case h_1 heq =>
      rw [heq] at hget hfidx
      exact hget.call (hfidx _ rfl)
    case h_2 heq =>
      rw [heq] at hget
      split
      · exact hget.setCounter _ _
      · split
        · split
          · exact hget.setCounter _ _
          · exact (hget.setCounter _ _).evict
          · split
            case isTrue hfree => exact hget.add hfree
            case isFalse => exact hget
        · exact hget.evict
  | chain tb =>
    rw [Thread.step]
    split
    case h_1 j e hslot => exact (h.touch j).call (h.of_slotOf hslot)
    case h_2 => exact h
  | generate tb =>
    refine h.of_keeps (fun _ e he _ => ⟨e, he, rfl, rfl⟩) (fun _ _ _ _ => rfl)
      (fun tb' j hj => ?_) rfl
    simp only [Thread.step, update_apply] at hj ⊢
    grind

end Coherent

/-- Whatever happens around a thread, every call of a block's function, from the dispatcher or from
another block, finds the one that was compiled from the block's present translation. -/
theorem calls_current (n : Tune) (es : List Event) :
    (es.foldl (Thread.step n) .init).CallsCurrent := by
  have hcoherent : ∀ (es : List Event) (t : Thread), Coherent t →
      Coherent (es.foldl (Thread.step n) t) := by
    intro es
    induction es with
    | nil => exact fun t h => h
    | cons e es ih => exact fun t h => ih _ (h.step n e)
  refine (hcoherent es .init ⟨?_, ?_, ?_⟩).calls <;> simp [Thread.init, Thread.CallsCurrent]

end Bootbox.Tcg.Eviction
