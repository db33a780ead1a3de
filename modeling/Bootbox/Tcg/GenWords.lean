import Bootbox.Tcg.Blocks
import Bootbox.Tcg.GenFrame

/-!
What stands in the buffer when a generation succeeds: `generated_done` follows every word of
a block from the emitter to the end.

After the ops, every word is as it was written (`Emitted`). Then the pool and the relocations
put a displacement into the words that wait for one and leave the others alone (`Pooled`,
`Patched`). What is written later does not reach the code.
-/

namespace Bootbox.Tcg.GenCode

open Lib ByteMemory BitField Escape Tci List BitVec

variable {m m' : Bytes} {a value start : ℕ} {b : Ops} {w : Word} {qs : List PoolData}

/-! ### Layout -/

/-- The address reached, and the addresses of the labels before it. -/
structure Layout where
  addr : ℕ
  labels : Label → ℕ

def Call.place (a : ℕ) (labels : Label → ℕ) : Call → Label → ℕ
  | .label l => Function.update labels l a
  | _ => labels

def Layout.next (T : Target) (tb : ℕ) (L : Layout) (c : Call) : Layout where
  addr := L.addr + 4 * (c.items T tb).length
  labels := c.place L.addr L.labels

/-- The layout of calls from an address on; a label without a place is at address 0. -/
def layout (T : Target) (tb base : ℕ) (cs : List Call) : Layout :=
  cs.foldl (Layout.next T tb) ⟨base, fun _ => 0⟩

theorem layout_snoc (T : Target) (tb base : ℕ) (cs : List Call) (c : Call) :
    layout T tb base (cs ++ [c]) = (layout T tb base cs).next T tb c := by
  simp [layout]

theorem layout_addr (T : Target) (tb base : ℕ) (cs : List Call) :
    (layout T tb base cs).addr = base + 4 * (cs.flatMap (Call.items T tb)).length := by
  induction cs using reverseRecOn with
  | nil => rfl
  | append_singleton cs c ih =>
    rw [layout_snoc]
    simp only [Layout.next, ih, flatMap_append, flatMap_cons, flatMap_nil,
      append_nil, length_append]
    omega

/-! ### The ops -/

structure Place where
  buf : ℕ
  base : ℕ
  highwater : ℕ
  bias : Word

def Item.Written (m : Bytes) (bias : Word) (a : ℕ) (i : Item) : Prop :=
  match i.goal with
  | .pointer p =>
    word32 m a = deposit i.word 12 20 (BitVec.ofNat 32 p - (BitVec.ofNat 32 (a + 4) + bias)) ∧
      Fits 20 (BitVec.ofNat 32 p - (BitVec.ofNat 32 (a + 4) + bias))
  | _ => word32 m a = i.word

structure Emitted (P : Place) (items : List Item) (labels : Label → ℕ) (s : State) : Prop where
  codeBuf : s.codeBuf = P.buf
  highwater : s.codeGenHighwater = P.highwater
  codeBias : s.codeBias = P.bias
  labelValue : s.labelValue = labels
  codePtr : s.codePtr = P.base + 4 * items.length
  written : ∀ (k : ℕ) (i : Item), items[k]? = some i → i.Written s.mem P.bias (P.base + 4 * k)
  relocs : ∀ r, r ∈ s.relocs ↔
    ∃ (k : ℕ) (i : Item), items[k]? = some i ∧ i.goal = .label r.2 ∧ r.1 = P.base + 4 * k
  pool : ∀ q, q ∈ s.poolLabels ↔
    ∃ (k : ℕ) (i : Item), items[k]? = some i ∧ i.goal = .pool q.data ∧ q.label = P.base + 4 * k

variable {i : Item}

theorem exists_getElem?_snoc {items : List Item} {Q : ℕ → Item → Prop} :
    (∃ k j, (items ++ [i])[k]? = some j ∧ Q k j) ↔
      (∃ k j, items[k]? = some j ∧ Q k j) ∨ Q items.length i := by
  constructor
  · rintro ⟨k, j, hj, hq⟩
    by_cases hk : k < items.length
    · rw [List.getElem?_append_left hk] at hj
      exact .inl ⟨k, j, hj, hq⟩
    · rw [List.getElem?_append_right (by omega), List.getElem?_singleton] at hj
      split at hj
      · cases hj
        have : k = items.length := by omega
        exact .inr (this ▸ hq)
      · cases hj
  · rintro (⟨k, j, hj, hq⟩ | hq)
    · have hk := (List.getElem?_eq_some_iff.mp hj).1
      exact ⟨k, j, by rwa [List.getElem?_append_left hk], hq⟩
    · exact ⟨items.length, i, by simp, hq⟩

theorem Item.Written.congr {bias : Word} (h : i.Written m bias a) (hm : word32 m' a = word32 m a) :
    i.Written m' bias a := by
  unfold Item.Written at h ⊢
  split at h
  · exact ⟨hm.trans h.1, h.2⟩
  · exact hm.trans h

theorem word32_write (m : Bytes) (a : ℕ) (w : Word) :
    word32 (store m a (wordBytes w.toNat)) a = w := word32_store m a w

theorem word32_write_of_disjoint {b v : ℕ} (h : a + 4 ≤ b ∨ b + 4 ≤ a) :
    word32 (store m b (wordBytes v)) a = word32 m a :=
  word32_congr fun i _ _ => store_of_not_mem (by rw [length_wordBytes]; omega)

variable {s : State} {cs : List Call}

section Ops

variable {P : Place} {items : List Item} {labels : Label → ℕ} {T : Target} {tb : ℕ}

/-- The rules below say nothing about a generation that is left. -/
abbrev Left : Exit → State → Prop := fun _ _ => True

theorem Emitted.write {pool : List PoolData} {relocs : List (ℕ × Label)}
    (h : Emitted P items labels s)
    (hi : i.Written (store s.mem s.codePtr (wordBytes w.toNat)) P.bias (P.base + 4 * items.length))
    (hpool : ∀ q, q ∈ pool ↔ q ∈ s.poolLabels ∨ i.goal = .pool q.data ∧ q.label = s.codePtr)
    (hrelocs : ∀ r, r ∈ relocs ↔ r ∈ s.relocs ∨ i.goal = .label r.2 ∧ r.1 = s.codePtr) :
    Emitted P (items ++ [i]) labels
      { s with
        mem := store s.mem s.codePtr (wordBytes w.toNat)
        codePtr := s.codePtr + 4
        poolLabels := pool
        relocs := relocs } where
  __ := h
  codePtr := by
    simp only [h.codePtr, length_append, length_singleton]
    omega
  written := by
    intro k j hj
    by_cases hk : k < items.length
    · rw [getElem?_append_left hk] at hj
      refine (h.written k j hj).congr (word32_write_of_disjoint ?_)
      rw [h.codePtr]
      omega
    · rw [getElem?_append_right (by omega), getElem?_singleton] at hj
      split at hj
      · cases hj
        have : k = items.length := by omega
        exact this ▸ hi
      · cases hj
  relocs r := by
    refine (hrelocs r).trans ?_
    rw [exists_getElem?_snoc (Q := fun k j => j.goal = .label r.2 ∧ r.1 = P.base + 4 * k),
      h.relocs, h.codePtr]
  pool q := by
    refine (hpool q).trans ?_
    rw [exists_getElem?_snoc (Q := fun k j => j.goal = .pool q.data ∧ q.label = P.base + 4 * k),
      h.pool, h.codePtr]

theorem emitted_put (i : Item) :
    Holds (Emitted P items labels) (put i) (fun _ => Emitted P (items ++ [i]) labels) Left := by
  obtain ⟨w, g⟩ := i
  have hraw : ∀ s : State, s.codePtr = P.base + 4 * items.length →
      word32 (store s.mem s.codePtr (wordBytes w.toNat)) (P.base + 4 * items.length) = w := by
    intro s hs
    rw [hs]
    exact word32_write _ _ _
  cases g with
  | none => exact ⟨fun s hs => hs.write (hraw s hs.codePtr) (by simp) (by simp)⟩
  | label l =>
    refine ⟨fun s hs => hs.write (hraw s hs.codePtr) (by simp) fun r => ?_⟩
    simp only [List.mem_append, List.mem_singleton, Goal.label.injEq, Prod.ext_iff]
    tauto
  | pool data =>
    refine ⟨fun s hs => hs.write (hraw s hs.codePtr) (fun q => ?_) (by simp)⟩
    obtain ⟨label, data'⟩ := q
    simp only [mem_newPoolInsert, PoolData.mk.injEq, Goal.pool.injEq]
    tauto
  | pointer p =>
    refine holds_get_bind fun s hs => holds_ite (fun hfits => ?_) fun _ => ?_
    · refine ⟨?_⟩
      rintro _ rfl
      unfold State.displacement at hfits
      refine hs.write ⟨?_, ?_⟩ (by simp) (by simp)
      · rw [← hs.codePtr, ← hs.codeBias]
        exact word32_write _ _ _
      · rwa [← hs.codePtr, ← hs.codeBias]
    · exact holds_throw fun _ _ => trivial

theorem emitted_puts (is : List Item) :
    Holds (Emitted P items labels) (is.forM put) (fun _ => Emitted P (items ++ is) labels)
      Left := by
  have h := holds_forM put is (E := Left) (fun done => Emitted P (items ++ done) labels)
    fun done i rest _ => by
      rw [← List.append_assoc]
      exact emitted_put i
  rwa [List.append_nil] at h

abbrev Laid (P : Place) (T : Target) (tb : ℕ) (cs : List Call) : State → Prop :=
  Emitted P (cs.flatMap (Call.items T tb)) (layout T tb P.base cs).labels

theorem emitted_after (c : Call) :
    Holds (Emitted P ((cs ++ [c]).flatMap (Call.items T tb)) (layout T tb P.base cs).labels)
      (c.after tb) (fun _ => Laid P T tb (cs ++ [c])) Left := by
  have hlabels : (layout T tb P.base (cs ++ [c])).labels =
      c.place (layout T tb P.base cs).addr (layout T tb P.base cs).labels := by
    rw [layout_snoc, Layout.next]
  rw [Laid, hlabels]
  cases c with
  | gotoTb which =>
    refine holds_modify fun s hs => ?_
    split
    · exact hs
    · exact { hs with }
  | label l =>
    refine holds_modify fun s hs => { hs with labelValue := ?_ }
    have hptr : s.codePtr = (layout T tb P.base cs).addr := by
      rw [hs.codePtr, layout_addr]
      simp [Call.items]
    simp only [hs.labelValue, hptr, Call.place]
  | _ => exact holds_pure fun s hs => hs

theorem laid_emit (c : Call) :
    Holds (Laid P T tb cs) (emit T tb c) (fun _ => Laid P T tb (cs ++ [c])) Left := by
  rw [emit_eq]
  have hputs : Holds (Laid P T tb cs) ((c.items T tb).forM put)
      (fun _ => Emitted P (cs.flatMap (Call.items T tb) ++ c.items T tb)
        (layout T tb P.base cs).labels) Left :=
    emitted_puts (c.items T tb)
  rw [← flatMap_singleton (Call.items T tb) c, ← flatMap_append, flatMap_singleton] at hputs
  exact hputs.bind fun _ => emitted_after c

theorem laid_calls (new : List Call) :
    Holds (Laid P T tb cs) (new.forM (emit T tb)) (fun _ => Laid P T tb (cs ++ new)) Left := by
  have h := holds_forM (emit T tb) new (E := Left) (fun done => Laid P T tb (cs ++ done))
    fun done c rest _ => by
      rw [← List.append_assoc]
      exact laid_emit c
  rwa [List.append_nil] at h

theorem laid_setTables {t : Option WasmModule.Tables} :
    Holds (Laid P T tb cs) (setTables t) (fun _ => Laid P T tb cs) Left := by
  cases t with
  | none => exact holds_throw fun _ _ => trivial
  | some t =>
    exact holds_modify fun s hs => { hs with }

theorem laid_pieces (op : List Piece) :
    Holds (Laid P T tb cs) (op.forM (outPiece T tb))
      (fun _ => Laid P T tb (cs ++ op.flatMap Piece.calls)) Left := by
  have h := holds_forM (outPiece T tb) op (E := Left)
    (fun done => Laid P T tb (cs ++ done.flatMap Piece.calls)) fun done piece rest _ => by
      rw [List.flatMap_append, List.flatMap_singleton, ← List.append_assoc]
      exact (laid_calls piece.calls).bind fun _ => holds_get_bind fun s hs =>
        laid_setTables.start hs
  rwa [List.flatMap_nil, List.append_nil] at h

theorem holds_checkHighwater (s : State) (a : ℕ) :
    Holds (fun s' => s' = s) (checkHighwater a)
      (fun _ s' => s' = s ∧ a ≤ s.codeGenHighwater) Left := by
  refine holds_get_bind fun s₁ hs₁ => holds_ite (fun _ => holds_throw fun _ _ => trivial)
    fun hle => holds_pure fun s₂ hs₂ => ⟨hs₂.trans hs₁, ?_⟩
  rw [hs₁] at hle
  omega

/-- The code reaches neither behind the high-water mark nor behind 64 KB. -/
def Fitting (P : Place) (T : Target) (tb : ℕ) (cs : List Call) (s : State) : Prop :=
  Laid P T tb cs s ∧ s.codePtr ≤ P.highwater ∧ s.codePtr - P.buf < 2 ^ 16

theorem fitting_genOp (op : List Piece) :
    Holds (Laid P T tb cs) (genOp T tb op)
      (fun _ => Fitting P T tb (cs ++ op.flatMap Piece.calls)) Left := by
  refine (laid_pieces op).bind fun _ => holds_get_bind fun s hs => ?_
  refine (holds_checkHighwater s s.codePtr).bind fun _ => holds_get_bind fun s₁ ⟨hs₁, hle⟩ =>
    holds_ite (fun _ => holds_throw fun _ _ => trivial) fun hsize => holds_pure fun s₂ hs₂ => ?_
  subst hs₂ hs₁
  rw [hs.codeBuf] at hsize
  exact ⟨hs, hs.highwater ▸ hle, by omega⟩

theorem fitting_ops (b : Ops) :
    Holds (Fitting P T tb []) (b.ops.forM (genOp T tb)) (fun _ => Fitting P T tb b.calls)
      Left := by
  have h := holds_forM (genOp T tb) b.ops (E := Left)
    (fun done => Fitting P T tb (done.flatten.flatMap Piece.calls)) fun done op rest _ => by
      rw [flatten_append, flatMap_append, flatten_singleton]
      exact (fitting_genOp op).pre fun s hs => hs.1
  exact h

end Ops

/-! ### Pool and relocations -/

def Linked (m : Bytes) (a : ℕ) (w : Word) (target : ℕ) : Prop :=
  word32 m a = deposit w 12 20 (BitVec.ofNat 32 target - BitVec.ofNat 32 (a + 4)) ∧
    Fits 20 (BitVec.ofNat 32 target - BitVec.ofNat 32 (a + 4))

theorem Linked.congr {target : ℕ} (h : Linked m a w target) (hm : word32 m' a = word32 m a) :
    Linked m' a w target :=
  ⟨hm.trans h.1, h.2⟩

def patch (m : Bytes) (a value : ℕ) : Bytes :=
  store m a (wordBytes (deposit (word32 m a) 12 20
    (BitVec.ofNat 32 value - BitVec.ofNat 32 (a + 4))).toNat)

theorem patch_of_not_mem {i : ℕ} (h : i < a ∨ a + 4 ≤ i) : patch m a value i = m i :=
  store_of_not_mem (by rwa [length_wordBytes])

theorem word32_patch_of_disjoint {b : ℕ} (h : a + 4 ≤ b ∨ b + 4 ≤ a) :
    word32 (patch m b value) a = word32 m a :=
  word32_write_of_disjoint h

theorem linked_patch (hfits : Fits 20 (BitVec.ofNat 32 value - BitVec.ofNat 32 (a + 4)))
    (hw : word32 m a = w ∨ ∃ d, word32 m a = deposit w 12 20 d) :
    Linked (patch m a value) a w value := by
  refine ⟨?_, hfits⟩
  rw [patch, word32_write]
  rcases hw with hw | ⟨d, hw⟩
  · rw [hw]
  · rw [hw, deposit_deposit (by decide)]

theorem holds_patchOrRaise (s : State) (a value : ℕ) :
    Holds (fun s' => s' = s) (patchOrRaise a value)
      (fun _ s' => s' = { s with mem := patch s.mem a value } ∧
        Fits 20 (BitVec.ofNat 32 value - BitVec.ofNat 32 (a + 4))) Left := by
  rw [patchOrRaise_eq]
  refine holds_get_bind fun s₁ hs₁ => holds_ite (fun hfits => ?_) fun _ => ?_
  · subst hs₁
    refine holds_modify ?_
    rintro _ rfl
    exact ⟨rfl, hfits⟩
  · exact holds_throw fun _ _ => trivial

/-- In the op list's model a distance counts words; where the words are makes no difference to
which distances fit and what the field then holds. -/
theorem patchReloc_agrees {base pos l : ℕ} {value : ℕ → ℕ} (hvalue : 4 * value l < 2 ^ 31)
    (hpos : 4 * pos + 4 < 2 ^ 31) (w : Word) :
    let diff := BitVec.ofNat 32 (base + 4 * value l) - BitVec.ofNat 32 (base + 4 * pos + 4)
    (Fits 20 diff ↔ Blocks.relocFits value (pos, l) = true) ∧
      sextract (deposit w 12 20 diff) 12 20 =
        (BitVec.ofInt 20 (Blocks.relocDiff (value l) pos)).signExtend 32 := by
  intro diff
  have hnat : diff.toNat = (2 ^ 32 - (base + 4 * pos + 4) % 2 ^ 32 +
      (base + 4 * value l) % 2 ^ 32) % 2 ^ 32 := by
    rw [BitVec.toNat_sub, BitVec.toNat_ofNat, BitVec.toNat_ofNat]
  have hint : diff.toInt = Blocks.relocDiff (value l) pos := by
    rw [BitVec.toInt_eq_toNat_cond, Blocks.relocDiff]
    split <;> omega
  have hlow : diff.setWidth 20 = BitVec.ofInt 20 (Blocks.relocDiff (value l) pos) := by
    refine BitVec.eq_of_toNat_eq ?_
    rw [BitVec.toNat_setWidth, BitVec.toNat_ofInt, Blocks.relocDiff]
    omega
  constructor
  · rw [Fits, sextract_eq_signExtend (by decide) (by decide), hlow, ← BitVec.toInt_inj,
      BitVec.toInt_signExtend_of_le (by decide), hint, Blocks.relocFits, decide_eq_true_iff]
  · rw [sextract_deposit_self (by decide) (by decide),
      sextract_eq_signExtend (by decide) (by decide), hlow]

def Apart {α : Type} (addr : α → ℕ) (rs : List α) : Prop :=
  ∀ r ∈ rs, ∀ r' ∈ rs, r = r' ∨ addr r + 4 ≤ addr r' ∨ addr r' + 4 ≤ addr r

structure Patched (value : Label → ℕ) (rs : List (ℕ × Label)) (m m' : Bytes) : Prop where
  other : ∀ i, (∀ r ∈ rs, i < r.1 ∨ r.1 + 4 ≤ i) → m' i = m i
  linked : ∀ r ∈ rs, Linked m' r.1 (word32 m r.1) (value r.2)

theorem Patched.word {value : Label → ℕ} {rs : List (ℕ × Label)} (h : Patched value rs m m')
    (ha : ∀ r ∈ rs, a + 4 ≤ r.1 ∨ r.1 + 4 ≤ a) : word32 m' a = word32 m a :=
  word32_congr fun i hi hi' => h.other i fun r hr => by have := ha r hr; omega

theorem Patched.snoc {value : Label → ℕ} {rs : List (ℕ × Label)} {r : ℕ × Label}
    (h : Patched value rs m m')
    (hfits : Fits 20 (BitVec.ofNat 32 (value r.2) - BitVec.ofNat 32 (r.1 + 4)))
    (hapart : ∀ r' ∈ rs, r' = r ∨ r'.1 + 4 ≤ r.1 ∨ r.1 + 4 ≤ r'.1) :
    Patched value (rs ++ [r]) m (patch m' r.1 (value r.2)) := by
  have hnew : Linked (patch m' r.1 (value r.2)) r.1 (word32 m r.1) (value r.2) := by
    refine linked_patch hfits ?_
    by_cases hr : r ∈ rs
    · exact .inr ⟨_, (h.linked r hr).1⟩
    · refine .inl (h.word fun r' hr' => ?_)
      rcases hapart r' hr' with rfl | hd
      · exact absurd hr' hr
      · exact hd.symm
  refine ⟨fun i hi => ?_, fun r' hr' => ?_⟩
  · rw [patch_of_not_mem (hi r (by simp))]
    exact h.other i fun r' hr' => hi r' (by simp [hr'])
  · rcases List.mem_append.mp hr' with hr' | hr'
    · rcases hapart r' hr' with rfl | hd
      · exact hnew
      · exact (h.linked r' hr').congr (word32_patch_of_disjoint hd)
    · rw [List.mem_singleton.mp hr']
      exact hnew

theorem holds_patchAll (s : State) (value : Label → ℕ) (rs : List (ℕ × Label))
    (hapart : Apart Prod.fst rs) :
    Holds (fun s' => s' = s) (rs.forM fun r => patchOrRaise r.1 (value r.2))
      (fun _ s' => ∃ m, s' = { s with mem := m } ∧ Patched value rs s.mem m) Left := by
  have hloop := holds_forM (fun r => patchOrRaise r.1 (value r.2)) rs (E := Left)
    (fun done s' => ∃ m, s' = { s with mem := m } ∧ Patched value done s.mem m) ?_
  · refine hloop.pre ?_
    rintro _ rfl
    exact ⟨_, rfl, fun _ _ => rfl, nofun⟩
  · intro done r rest hrs
    refine holds_of_forall ?_
    rintro _ ⟨m, rfl, hm⟩
    refine (holds_patchOrRaise _ r.1 (value r.2)).post ?_
    rintro _ _ ⟨rfl, hfits⟩
    refine ⟨_, rfl, hm.snoc hfits fun r' hr' => ?_⟩
    exact hapart r' (by simp [hrs, hr']) r (by simp [hrs])

/-- After putting some pool data from an address on: it is there, and the instructions that
refer to it lead to it. -/
structure Pooled (qs : List PoolData) (start a : ℕ) (m m' : Bytes) : Prop where
  other : ∀ i, i < start → (∀ q ∈ qs, i < q.label ∨ q.label + 4 ≤ i) → m' i = m i
  entry : ∀ q ∈ qs, ∃ addr, start ≤ addr ∧ addr + 8 * q.data.length ≤ a ∧
    load m' addr (8 * q.data.length) = poolBytes q.data ∧
    Linked m' q.label (word32 m q.label) addr

def LastPut (l : Option (List (BitVec 64))) (start a : ℕ) (m : Bytes) : Prop :=
  ∀ data, l = some data → start + 8 * data.length ≤ a ∧
    load m (a - 8 * data.length) (8 * data.length) = poolBytes data

theorem Pooled.word {b : ℕ} (h : Pooled qs start a m m') (hb : b + 4 ≤ start)
    (hq : ∀ q ∈ qs, b + 4 ≤ q.label ∨ q.label + 4 ≤ b) : word32 m' b = word32 m b :=
  word32_congr fun i hi hi' => h.other i (by omega) fun q hq' => by have := hq q hq'; omega

/-- New data behind the position changes nothing before it. -/
theorem Pooled.put (bs : List UInt8) (h : Pooled qs start a m m') (ha : start ≤ a)
    (hqs : ∀ q ∈ qs, q.label + 4 ≤ start) : Pooled qs start (a + bs.length) m (store m' a bs) := by
  refine ⟨fun i hi hq => ?_, fun q hq => ?_⟩
  · rw [store_of_not_mem (by omega)]
    exact h.other i hi hq
  · obtain ⟨addr, hlo, hhi, hload, hlink⟩ := h.entry q hq
    have hlabel := hqs q hq
    refine ⟨addr, hlo, by omega, ?_, hlink.congr ?_⟩
    · rwa [load_store_of_disjoint (by omega)]
    · exact word32_congr fun i _ _ => store_of_not_mem (by omega)

theorem Pooled.snoc {q : PoolData} (h : Pooled qs start a m m')
    (hlast : LastPut (some q.data) start a m')
    (hfits : Fits 20 (BitVec.ofNat 32 (a - 8 * q.data.length) - BitVec.ofNat 32 (q.label + 4)))
    (hq : q.label + 4 ≤ start)
    (hapart : ∀ q' ∈ qs, q' = q ∨ q'.label + 4 ≤ q.label ∨ q.label + 4 ≤ q'.label) :
    Pooled (qs ++ [q]) start a m (patch m' q.label (a - 8 * q.data.length)) ∧
      LastPut (some q.data) start a (patch m' q.label (a - 8 * q.data.length)) := by
  obtain ⟨hroom, hload⟩ := hlast q.data rfl
  have hkeep : ∀ b n, start ≤ b →
      load (patch m' q.label (a - 8 * q.data.length)) b n = load m' b n := fun b n hb =>
    load_congr fun i hi _ => patch_of_not_mem (by omega)
  have hnew : Linked (patch m' q.label (a - 8 * q.data.length)) q.label (word32 m q.label)
      (a - 8 * q.data.length) := by
    refine linked_patch hfits ?_
    by_cases hmem : q ∈ qs
    · obtain ⟨_, _, _, _, hlink⟩ := h.entry q hmem
      exact .inr ⟨_, hlink.1⟩
    · refine .inl (h.word hq fun q' hq' => ?_)
      rcases hapart q' hq' with rfl | hd
      · exact absurd hq' hmem
      · exact hd.symm
  have hself : ∃ addr, start ≤ addr ∧ addr + 8 * q.data.length ≤ a ∧
      load (patch m' q.label (a - 8 * q.data.length)) addr (8 * q.data.length) =
        poolBytes q.data ∧
      Linked (patch m' q.label (a - 8 * q.data.length)) q.label (word32 m q.label) addr :=
    ⟨a - 8 * q.data.length, by omega, by omega, (hkeep _ _ (by omega)).trans hload, hnew⟩
  refine ⟨⟨fun i hi hi' => ?_, fun q' hq' => ?_⟩, fun data hdata => ?_⟩
  · rw [patch_of_not_mem (hi' q (by simp))]
    exact h.other i hi fun q' hq' => hi' q' (by simp [hq'])
  · rcases List.mem_append.mp hq' with hq' | hq'
    · rcases hapart q' hq' with rfl | hd
      · exact hself
      · obtain ⟨addr, hlo, hhi, hdata, hlink⟩ := h.entry q' hq'
        exact ⟨addr, hlo, hhi, (hkeep _ _ hlo).trans hdata,
          hlink.congr (word32_patch_of_disjoint hd)⟩
    · rw [List.mem_singleton.mp hq']
      exact hself
  · cases hdata
    exact ⟨hroom, (hkeep _ _ (by omega)).trans hload⟩

theorem holds_poolPut {l : Option (List (BitVec 64))} (data : List (BitVec 64))
    (h : Pooled qs start a s.mem m) (hlast : LastPut l start a m) (ha : start ≤ a)
    (hqs : ∀ q ∈ qs, q.label + 4 ≤ start) :
    Holds (fun s' => s' = { s with mem := m }) (poolPut data l a)
      (fun r s' => ∃ m', s' = { s with mem := m' } ∧ Pooled qs start r s.mem m' ∧
        LastPut (some data) start r m' ∧ start ≤ r) Left := by
  refine holds_ite (fun hl => holds_pure ?_) fun _ => ?_
  · rintro _ rfl
    exact ⟨m, rfl, h, hl ▸ hlast, ha⟩
  · refine (holds_checkHighwater _ a).bind fun _ => Holds.bind (holds_modify ?_)
      (Q := fun _ s' => s' = { s with mem := store m a (poolBytes data) }) fun _ => holds_pure ?_
    · rintro _ ⟨rfl, _⟩
      rfl
    · rintro _ rfl
      have hput := h.put (poolBytes data) ha hqs
      rw [length_poolBytes] at hput
      refine ⟨_, rfl, hput, fun data' hdata' => ?_, by omega⟩
      cases hdata'
      have hload := load_store_self m a (poolBytes data)
      rw [length_poolBytes] at hload
      exact ⟨by omega, by rwa [Nat.add_sub_cancel]⟩

theorem holds_poolLoop {l : Option (List (BitVec 64))} (qs ps : List PoolData)
    (hqs : ∀ q ∈ qs ++ ps, q.label + 4 ≤ start) (hapart : Apart PoolData.label (qs ++ ps))
    (h : Pooled qs start a s.mem m) (hlast : LastPut l start a m) (ha : start ≤ a) :
    Holds (fun s' => s' = { s with mem := m }) (poolLoop ps l a)
      (fun r s' => ∃ m', s' = { s with mem := m' } ∧ Pooled (qs ++ ps) start r s.mem m' ∧
        start ≤ r) Left := by
  induction ps generalizing qs m l a with
  | nil =>
    refine holds_pure ?_
    rintro _ rfl
    rw [List.append_nil]
    exact ⟨m, rfl, h, ha⟩
  | cons q ps ih =>
    refine (holds_poolPut q.data h hlast ha fun q' hq' => hqs q' (by simp [hq'])).bind fun r =>
      holds_of_forall ?_
    rintro _ ⟨m₁, rfl, hm₁, hlast₁, hr⟩
    refine (holds_patchOrRaise _ q.label (r - 8 * q.data.length)).bind fun _ =>
      holds_of_forall ?_
    rintro _ ⟨rfl, hfits⟩
    obtain ⟨hm₂, hlast₂⟩ := hm₁.snoc hlast₁ hfits (hqs q (by simp)) fun q' hq' =>
      hapart q' (by simp [hq']) q (by simp)
    have hsplit : qs ++ q :: ps = qs ++ [q] ++ ps := by simp
    rw [hsplit] at hqs hapart ⊢
    exact ih (qs ++ [q]) hqs hapart hm₂ hlast₂ hr

/-- The memory after the gap before the pool is cleared. -/
def nopFilled (m : Bytes) (p start : ℕ) : Bytes :=
  store m p (replicate (4 * (start - p)) 0)

def State.pooled (s : State) (m : Bytes) (p : ℕ) (data : Option ℕ) : State :=
  { s with mem := m, codePtr := p, dataGenPtr := data }

/-- `tcg_out_pool_finalize` as a whole: the code before it changes only where it refers to
the pool. -/
theorem holds_poolFinalize (s : State) (hq : ∀ q ∈ s.poolLabels, q.label + 4 ≤ s.codePtr)
    (hpos : ∀ q ∈ s.poolLabels, 0 < q.data.length)
    (hapart : Apart PoolData.label s.poolLabels) :
    Holds (fun s' => s' = s) tcgOutPoolFinalize
      (fun _ s' => ∃ m p data, s' = s.pooled m p data ∧ s.codePtr ≤ p ∧
        Pooled s.poolLabels s.codePtr p s.mem m) Left := by
  refine holds_get_bind fun s₁ hs₁ => ?_
  subst hs₁
  cases hpool : s₁.poolLabels with
  | nil =>
    refine holds_pure ?_
    rintro _ rfl
    exact ⟨_, _, _, rfl, le_rfl, fun _ _ _ => rfl, nofun⟩
  | cons q ps =>
    rw [hpool] at hq hpos hapart
    have hpos' := hpos q (by simp)
    obtain ⟨hle, -⟩ := le_roundUp s₁.codePtr (d := 8 * q.data.length) (by omega)
    dsimp only
    generalize roundUp s₁.codePtr (8 * q.data.length) = start at hle
    have hfill : Holds (fun s' => s' = s₁) (tcgOutNopFill s₁.codePtr (start - s₁.codePtr))
        (fun _ s' => s' = { s₁ with mem := nopFilled s₁.mem s₁.codePtr start }) Left :=
      holds_modify fun _ h => h ▸ rfl
    have hset : Holds (fun s' => s' = { s₁ with mem := nopFilled s₁.mem s₁.codePtr start })
        (modify fun s' => { s' with dataGenPtr := some start })
        (fun _ s' => s' = { s₁.pooled s₁.mem s₁.codePtr (some start) with
          mem := nopFilled s₁.mem s₁.codePtr start }) Left :=
      holds_modify fun _ h => h ▸ rfl
    -- before the loop nothing is put, and only the gap differs
    have hgap : ∀ i, i < s₁.codePtr → nopFilled s₁.mem s₁.codePtr start i = s₁.mem i :=
      fun i hi => store_of_not_mem (.inl hi)
    have hstart : Pooled [] start start (nopFilled s₁.mem s₁.codePtr start)
        (nopFilled s₁.mem s₁.codePtr start) := ⟨fun _ _ _ => rfl, nofun⟩
    have hloop := holds_poolLoop
      (s := { s₁.pooled s₁.mem s₁.codePtr (some start) with
        mem := nopFilled s₁.mem s₁.codePtr start })
      [] (q :: ps) (fun q' hq' => (hq q' hq').trans hle) hapart hstart (l := none) nofun le_rfl
    refine hfill.bind fun _ => hset.bind fun _ => hloop.bind fun p => holds_modify ?_
    rintro _ ⟨m, rfl, hm, hp⟩
    refine ⟨m, p, some start, rfl, hle.trans hp, fun i hi hi' => ?_, fun q' hq' => ?_⟩
    · rw [hm.other i (hi.trans_le hle) hi']
      exact hgap i hi
    · obtain ⟨addr, hlo, hhi, hload, hlink⟩ := hm.entry q' hq'
      have hword : word32 (nopFilled s₁.mem s₁.codePtr start) q'.label =
          word32 s₁.mem q'.label :=
        word32_congr fun i _ hi => hgap i (by have := hq q' hq'; omega)
      exact ⟨addr, hle.trans hlo, hhi, hload, hword ▸ hlink⟩

/-! ### The finished words -/

/-- A word when the generation is through; the pool lies between two addresses. -/
def Item.Done (m : Bytes) (bias : Word) (labels : Label → ℕ) (first last a : ℕ) (i : Item) :
    Prop :=
  match i.goal with
  | .none => word32 m a = i.word
  | .label l => Linked m a i.word (labels l)
  | .pool data => ∃ addr, first ≤ addr ∧ addr + 8 * data.length ≤ last ∧
      load m addr (8 * data.length) = poolBytes data ∧ Linked m a i.word addr
  | .pointer p =>
    word32 m a = deposit i.word 12 20 (BitVec.ofNat 32 p - (BitVec.ofNat 32 (a + 4) + bias)) ∧
      Fits 20 (BitVec.ofNat 32 p - (BitVec.ofNat 32 (a + 4) + bias))

theorem Item.Done.congr {bias : Word} {labels : Label → ℕ} {first last : ℕ}
    (h : i.Done m bias labels first last a) (hword : word32 m' a = word32 m a)
    (hpool : ∀ j, first ≤ j → j < last → m' j = m j) : i.Done m' bias labels first last a := by
  unfold Item.Done at h ⊢
  split at h
  · exact hword.trans h
  · exact h.congr hword
  · obtain ⟨addr, hlo, hhi, hload, hlink⟩ := h
    refine ⟨addr, hlo, hhi, ?_, hlink.congr hword⟩
    rwa [load_congr fun j hj hj' => hpool j (by omega) (by omega)]
  · exact ⟨hword.trans h.1, h.2⟩

section Finished

variable {P : Place} {items : List Item} {labels : Label → ℕ} {s : State}

theorem Emitted.pool_apart (h : Emitted P items labels s) :
    Apart PoolData.label s.poolLabels := by
  intro q hq q' hq'
  obtain ⟨k, i, hi, hdata, hlabel⟩ := (h.pool q).mp hq
  obtain ⟨k', i', hi', hdata', hlabel'⟩ := (h.pool q').mp hq'
  by_cases hk : k = k'
  · subst hk
    rw [hi] at hi'
    cases hi'
    rw [hdata] at hdata'
    obtain ⟨label, data⟩ := q
    obtain ⟨label', data'⟩ := q'
    cases hdata'
    exact .inl (by rw [show label = label' from hlabel.trans hlabel'.symm])
  · omega

theorem Emitted.relocs_apart (h : Emitted P items labels s) (nb : ℕ) :
    Apart Prod.fst (relocOrder nb s.relocs) := by
  intro r hr r' hr'
  obtain ⟨k, i, hi, hl, ha⟩ := (h.relocs r).mp (mem_relocOrder.mp hr).1
  obtain ⟨k', i', hi', hl', ha'⟩ := (h.relocs r').mp (mem_relocOrder.mp hr').1
  by_cases hk : k = k'
  · subst hk
    rw [hi] at hi'
    cases hi'
    rw [hl] at hl'
    exact .inl (Prod.ext (ha.trans ha'.symm) (Goal.label.inj hl'))
  · omega

theorem Emitted.label_le (h : Emitted P items labels s) {q : PoolData} (hq : q ∈ s.poolLabels) :
    q.label + 4 ≤ s.codePtr := by
  obtain ⟨k, i, hi, -, hlabel⟩ := (h.pool q).mp hq
  have hk := (List.getElem?_eq_some_iff.mp hi).1
  have := h.codePtr
  omega

theorem Emitted.pooled_word {p k : ℕ} (h : Emitted P items labels s)
    (hm : Pooled s.poolLabels s.codePtr p s.mem m) (hi : items[k]? = some i)
    (hgoal : ∀ data, i.goal ≠ .pool data) :
    word32 m (P.base + 4 * k) = word32 s.mem (P.base + 4 * k) := by
  have hk := (List.getElem?_eq_some_iff.mp hi).1
  have hptr := h.codePtr
  refine hm.word (by omega) fun q hq => ?_
  obtain ⟨k', i', hi', hdata, hlabel⟩ := (h.pool q).mp hq
  have hne : k ≠ k' := by
    rintro rfl
    rw [hi] at hi'
    cases hi'
    exact hgoal q.data hdata
  omega

/-- A word that does not wait for a label is not touched by the relocations. -/
theorem Emitted.patched_word {nb k : ℕ} (h : Emitted P items labels s)
    (hm : Patched labels (relocOrder nb s.relocs) m m') (hi : items[k]? = some i)
    (hgoal : ∀ l, i.goal ≠ .label l) : word32 m' (P.base + 4 * k) = word32 m (P.base + 4 * k) := by
  refine hm.word fun r hr => ?_
  obtain ⟨k', i', hi', hl, ha⟩ := (h.relocs r).mp (mem_relocOrder.mp hr).1
  have hne : k ≠ k' := by
    rintro rfl
    rw [hi] at hi'
    cases hi'
    exact hgoal r.2 hl
  omega

theorem Emitted.done {nb p : ℕ} (h : Emitted P items labels s)
    (hlabels : ∀ i ∈ items, ∀ l, i.goal = .label l → l < nb)
    (hpool : Pooled s.poolLabels s.codePtr p s.mem m)
    (hpatch : Patched labels (relocOrder nb s.relocs) m m') :
    ∀ (k : ℕ) (i : Item), items[k]? = some i →
      i.Done m' P.bias labels s.codePtr p (P.base + 4 * k) := by
  intro k i hi
  have hwritten := h.written k i hi
  obtain ⟨w, g⟩ := i
  cases g with
  | none =>
    exact ((h.patched_word hpatch hi nofun).trans (h.pooled_word hpool hi nofun)).trans hwritten
  | label l =>
    have hmem : (P.base + 4 * k, l) ∈ relocOrder nb s.relocs :=
      mem_relocOrder.mpr ⟨(h.relocs _).mpr ⟨k, _, hi, rfl, rfl⟩,
        hlabels _ (List.mem_of_getElem? hi) l rfl⟩
    have hlink := hpatch.linked _ hmem
    rwa [(h.pooled_word hpool hi nofun).trans hwritten] at hlink
  | pool data =>
    obtain ⟨addr, hlo, hhi, hload, hlink⟩ :=
      hpool.entry ⟨P.base + 4 * k, data⟩ ((h.pool _).mpr ⟨k, _, hi, rfl, rfl⟩)
    refine ⟨addr, hlo, hhi, ?_, ?_⟩
    · rw [← hload]
      refine load_congr fun j hj _ => hpatch.other j fun r hr => ?_
      obtain ⟨k', i', hi', -, ha⟩ := (h.relocs r).mp (mem_relocOrder.mp hr).1
      have hk' := (List.getElem?_eq_some_iff.mp hi').1
      have := h.codePtr
      omega
    · rw [show word32 s.mem (P.base + 4 * k) = w from hwritten] at hlink
      exact hlink.congr (h.patched_word hpatch hi nofun)
  | pointer target =>
    have hword := (h.patched_word hpatch hi nofun).trans (h.pooled_word hpool hi nofun)
    exact ⟨hword.trans hwritten.1, hwritten.2⟩

end Finished

/-! ### A whole generation -/

def encode (T : Target) (tb : ℕ) (b : Ops) : Gen ℕ := do
  tcgFuncStart
  tcgGenCode T tb b

def State.bufferOf (s : State) (tb : ℕ) : ℕ := s.regenBuf.getD (s.tbs tb).tcPtr

def State.place (s : State) (T : Target) (tb : ℕ) : Place :=
  ⟨s.bufferOf tb, s.bufferOf tb + T.headerSize, s.codeGenHighwater, s.codeBias⟩

theorem startCode_lists (T : Target) (tb : ℕ) (s : State) :
    Holds (fun s' => s' = s) (startCode T tb)
      (fun _ s' => s'.relocs = s.relocs ∧ s'.poolLabels = [] ∧ s'.labelValue = s.labelValue)
      Left := by
  refine ⟨fun s' hs => ?_⟩
  rw [hs]
  obtain ⟨_, _, _, _, _, _, _, _, _, _, _, _, regenBuf, _⟩ := s
  cases regenBuf with
  | none => exact ⟨rfl, rfl, rfl⟩
  | some buf => exact ⟨rfl, rfl, rfl⟩

theorem finishCode_mem (T : Target) (s : State) :
    Holds (fun s' => s' = s) (finishCode T)
      (fun _ s' => s'.codePtr = s.codePtr ∧ ∀ i, s.codeBuf + T.headerSize ≤ i → s'.mem i = s.mem i)
      Left := by
  have hsize : 16 ≤ T.headerSize := Nat.le_add_right _ _
  refine holds_get_bind fun s₁ hs₁ => ?_
  subst hs₁
  have htables : Holds (fun s' => s' = s₁)
      (setTables (WasmModule.subOut WasmModule.funcEnd s₁.tables))
      (fun _ s' => s'.codePtr = s₁.codePtr ∧ s'.mem = s₁.mem) Left := by
    cases WasmModule.subOut WasmModule.funcEnd s₁.tables with
    | none => exact holds_throw fun _ _ => trivial
    | some t =>
      refine holds_modify ?_
      rintro _ rfl
      exact ⟨rfl, rfl⟩
  refine htables.bind fun _ => holds_modify fun s' ⟨hptr, hmem⟩ => ⟨hptr, fun i hi => ?_⟩
  rw [← hmem]
  exact store_of_not_mem (by rw [length_wordBytes]; omega)

theorem labels_of_items {T : Target} {tb : ℕ} {c : Call} {l : Label} (hi : i ∈ c.items T tb)
    (hl : i.goal = .label l) : l ∈ c.labels := by
  have hmovi : ∀ type ret arg, i ∉ moviItems type ret arg := by
    intro type ret arg h
    simp only [moviItems] at h
    split at h <;> (rw [mem_singleton.mp h] at hl; cases hl)
  cases c with
  | opL op l0 =>
    rw [mem_singleton.mp hi] at hl
    cases hl
    simp [Call.labels]
  | opRl op r0 l1 =>
    rw [mem_singleton.mp hi] at hl
    cases hl
    simp [Call.labels]
  | exitTb arg =>
    cases arg <;> (rw [mem_singleton.mp hi] at hl; cases hl)
  | movi type ret arg => exact absurd hi (hmovi type ret arg)
  | ldst op val base offset =>
    simp only [Call.items] at hi
    split at hi
    · rw [mem_singleton.mp hi] at hl
      cases hl
    · rcases mem_append.mp hi with hi | hi
      · exact absurd hi (hmovi _ _ _)
      · rcases mem_pair.mp hi with rfl | rfl <;> cases hl
  | label l => cases hi
  | _ =>
    rw [mem_singleton.mp hi] at hl
    cases hl

theorem Ops.goal_lt {T : Target} {tb : ℕ} :
    ∀ i ∈ b.calls.flatMap (Call.items T tb), ∀ l, i.goal = .label l → l < b.nbLabels := by
  intro i hi l hl
  obtain ⟨c, hc, hi⟩ := mem_flatMap.mp hi
  obtain ⟨piece, hpiece, hc⟩ := mem_flatMap.mp hc
  obtain ⟨op, hop, hpiece⟩ := mem_flatten.mp hpiece
  exact b.labels_lt op hop piece hpiece c hc l (labels_of_items hi hl)

section Whole

variable {T : Target} {tb : ℕ} {s₀ : State} {first last bound : ℕ}

theorem laid_startCode (hrelocs : s.relocs = []) (hlabels : s.labelValue = fun _ => 0) :
    Holds (fun s' => s' = s) (startCode T tb) (fun _ => Laid (s.place T tb) T tb []) Left := by
  have hframe := steps_startCode T (show s.regenBuf.getD (s.tbs tb).tcPtr = s.bufferOf tb from rfl)
    hrelocs le_rfl
  refine (hframe.and (startCode_lists T tb s)).mono (fun _ h => ⟨h, h⟩) ?_ fun _ _ _ => trivial
  rintro _ s' ⟨hat, hrelocs', hpool, hlabels'⟩
  refine ⟨hat.codeBuf, hat.highwater, hat.codeBias, hlabels'.trans hlabels, hat.codePtr, nofun,
    ?_, ?_⟩
  · simp [hrelocs', hrelocs]
  · simp [hpool]

theorem holds_startCode (hrelocs : s.relocs = []) (hlabels : s.labelValue = fun _ => 0)
    (hroom : s.bufferOf tb + T.headerSize ≤ s.codeGenHighwater)
    (hlast : s.codeGenHighwater ≤ last) :
    Holds (fun s' => s' = s) (startCode T tb) (fun _ s' => Fitting (s.place T tb) T tb [] s' ∧
      Below T s (s.bufferOf tb) last (s.bufferOf tb) s.codeGenHighwater s') Left := by
  have hcores := T.cores_le
  have hsize : T.headerSize = 16 + 8 * T.cores := rfl
  have hframe := steps_startCode T (show s.regenBuf.getD (s.tbs tb).tcPtr = s.bufferOf tb from rfl)
    hrelocs (hroom.trans hlast)
  refine (hframe.and (laid_startCode hrelocs hlabels)).mono (fun _ h => ⟨h, h⟩) ?_
    fun _ _ _ => trivial
  rintro _ s' ⟨hat, hlaid⟩
  refine ⟨⟨hlaid, ?_, ?_⟩, hat.below (by omega) hroom⟩
  · rw [hat.codePtr]
    exact hroom
  · rw [hat.codePtr]
    simp only [State.place]
    omega

/-- A block with an op is abandoned when not even its header fits. -/
theorem room_of_generated (T : Target) (tb : ℕ) (s : State) (hb : b.ops ≠ []) :
    Holds (fun s' => s' = s) (encode T tb b)
      (fun _ _ => s.bufferOf tb + T.headerSize ≤ s.codeGenHighwater) Left := by
  have hreset : Holds (fun s' => s' = s) tcgFuncStart (fun _ s' => s' = s.funcStart) Left :=
    holds_modify fun _ h => h ▸ rfl
  have hstart : Holds (fun s' => s' = s.funcStart) (startCode T tb)
      (fun _ => Laid (s.place T tb) T tb []) Left := laid_startCode rfl rfl
  obtain ⟨op, ops, hops⟩ := exists_cons_of_ne_nil hb
  have hcode : Holds (Laid (s.place T tb) T tb []) (genCode T tb b)
      (fun _ _ => s.bufferOf tb + T.headerSize ≤ s.codeGenHighwater) Left := by
    rw [genCode, hops]
    refine ((fitting_genOp op).bind fun _ => holds_of_forall fun s₁ ⟨hlaid, hle, _⟩ =>
      holds_of_post (fun _ _ => ?_) fun _ _ => trivial).bind fun _ =>
        holds_of_forall fun s₁ h => holds_of_post (fun _ _ => h) fun _ _ => trivial
    rw [hlaid.codePtr] at hle
    exact (Nat.le_add_right _ _).trans hle
  exact hreset.bind fun _ => hstart.bind fun _ => hcode.bind fun _ =>
    holds_of_forall fun s₁ h => holds_of_post (fun _ _ => h) fun _ _ => trivial

/-- All words of the calls are finished; the pool reaches from their end, below 64 KB, to
an address. -/
def Finished (P : Place) (T : Target) (tb : ℕ) (cs : List Call) (last : ℕ) (m : Bytes) : Prop :=
  (layout T tb P.base cs).addr - P.buf < 2 ^ 16 ∧ (layout T tb P.base cs).addr ≤ last ∧
  ∀ (k : ℕ) (i : Item), (cs.flatMap (Call.items T tb))[k]? = some i →
    i.Done m P.bias (layout T tb P.base cs).labels (layout T tb P.base cs).addr last
      (P.base + 4 * k)

theorem Finished.congr {P : Place} (h : Finished P T tb cs last m)
    (hm : ∀ i, P.base ≤ i → i < last → m' i = m i) : Finished P T tb cs last m' := by
  obtain ⟨hsize, hle, hdone⟩ := h
  refine ⟨hsize, hle, fun k i hi => (hdone k i hi).congr (word32_congr fun j hj hj' => ?_) ?_⟩
  · have hk := (List.getElem?_eq_some_iff.mp hi).1
    rw [layout_addr] at hle
    exact hm j (by omega) (by omega)
  · intro j hj hj'
    rw [layout_addr] at hj
    exact hm j (by omega) hj'

theorem holds_link {P : Place} (h : Fitting P T tb b.calls s)
    (hbelow : Below T s₀ first last P.buf s₀.codeGenHighwater s)
    (hlast : s₀.codeGenHighwater + 256 ≤ last) :
    Holds (fun s' => s' = s) (do tcgOutPoolFinalize; tcgResolveRelocs b.nbLabels)
      (fun _ s' => Below T s₀ first last P.buf (s₀.codeGenHighwater + 64) s' ∧
        Finished P T tb b.calls s'.codePtr s'.mem) Left := by
  obtain ⟨hlaid, -, hsize⟩ := h
  have hend : s.codePtr = (layout T tb P.base b.calls).addr := by
    rw [hlaid.codePtr, layout_addr]
  have hpool := (steps_poolFinalize (T := T) hlast).start hbelow
  have hput := holds_poolFinalize s (fun q hq => hlaid.label_le hq)
    (fun q hq => (hbelow.1.pool q hq).2.2.1) hlaid.pool_apart
  refine ((hpool.and hput).mono (fun _ h => ⟨h, h⟩) (fun _ _ h => h) fun _ _ _ => trivial).bind
    fun _ => holds_of_forall ?_
  rintro _ ⟨hbelow', m, p, data, rfl, hp, hm⟩
  have hrelocs := (steps_resolveRelocs b.nbLabels (show s₀.codeGenHighwater + 64 ≤ last by
    omega)).start hbelow'
  have hpatch : Holds (fun s' => s' = s.pooled m p data) (tcgResolveRelocs b.nbLabels)
      (fun _ s' => ∃ m', s' = { s.pooled m p data with mem := m' } ∧
        Patched s.labelValue (relocOrder b.nbLabels s.relocs) m m') Left := by
    refine holds_get_bind fun s₁ hs₁ => ?_
    subst hs₁
    exact holds_patchAll _ _ _ (hlaid.relocs_apart b.nbLabels)
  refine (hrelocs.and hpatch).mono (fun _ h => ⟨h, h⟩) ?_ fun _ _ _ => trivial
  rintro _ _ ⟨hbelow'', m', rfl, hm'⟩
  rw [hlaid.labelValue] at hm'
  exact ⟨hbelow'', hend ▸ hsize, hend ▸ hp, hend ▸ hlaid.done b.goal_lt hm hm'⟩

theorem holds_genCode {P : Place} (hlast : s₀.codeGenHighwater + 4 * opMaxWords ≤ last) :
    Holds (fun s => Fitting P T tb [] s ∧ Below T s₀ first last P.buf s₀.codeGenHighwater s)
      (genCode T tb b) (fun _ s => Below T s₀ first last P.buf (s₀.codeGenHighwater + 64) s ∧
        Finished P T tb b.calls s.codePtr s.mem) Left := by
  refine (((fitting_ops b).and (steps_ops hlast)).mono (fun _ h => h) (fun _ _ h => h)
    fun _ _ _ => trivial).bind fun _ => holds_of_forall fun s ⟨hfit, hbelow⟩ =>
      holds_link hfit hbelow ?_
  simp only [opMaxWords] at hlast
  omega

theorem holds_rest {buf : ℕ} (fpLocals : Bool) (hbelow : Below T s₀ first last buf bound s)
    (hfirst : first ≤ buf + T.headerSize - 4) (hbuf : buf + T.headerSize ≤ last)
    (hlast : s₀.codeGenHighwater + 4096 ≤ last) :
    Holds (fun s' => s' = s) (do
        finishCode T
        writeModules T fpLocals
        let s ← get
        pure (s.codePtr - s.codeBuf))
      (fun _ s' => ∀ i, buf + T.headerSize ≤ i → i < s.codePtr → s'.mem i = s.mem i) Left := by
  have hfinish := (steps_finishCode hfirst hbuf).start hbelow
  refine ((hfinish.and (finishCode_mem T s)).mono (fun _ h => ⟨h, h⟩) (fun _ _ h => h)
    fun _ _ _ => trivial).bind fun _ => holds_of_forall ?_
  rintro s₁ ⟨⟨hat, -, -⟩, hptr, hmem⟩
  -- the module is written behind the position: the frame is taken from there
  have hat' : At T s₁ first s₁.codePtr last buf s₁.codePtr s₁ :=
    ⟨.refl _ _ _, hat.codeBuf, rfl, hat.pool, hat.relocs, hat.tables⟩
  have hmodules := (steps_writeModules fpLocals le_rfl (hat.highwater ▸ hlast)).start hat'
  refine (hmodules.mono (fun _ h => h) (fun _ _ h => h) fun _ _ _ => trivial).bind fun _ =>
    holds_get_bind fun s₂ hs₂ => holds_pure ?_
  rintro _ rfl i hi hi'
  rw [hs₂.mem i (by omega)]
  exact hmem i (hbelow.1.codeBuf ▸ hi)

/-- When a generation succeeds, every word of the block is finished, within the buffer. -/
theorem generated_done (T : Target) (tb : ℕ) (b : Ops) (s : State)
    (hroom : s.bufferOf tb + T.headerSize ≤ s.codeGenHighwater) :
    Holds (fun s' => s' = s) (encode T tb b)
      (fun _ s' => ∃ p ≤ s.codeGenHighwater + 64,
        Finished (s.place T tb) T tb b.calls p s'.mem) Left := by
  have hsize : T.headerSize = 16 + 8 * T.cores := rfl
  obtain ⟨last, hlast⟩ : ∃ last, last = s.codeGenHighwater + 4096 := ⟨_, rfl⟩
  have hreset : Holds (fun s' => s' = s) tcgFuncStart (fun _ s' => s' = s.funcStart) Left :=
    holds_modify fun _ h => h ▸ rfl
  have hstart : Holds (fun s' => s' = s.funcStart) (startCode T tb)
      (fun _ s' => Fitting (s.place T tb) T tb [] s' ∧
        Below T s.funcStart (s.bufferOf tb) last (s.bufferOf tb) s.codeGenHighwater s') Left :=
    holds_startCode rfl rfl hroom (show s.codeGenHighwater ≤ last by omega)
  have hcode : Holds (fun s' => Fitting (s.place T tb) T tb [] s' ∧
      Below T s.funcStart (s.bufferOf tb) last (s.bufferOf tb) s.codeGenHighwater s')
      (genCode T tb b) (fun _ s' =>
        Below T s.funcStart (s.bufferOf tb) last (s.bufferOf tb) (s.codeGenHighwater + 64) s' ∧
        Finished (s.place T tb) T tb b.calls s'.codePtr s'.mem) Left :=
    holds_genCode (show s.codeGenHighwater + 4 * opMaxWords ≤ last by simp only [opMaxWords]; omega)
  refine hreset.bind fun _ => hstart.bind fun _ => hcode.bind fun _ =>
    holds_of_forall ?_
  rintro s₁ ⟨hbelow, hdone⟩
  have hptr := hbelow.2.2
  refine (holds_rest b.fpLocals hbelow (by omega) (by omega) hlast.ge).post
    fun _ s₂ hm => ⟨s₁.codePtr, hptr, hdone.congr hm⟩

end Whole

end Bootbox.Tcg.GenCode
