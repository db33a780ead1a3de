import Bootbox.Tcg.GenCode
import Bootbox.Tcg.ModuleDecode

/-!
What a generation leaves alone, wherever it is left: memory outside of the buffer it writes
to, the context apart from its own pointers, and, when it re-translates, every block.

The buffer reaches as far behind the high-water mark as an op, the pool and the imports,
which are not checked, can pass it.
-/

namespace Bootbox.Tcg.GenCode

open Lib ByteMemory Escape Tci List BitVec
open WasmModule (Tables)

/-- Outside of a range of memory, and in what a generation does not own, nothing changed. -/
structure Kept (s₀ : State) (first last : ℕ) (s : State) : Prop where
  mem : ∀ i, i < first ∨ last ≤ i → s.mem i = s₀.mem i
  tbs : s₀.regenBuf.isSome → s.tbs = s₀.tbs
  codeGenPtr : s.codeGenPtr = s₀.codeGenPtr
  highwater : s.codeGenHighwater = s₀.codeGenHighwater
  genTb : s.genTb = s₀.genTb
  regenBuf : s.regenBuf = s₀.regenBuf
  codeBias : s.codeBias = s₀.codeBias

theorem Kept.refl (s : State) (first last : ℕ) : Kept s first last s :=
  ⟨fun _ _ => rfl, fun _ => rfl, rfl, rfl, rfl, rfl, rfl⟩

/-- A generation at a position of the buffer: what is still to be patched lies between `low`
and the position. -/
structure At (T : Target) (s₀ : State) (low first last buf p : ℕ) (s : State) : Prop
    extends Kept s₀ first last s where
  codeBuf : s.codeBuf = buf
  codePtr : s.codePtr = p
  pool : ∀ q ∈ s.poolLabels,
    low ≤ q.label ∧ q.label + 4 ≤ p ∧ 0 < q.data.length ∧ q.data.length ≤ 8
  relocs : ∀ r ∈ s.relocs, low ≤ r.1 ∧ r.1 + 4 ≤ p
  tables : s.tables.Ok T.kinds

def Item.Ok (i : Item) : Prop :=
  ∀ data, i.goal = .pool data → 0 < data.length ∧ data.length ≤ 8

theorem moviItems_ok (type : IntType) (ret : Reg) (arg : BitVec 64) :
    ∀ i ∈ moviItems type ret arg, i.Ok := by
  intro i hi data hdata
  simp only [moviItems] at hi
  split at hi
  · rw [mem_singleton.mp hi] at hdata
    cases hdata
  · rw [mem_singleton.mp hi] at hdata
    cases hdata
    simp

theorem items_ok (T : Target) (tb : ℕ) (c : Call) : ∀ i ∈ c.items T tb, i.Ok := by
  have hplain : ∀ (w : Word) (g : Goal), (∀ data, g = .pool data → 0 < data.length ∧
      data.length ≤ 8) → ∀ i ∈ [(⟨w, g⟩ : Item)], i.Ok := by
    intro w g hg i hi data hdata
    rw [mem_singleton.mp hi] at hdata
    exact hg data hdata
  cases c with
  | exitTb arg =>
    cases arg with
    | none => exact hplain _ _ (by simp)
    | some i => exact hplain _ _ (by simp)
  | movi type ret arg => exact moviItems_ok type ret arg
  | ldst op val base offset =>
    intro i hi
    simp only [Call.items] at hi
    split at hi
    · exact hplain _ .none (by simp) i hi
    · rcases mem_append.mp hi with hi | hi
      · exact moviItems_ok _ _ _ i hi
      · rcases mem_pair.mp hi with rfl | rfl
        · exact fun _ h => Goal.noConfusion h
        · exact fun _ h => Goal.noConfusion h
  | call func cif ret =>
    refine hplain _ _ fun data hdata => ?_
    cases hdata
    simp
  | qemuLdst op args =>
    refine hplain _ _ fun data hdata => ?_
    cases hdata
    simp [LdstArgs.data]
  | label l => simp [Call.items]
  | _ => exact hplain _ _ (by simp)

@[simp] theorem length_wordBytes (v : ℕ) : (wordBytes v).length = 4 := length_leBytes 4 v

@[simp] theorem length_poolBytes (data : List (BitVec 64)) :
    (poolBytes data).length = 8 * data.length := by
  simp [poolBytes, length_flatMap, Nat.mul_comm]

@[simp] theorem length_rawBytes (bs : List WasmBinary.Byte) : (rawBytes bs).length = bs.length :=
  length_map _

theorem mem_newPoolInsert {n q : PoolData} {ps : List PoolData} :
    q ∈ newPoolInsert n ps ↔ q = n ∨ q ∈ ps := by
  induction ps with
  | nil => simp [newPoolInsert]
  | cons i is ih =>
    unfold newPoolInsert
    split
    · simp
    · split
      · simp only [mem_cons, ih]
        tauto
      · split
        · simp only [mem_cons, ih]
          tauto
        · simp

section Frame

variable {T : Target} {s₀ : State} {low first last buf p : ℕ} {tb : ℕ}

variable {s : State} {a bound : ℕ} {bs : List UInt8}

theorem Kept.store (h : Kept s₀ first last s) (ha : first ≤ a) (hb : a + bs.length ≤ last) :
    Kept s₀ first last { s with mem := store s.mem a bs } :=
  { h with mem := fun i hi => (store_of_not_mem (by omega)).trans (h.mem i hi) }

theorem At.store (h : At T s₀ low first last buf p s) (ha : first ≤ a) (hb : a + bs.length ≤ last) :
    At T s₀ low first last buf p { s with mem := ByteMemory.store s.mem a bs } :=
  { h with toKept := h.toKept.store ha hb }

/-- Every rule below leaves with `Kept`. -/
abbrev Steps (T : Target) (s₀ : State) (low first last buf p : ℕ) {α : Type} (x : Gen α)
    (Q : α → State → Prop) : Prop :=
  Holds (At T s₀ low first last buf p) x Q fun _ => Kept s₀ first last

theorem steps_storeAt (ha : first ≤ a) (hb : a + bs.length ≤ last) :
    Steps T s₀ low first last buf p (storeAt a bs) fun _ => At T s₀ low first last buf p :=
  holds_modify fun _ hs => hs.store ha hb

theorem steps_setCodePtr (ha : p ≤ a) :
    Steps T s₀ low first last buf p (setCodePtr a) fun _ => At T s₀ low first last buf a :=
  holds_modify fun _ hs =>
    { hs with
      codePtr := rfl
      pool := fun q hq => ⟨(hs.pool q hq).1, (hs.pool q hq).2.1.trans ha, (hs.pool q hq).2.2⟩
      relocs := fun r hr => ⟨(hs.relocs r hr).1, (hs.relocs r hr).2.trans ha⟩ }

theorem steps_checkHighwater (a : ℕ) :
    Steps T s₀ low first last buf p (checkHighwater a)
      fun _ s => At T s₀ low first last buf p s ∧ a ≤ s₀.codeGenHighwater := by
  refine holds_get_bind fun s hs => holds_ite (fun _ => holds_throw ?_) fun hle => holds_pure ?_
  · rintro _ rfl
    exact hs.toKept
  · rintro _ rfl
    have := hs.highwater
    exact ⟨hs, by omega⟩

theorem steps_checkSize :
    Steps T s₀ low first last buf p checkSize fun _ => At T s₀ low first last buf p := by
  refine holds_get_bind fun s hs => holds_ite (fun _ => holds_throw ?_) fun hle => holds_pure ?_
  · rintro _ rfl
    exact hs.toKept
  · rintro _ rfl
    exact hs

theorem holds_setTables {t : Option Tables} (hs : At T s₀ low first last buf p s)
    (ht : ∀ t', t = some t' → t'.Ok T.kinds) :
    Holds (fun s' => s' = s) (setTables t) (fun _ => At T s₀ low first last buf p)
      fun _ => Kept s₀ first last := by
  cases t with
  | none =>
    refine holds_throw ?_
    rintro _ rfl
    exact hs.toKept
  | some t =>
    refine holds_modify ?_
    rintro _ rfl
    exact { hs with tables := ht t rfl }

/-- One word at the position, and what it leaves to be patched. -/
theorem At.write {w : Word} {pool : List PoolData} {relocs : List (ℕ × Label)}
    (h : At T s₀ first first last buf p s) (ha : first ≤ p) (hb : p + 4 ≤ last)
    (hpool : ∀ q ∈ pool, q ∈ s.poolLabels ∨ q.label = p ∧ 0 < q.data.length ∧ q.data.length ≤ 8)
    (hrelocs : ∀ r ∈ relocs, r ∈ s.relocs ∨ r.1 = p) :
    At T s₀ first first last buf (p + 4)
      { s with
        mem := ByteMemory.store s.mem s.codePtr (wordBytes w.toNat)
        codePtr := s.codePtr + 4
        poolLabels := pool
        relocs := relocs } where
  __ := h
  mem i hi := by
    have hp := h.codePtr
    exact (store_of_not_mem (by rw [length_wordBytes]; omega)).trans (h.mem i hi)
  codePtr := congrArg (· + 4) h.codePtr
  pool q hq := by
    rcases hpool q hq with hq | ⟨hq, hlen⟩
    · obtain ⟨h₁, h₂, hlen⟩ := h.pool q hq
      exact ⟨h₁, by omega, hlen⟩
    · exact ⟨by omega, by omega, hlen⟩
  relocs r hr := by
    rcases hrelocs r hr with hr | hr
    · obtain ⟨h₁, h₂⟩ := h.relocs r hr
      exact ⟨h₁, by omega⟩
    · omega

theorem steps_tcgOut32 {w : Word} (ha : first ≤ p) (hb : p + 4 ≤ last) :
    Steps T s₀ first first last buf p (tcgOut32 w) fun _ => At T s₀ first first last buf (p + 4) :=
  holds_modify fun _ hs => hs.write ha hb (fun _ => .inl) fun _ => .inl

theorem steps_put {i : Item} (hi : i.Ok) (ha : first ≤ p) (hb : p + 4 ≤ last) :
    Steps T s₀ first first last buf p (put i) fun _ => At T s₀ first first last buf (p + 4) := by
  obtain ⟨w, g⟩ := i
  cases g with
  | none => exact steps_tcgOut32 ha hb
  | label l =>
    refine ⟨fun s hs => hs.write ha hb (fun _ => .inl) fun r hr => ?_⟩
    rcases mem_append.mp hr with hr | hr
    · exact .inl hr
    · exact .inr (by rw [mem_singleton.mp hr]; exact hs.codePtr)
  | pool data =>
    refine ⟨fun s hs => hs.write ha hb (fun q hq => ?_) fun _ => .inl⟩
    rcases mem_newPoolInsert.mp hq with rfl | hq
    · exact .inr ⟨hs.codePtr, hi data rfl⟩
    · exact .inl hq
  | pointer target =>
    refine holds_get_bind fun s hs => holds_ite (fun _ => ?_) fun _ => holds_throw ?_
    · exact (steps_tcgOut32 ha hb).start hs
    · rintro _ rfl
      exact hs.toKept

theorem steps_puts {is : List Item} (hok : ∀ i ∈ is, i.Ok) (ha : first ≤ p)
    (hb : p + 4 * is.length ≤ last) :
    Steps T s₀ first first last buf p (is.forM put)
      fun _ => At T s₀ first first last buf (p + 4 * is.length) := by
  refine holds_forM _ _ (fun done => At T s₀ first first last buf (p + 4 * done.length)) ?_
  intro done i rest his
  subst his
  simp only [length_append, length_cons, length_nil] at hb ⊢
  exact steps_put (hok i (by simp)) (by omega) (by omega)

theorem steps_after (c : Call) :
    Steps T s₀ first first last buf p (c.after tb) fun _ => At T s₀ first first last buf p := by
  cases c with
  | gotoTb which =>
    refine holds_modify fun s hs => ?_
    split
    · exact hs
    · next hr =>
        have hnone : ¬ s₀.regenBuf.isSome := by rwa [← hs.regenBuf]
        exact { hs with tbs := fun h => absurd h hnone }
  | label l =>
    exact holds_modify fun s hs => { hs with }
  | _ => exact holds_pure fun s hs => hs

theorem steps_calls (cs : List Call) (ha : first ≤ p)
    (hb : p + 4 * (cs.flatMap (Call.items T tb)).length ≤ last) :
    Steps T s₀ first first last buf p (cs.forM (emit T tb))
      fun _ => At T s₀ first first last buf (p + 4 * (cs.flatMap (Call.items T tb)).length) := by
  refine holds_forM _ _ (fun done =>
    At T s₀ first first last buf (p + 4 * (done.flatMap (Call.items T tb)).length)) ?_
  intro done c rest hcs
  subst hcs
  simp only [flatMap_append, flatMap_cons, flatMap_nil, length_append, append_nil] at hb ⊢
  rw [Nat.mul_add, ← Nat.add_assoc]
  rw [emit_eq]
  exact (steps_puts (items_ok T tb c) (by omega) (by omega)).bind fun _ => steps_after c

theorem steps_pieces (op : List Piece) (ha : first ≤ p)
    (hb : p + 4 * ((op.flatMap Piece.calls).flatMap (Call.items T tb)).length ≤ last) :
    Steps T s₀ first first last buf p (op.forM (outPiece T tb))
      fun _ => At T s₀ first first last buf
        (p + 4 * ((op.flatMap Piece.calls).flatMap (Call.items T tb)).length) := by
  refine holds_forM _ _ (fun done => At T s₀ first first last buf
    (p + 4 * ((done.flatMap Piece.calls).flatMap (Call.items T tb)).length)) ?_
  intro done piece rest hop
  subst hop
  simp only [flatMap_append, flatMap_cons, flatMap_nil, length_append, append_nil] at hb ⊢
  rw [Nat.mul_add, ← Nat.add_assoc]
  refine (steps_calls piece.calls (by omega) (by omega)).bind fun _ => holds_get_bind fun s hs =>
    holds_setTables hs fun t' ht' => ?_
  obtain ⟨outs, _, houts⟩ := Option.bind_eq_some_iff.mp ht'
  exact (WasmModule.emitAll_spec hs.tables houts).1

def Below (T : Target) (s₀ : State) (first last buf bound : ℕ) (s : State) : Prop :=
  At T s₀ first first last buf s.codePtr s ∧ first ≤ s.codePtr ∧ s.codePtr ≤ bound

theorem At.below (h : At T s₀ first first last buf p s) (ha : first ≤ p) (hb : p ≤ bound) :
    Below T s₀ first last buf bound s := by
  have hp := h.codePtr
  exact ⟨by rwa [hp], by omega, by omega⟩

/-- An op that starts at or below the high-water mark ends there or leaves. -/
theorem steps_genOp {op : List Piece}
    (hop : ((op.flatMap Piece.calls).flatMap (Call.items T tb)).length ≤ opMaxWords)
    (hlast : s₀.codeGenHighwater + 4 * opMaxWords ≤ last) :
    Holds (Below T s₀ first last buf s₀.codeGenHighwater) (genOp T tb op)
      (fun _ => Below T s₀ first last buf s₀.codeGenHighwater) fun _ => Kept s₀ first last := by
  refine holds_of_forall fun s ⟨hat, ha, hb⟩ => ?_
  refine ((steps_pieces op ha (by omega)).start hat).bind fun _ => holds_get_bind fun s' hs' => ?_
  refine (steps_checkHighwater s'.codePtr).andThen hs' fun _ s'' hs'' => ?_
  refine (steps_checkSize.start hs''.1).post fun _ _ h => h.below ?_ ?_
  · omega
  · rw [← hs'.codePtr]
    exact hs''.2

theorem steps_ops {b : Ops} (hlast : s₀.codeGenHighwater + 4 * opMaxWords ≤ last) :
    Holds (Below T s₀ first last buf s₀.codeGenHighwater) (b.ops.forM (genOp T tb))
      (fun _ => Below T s₀ first last buf s₀.codeGenHighwater) fun _ => Kept s₀ first last := by
  refine holds_forM _ _ (fun _ => Below T s₀ first last buf s₀.codeGenHighwater) ?_
  intro done op rest hops
  exact steps_genOp (b.short T tb op (by simp [hops])) hlast

/-! ### Pool and relocations -/

theorem test_bind (c : Prop) [Decidable c] (x y : Gen Unit) :
    (if c then (do x; pure true) else pure false) >>= (fun b => if b = true then pure () else y) =
      if c then x else y := by
  by_cases hc : c
  · simp [hc]
  · simp [hc]

theorem patchOrRaise_eq (a value : ℕ) :
    patchOrRaise a value = get >>= fun s =>
      if Fits 20 (BitVec.ofNat 32 value - BitVec.ofNat 32 (a + 4)) then
        storeAt a (wordBytes (BitField.deposit (word32 s.mem a) 12 20
          (BitVec.ofNat 32 value - BitVec.ofNat 32 (a + 4))).toNat)
      else throw .tbOverflow := by
  simp only [patchOrRaise, patchReloc, bind_assoc, test_bind]

theorem steps_patchOrRaise {value : ℕ} (ha : first ≤ a) (hb : a + 4 ≤ last) :
    Steps T s₀ first first last buf p (patchOrRaise a value) fun _ =>
      At T s₀ first first last buf p := by
  rw [patchOrRaise_eq]
  refine holds_get_bind fun s hs => holds_ite (fun _ => ?_) fun _ => holds_throw ?_
  · exact (steps_storeAt ha hb).start hs
  · rintro _ rfl
    exact hs.toKept

theorem steps_poolPut {data : List (BitVec 64)} (l : Option (List (BitVec 64)))
    (hdata : data.length ≤ 8) (ha : first ≤ a) (hb : a ≤ s₀.codeGenHighwater + 64)
    (hlast : s₀.codeGenHighwater + 64 ≤ last) :
    Steps T s₀ first first last buf p (poolPut data l a) fun r s =>
      At T s₀ first first last buf p s ∧ a ≤ r ∧ r ≤ s₀.codeGenHighwater + 64 := by
  refine holds_ite (fun _ => holds_pure fun s hs => ⟨hs, le_rfl, hb⟩) fun _ => ?_
  refine (steps_checkHighwater a).bind fun _ => holds_of_forall fun s hs => ?_
  have hstore : Steps T s₀ first first last buf p (storeAt a (poolBytes data))
      fun _ => At T s₀ first first last buf p :=
    steps_storeAt ha (by rw [length_poolBytes]; omega)
  refine (hstore.start hs.1).bind fun _ => holds_pure fun s' hs' => ?_
  exact ⟨hs', by omega, by omega⟩

theorem steps_poolLoop {ps : List PoolData} (l : Option (List (BitVec 64)))
    (hps : ∀ q ∈ ps, first ≤ q.label ∧ q.label + 4 ≤ last ∧ q.data.length ≤ 8) (ha : first ≤ a)
    (hb : a ≤ s₀.codeGenHighwater + 64) (hlast : s₀.codeGenHighwater + 64 ≤ last) :
    Steps T s₀ first first last buf p (poolLoop ps l a) fun r s =>
      At T s₀ first first last buf p s ∧ a ≤ r ∧ r ≤ s₀.codeGenHighwater + 64 := by
  induction ps generalizing l a with
  | nil => exact holds_pure fun s hs => ⟨hs, le_rfl, hb⟩
  | cons q ps ih =>
    obtain ⟨hlo, hhi, hlen⟩ := hps q (by simp)
    refine (steps_poolPut l hlen ha hb hlast).bind fun r => holds_of_forall fun s hs => ?_
    have hrest := ih (some q.data) (fun q' hq' => hps q' (by simp [hq'])) (ha.trans hs.2.1)
      hs.2.2
    refine ((steps_patchOrRaise hlo hhi).start hs.1).bind fun _ => hrest.post
      fun r' s' hs' => ⟨hs'.1, hs.2.1.trans hs'.2.1, hs'.2.2⟩

theorem le_roundUp (n : ℕ) {d : ℕ} (hd : 0 < d) : n ≤ roundUp n d ∧ roundUp n d < n + d := by
  have hlt := Nat.mod_lt (n + d - 1) hd
  have hsplit := Nat.div_add_mod' (n + d - 1) d
  unfold roundUp
  omega

theorem steps_poolFinalize (hlast : s₀.codeGenHighwater + 256 ≤ last) :
    Holds (Below T s₀ first last buf s₀.codeGenHighwater) tcgOutPoolFinalize
      (fun _ => Below T s₀ first last buf (s₀.codeGenHighwater + 64))
      fun _ => Kept s₀ first last := by
  refine holds_get_bind fun s ⟨hat, ha, hb⟩ => ?_
  cases hpool : s.poolLabels with
  | nil =>
    refine holds_pure ?_
    rintro _ rfl
    exact ⟨hat, ha, by omega⟩
  | cons q ps =>
    have hin := hat.pool
    rw [hpool] at hin
    obtain ⟨-, -, hpos, hlen⟩ := hin q (by simp)
    obtain ⟨hle, hlt⟩ := le_roundUp s.codePtr (d := 8 * q.data.length) (by omega)
    have hfill : Steps T s₀ first first last buf s.codePtr
        (tcgOutNopFill s.codePtr (roundUp s.codePtr (8 * q.data.length) - s.codePtr))
        fun _ => At T s₀ first first last buf s.codePtr :=
      steps_storeAt ha (by rw [length_replicate]; omega)
    refine (hfill.start hat).bind fun _ => ?_
    have hset : Steps T s₀ first first last buf s.codePtr
        (modify fun s' => { s' with
          dataGenPtr := some (roundUp s.codePtr (8 * q.data.length)) })
        fun _ => At T s₀ first first last buf s.codePtr :=
      holds_modify fun s' hs' => { hs' with }
    refine hset.bind fun _ => ?_
    refine (steps_poolLoop none (fun q' hq' => ?_) (ha.trans hle) (by omega) (by omega)).bind
      fun r => holds_of_forall fun s' hs' => ?_
    · obtain ⟨h₁, h₂, -, h₃⟩ := hin q' hq'
      exact ⟨h₁, by omega, h₃⟩
    · refine ((steps_setCodePtr (hle.trans hs'.2.1)).start hs'.1).post
        fun _ _ h => h.below ?_ hs'.2.2
      omega

theorem mem_relocOrder {nb : ℕ} {relocs : List (ℕ × Label)} {r : ℕ × Label} :
    r ∈ relocOrder nb relocs ↔ r ∈ relocs ∧ r.2 < nb := by
  simp only [relocOrder, mem_flatMap, mem_range, mem_filter, decide_eq_true_eq]
  constructor
  · rintro ⟨l, hl, hr, rfl⟩
    exact ⟨hr, hl⟩
  · rintro ⟨hr, hl⟩
    exact ⟨r.2, hl, hr, rfl⟩

theorem steps_resolveRelocs (nb : ℕ) (hlast : bound ≤ last) :
    Holds (Below T s₀ first last buf bound) (tcgResolveRelocs nb)
      (fun _ => Below T s₀ first last buf bound) fun _ => Kept s₀ first last := by
  refine holds_get_bind fun s ⟨hat, ha, hb⟩ => ?_
  have hloop : Steps T s₀ first first last buf s.codePtr ((relocOrder nb s.relocs).forM fun r =>
      patchOrRaise r.1 (s.labelValue r.2)) fun _ => At T s₀ first first last buf s.codePtr := by
    refine holds_forM _ _ (fun _ => At T s₀ first first last buf s.codePtr) fun done r rest hr => ?_
    obtain ⟨hlo, hhi⟩ := hat.relocs r (mem_relocOrder.mp (by rw [hr]; simp)).1
    exact steps_patchOrRaise hlo (by omega)
  exact (hloop.start hat).post fun _ _ h => h.below ha hb

/-! ### The module -/

theorem steps_finishCode (hfirst : first ≤ buf + T.headerSize - 4)
    (hbuf : buf + T.headerSize ≤ last) :
    Holds (Below T s₀ first last buf bound) (finishCode T)
      (fun _ => Below T s₀ first last buf bound) fun _ => Kept s₀ first last := by
  refine holds_get_bind fun s ⟨hat, ha, hb⟩ => ?_
  refine (holds_setTables hat fun t' ht' => hat.tables.subOut ht').bind fun _ => ?_
  have hsize : 16 ≤ T.headerSize := Nat.le_add_right _ _
  have hcode := hat.codeBuf
  have hstore : Steps T s₀ first first last buf s.codePtr
      (storeAt (s.codeBuf + T.headerSize - 4)
        (wordBytes (s.codePtr - (s.codeBuf + T.headerSize - 4) - 4)))
      fun _ => At T s₀ first first last buf s.codePtr :=
    steps_storeAt (by rwa [hcode]) (by rw [length_wordBytes, hcode]; omega)
  exact hstore.post fun _ _ h => h.below ha hb

theorem steps_putChecked {bs : List WasmBinary.Byte} (ha : first ≤ a)
    (hlast : s₀.codeGenHighwater ≤ last) :
    Steps T s₀ low first last buf p (putChecked a bs) fun r s =>
      At T s₀ low first last buf p s ∧ r = a + bs.length ∧ r ≤ s₀.codeGenHighwater := by
  refine (steps_checkHighwater (a + bs.length)).bind fun _ => holds_of_forall fun s hs => ?_
  have hstore : Steps T s₀ low first last buf p (storeAt a (rawBytes bs))
      fun _ => At T s₀ low first last buf p :=
    steps_storeAt ha (by rw [length_rawBytes]; omega)
  exact (hstore.start hs.1).bind fun _ =>
    holds_pure fun s' hs' => ⟨hs', rfl, hs.2⟩

theorem length_flatMap_wordBytes (fs : List ℕ) : (fs.flatMap wordBytes).length = fs.length * 4 := by
  simp [length_flatMap]

theorem steps_writeModule (fpLocals : Bool) (hp : first ≤ p)
    (hlast : s₀.codeGenHighwater + 4096 ≤ last) :
    Steps T s₀ low first last buf p (writeModule T fpLocals) fun _ => Kept s₀ first last := by
  refine holds_get_bind fun s hs => ?_
  have hblob := hs.codePtr
  have hfuncs := hs.tables.funcs_le
  have himports := WasmModule.length_helperImports_le hfuncs
  simp only [WasmModule.numHelperFuncsMax] at hfuncs
  apply (steps_putChecked (by omega) (by omega)).andThen hs
  rintro a₁ s₁ ⟨hs₁, ha₁, hle₁⟩
  apply (steps_putChecked (by omega) (by omega)).andThen hs₁
  rintro a₂ s₂ ⟨hs₂, ha₂, hle₂⟩
  -- the only part that is not checked: it may pass the mark, but not by much
  refine (steps_storeAt (by omega) (by rw [length_rawBytes]; omega)).andThen hs₂ fun _ s₃ hs₃ => ?_
  apply (steps_putChecked (by omega) (by omega)).andThen hs₃
  rintro a₄ s₄ ⟨hs₄, ha₄, hle₄⟩
  apply (steps_putChecked (by omega) (by omega)).andThen hs₄
  rintro a₅ s₅ ⟨hs₅, ha₅, hle₅⟩
  refine (steps_setCodePtr (by omega)).andThen hs₅ fun _ s₆ hs₆ => ?_
  apply (steps_putChecked (by omega) (by omega)).andThen hs₆
  rintro a₇ s₇ ⟨hs₇, ha₇, hle₇⟩
  refine (steps_setCodePtr (by omega)).andThen hs₇ fun _ s₈ hs₈ => ?_
  refine (steps_storeAt (by omega) (by rw [length_wordBytes]; omega)).andThen hs₈ fun _ s₉ hs₉ => ?_
  apply (steps_checkHighwater _).andThen hs₉
  rintro _ s₁₀ ⟨hs₁₀, hle₁₀⟩
  refine (steps_storeAt (by omega) (by rw [length_flatMap_wordBytes]; omega)).andThen hs₁₀
    fun _ s₁₁ hs₁₁ => ?_
  refine (steps_setCodePtr (by omega)).andThen hs₁₁ fun _ s₁₂ hs₁₂ => ?_
  refine (steps_storeAt (by omega) (by rw [length_wordBytes]; omega)).andThen hs₁₂
    fun _ s₁₃ hs₁₃ => ?_
  exact ((steps_checkHighwater _).start hs₁₃).post fun _ _ h => h.1.toKept

theorem steps_writeEmptyModule (hp : first ≤ p) (hlast : s₀.codeGenHighwater ≤ last) :
    Steps T s₀ low first last buf p writeEmptyModule fun _ => Kept s₀ first last := by
  refine holds_get_bind fun s hs => ?_
  have hptr := hs.codePtr
  refine (steps_checkHighwater _).andThen hs fun _ s₁ ⟨hs₁, hle₁⟩ => ?_
  refine (steps_storeAt (by omega) (by rw [length_wordBytes]; omega)).andThen hs₁ fun _ s₂ hs₂ => ?_
  refine (steps_storeAt (by omega) (by rw [length_wordBytes]; omega)).andThen hs₂ fun _ s₃ hs₃ => ?_
  exact ((steps_setCodePtr (by omega)).start hs₃).post fun _ _ h => h.toKept

theorem steps_writeModules (fpLocals : Bool) (hp : first ≤ p)
    (hlast : s₀.codeGenHighwater + 4096 ≤ last) :
    Steps T s₀ low first last buf p (writeModules T fpLocals) fun _ => Kept s₀ first last := by
  refine holds_get_bind fun s hs => holds_ite (fun _ => ?_) fun _ => ?_
  · exact (steps_writeEmptyModule hp (by omega)).start hs
  · exact (steps_writeModule fpLocals hp hlast).start hs

/-! ### The whole -/

theorem steps_startCode (T : Target) (hbuf : s.regenBuf.getD (s.tbs tb).tcPtr = buf)
    (hrelocs : s.relocs = []) (hroom : buf + T.headerSize ≤ last) :
    Holds (fun s' => s' = s) (startCode T tb)
      (fun _ => At T s buf buf last buf (buf + T.headerSize)) fun _ => Kept s buf last := by
  have hsize : T.headerSize = 16 + 8 * T.cores := rfl
  have hinit : Holds (fun s' => s' = s) (initJmpOffsets tb) (fun _ s' => Kept s buf last s' ∧
      s'.regenBuf.getD (s'.tbs tb).tcPtr = buf ∧ s'.relocs = []) fun _ => Kept s buf last := by
    refine holds_modify ?_
    rintro _ rfl
    split
    · exact ⟨.refl _ _ _, hbuf, hrelocs⟩
    · next hr => exact ⟨⟨fun _ _ => rfl, fun h => absurd h hr, rfl, rfl, rfl, rfl, rfl⟩, by
        simpa using hbuf, hrelocs⟩
  have hreset : Holds (fun s' => Kept s buf last s' ∧
      s'.regenBuf.getD (s'.tbs tb).tcPtr = buf ∧ s'.relocs = []) (resetBuffers tb)
      (fun _ => At T s buf buf last buf buf) fun _ => Kept s buf last := by
    refine holds_modify fun s' ⟨hk, hb, hr⟩ => ?_
    exact ⟨{ hk with }, hb, hb, nofun, by simp [hr], .init⟩
  refine hinit.bind fun _ => hreset.bind fun _ => holds_get_bind fun s₁ hs₁ => ?_
  have hb₁ := hs₁.codeBuf
  refine ((steps_storeAt (by omega) (by rw [length_replicate]; omega)).start
    hs₁).bind fun _ => ?_
  refine (steps_storeAt (by omega) (by rw [length_wordBytes]; omega)).bind fun _ => ?_
  refine (steps_storeAt (by omega) (by rw [length_replicate]; omega)).bind fun _ => ?_
  refine (steps_storeAt (by omega) (by rw [length_wordBytes]; omega)).bind fun _ => ?_
  refine (steps_storeAt (by omega) (by rw [length_wordBytes]; omega)).bind fun _ => ?_
  rw [hb₁]
  exact steps_setCodePtr (by omega)

/-- `tcg_gen_code` writes to its buffer only, however it ends. -/
theorem keeps_tcgGenCode (b : Ops) (hbuf : s.regenBuf.getD (s.tbs tb).tcPtr = buf)
    (hrelocs : s.relocs = []) (hroom : buf + T.headerSize ≤ s.codeGenHighwater)
    (hlast : s.codeGenHighwater + 4096 ≤ last) :
    Holds (fun s' => s' = s) (tcgGenCode T tb b) (fun _ => Kept s buf last)
      fun _ => Kept s buf last := by
  have hsize : T.headerSize = 16 + 8 * T.cores := rfl
  have hstart := steps_startCode T hbuf hrelocs (hroom.trans (Nat.le_of_add_right_le hlast))
  refine (hstart.post (fun _ _ h => h.below (by omega) hroom)).bind fun _ => ?_
  refine ((steps_ops (by simp only [opMaxWords]; omega)).bind fun _ =>
    (steps_poolFinalize (by omega)).bind fun _ => steps_resolveRelocs _ (by omega)).bind
      fun _ => ?_
  refine (steps_finishCode (by omega) (by omega)).bind fun _ =>
    holds_of_forall fun s₁ ⟨hat, hfirst, _⟩ => ?_
  refine ((steps_writeModules b.fpLocals hfirst hlast).start hat).bind fun _ => ?_
  exact holds_get_bind fun s₂ hs₂ => holds_pure fun _ h => h ▸ hs₂

end Frame

end Bootbox.Tcg.GenCode
