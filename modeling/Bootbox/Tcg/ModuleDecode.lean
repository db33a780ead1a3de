import Bootbox.Tcg.WasmModule
import Mathlib.Data.Finset.Card

/-!
Reading an assembled module back. The fixed parts are split at their blanks; every filled
blank reads as the size or count put into it, every helper's type as its signature, and,
while its type index fits seven bits, every import as the helper with that index.
-/

namespace Bootbox.Tcg.WasmModule

open Lib WasmBinary List BitVec Option

variable {kinds : ℕ → HelperKind}

variable {bs : List Byte} {i v n : ℕ} {outs : List Out}

/-! ### What the tables hold -/

/-- The tables of a block: one type for each helper, within the limits. -/
structure Tables.Ok (kinds : ℕ → HelperKind) (t : Tables) : Prop where
  types : t.helperTypes = t.helperFuncs.flatMap fun f => (kinds f).genType
  funcs_le : t.helperFuncs.length ≤ numHelperFuncsMax
  types_le : t.helperTypes.length ≤ helperAddedTypesSectionMax
  body_le : t.subBuf.length ≤ subBufMax

theorem length_genType_le (k : HelperKind) : k.genType.length ≤ helperTypeMaxBytes := by
  cases k with
  | qemuLd => decide
  | qemuSt mo64 => cases mo64 <;> decide
  | call info =>
    obtain ⟨args, ret, _, hargs, _⟩ := info
    have hargs : args.length ≤ 7 := hargs
    rcases ret with _ | t
    · simp [HelperKind.genType, genFuncType, genResultType, Leb128.fill, helperTypeMaxBytes]
      omega
    · cases t <;>
        simp [HelperKind.genType, genFuncType, genResultType, Leb128.fill,
          helperTypeMaxBytes] <;> omega

variable {t' : Tables}

theorem subOut_eq_some {t : Tables} (h : subOut bs t = some t') :
    t.subBuf.length + bs.length ≤ subBufMax ∧ t' = { t with subBuf := t.subBuf ++ bs } := by
  unfold subOut at h
  split at h
  · cases h
    exact ⟨‹_›, rfl⟩
  · cases h

theorem subOut_of_le {t : Tables} (h : t.subBuf.length + bs.length ≤ subBufMax) :
    subOut bs t = some { t with subBuf := t.subBuf ++ bs } :=
  if_pos h

theorem Tables.Ok.subOut {t : Tables} (ht : t.Ok kinds) (h : subOut bs t = some t') :
    t'.Ok kinds := by
  obtain ⟨hle, rfl⟩ := subOut_eq_some h
  exact ⟨ht.types, ht.funcs_le, ht.types_le, by simpa using hle⟩

/-- A helper's index: where it is registered, once and for all. -/
theorem helperIdx_spec {f : ℕ} {t : Tables} (ht : t.Ok kinds)
    (h : helperIdx kinds f t = some (i, t')) :
    t'.Ok kinds ∧ t'.subBuf = t.subBuf ∧ t.helperFuncs <+: t'.helperFuncs ∧
      t'.helperFuncs[i]? = some f := by
  revert h
  fun_cases helperIdx kinds f t with
  | case1 j hj =>
    rintro ⟨⟩
    obtain ⟨hlt, hf, -⟩ := List.findIdx?_eq_some_iff_getElem.mp hj
    refine ⟨ht, rfl, List.prefix_rfl, ?_⟩
    rw [List.getElem?_eq_getElem hlt]
    simpa using hf
  | case4 =>
    rintro ⟨⟩
    have hlen := length_genType_le (kinds f)
    refine ⟨⟨?_, ?_, ?_, ht.body_le⟩, rfl, List.prefix_append .., by simp⟩
    · simp [ht.types]
    · simp only [List.length_append, List.length_singleton]
      omega
    · simp only [List.length_append]
      omega
  | _ => nofun

theorem Tables.Ok.emit {o : Out} {t : Tables} (ht : t.Ok kinds) (h : emit kinds o t = some t') :
    t'.Ok kinds := by
  cases o with
  | code bs => exact ht.subOut h
  | call f =>
    obtain ⟨⟨i, t₁⟩, h₁, h₂⟩ := bind_eq_some_iff.mp h
    exact (helperIdx_spec ht h₁).1.subOut h₂

/-- What is out stays: the helpers keep their indices and the function its beginning. -/
theorem emit_extends {o : Out} {t : Tables} (ht : t.Ok kinds) (h : emit kinds o t = some t') :
    t.helperFuncs <+: t'.helperFuncs ∧ t.subBuf <+: t'.subBuf := by
  cases o with
  | code bs =>
    obtain ⟨-, rfl⟩ := subOut_eq_some h
    exact ⟨prefix_rfl, prefix_append ..⟩
  | call f =>
    obtain ⟨⟨i, t₁⟩, h₁, h₂⟩ := bind_eq_some_iff.mp h
    obtain ⟨-, hbuf, hpre, -⟩ := helperIdx_spec ht h₁
    obtain ⟨-, rfl⟩ := subOut_eq_some h₂
    exact ⟨hpre, hbuf ▸ prefix_append ..⟩

theorem emitAll_spec {t : Tables} (ht : t.Ok kinds) (h : emitAll kinds outs t = some t') :
    t'.Ok kinds ∧ t.helperFuncs <+: t'.helperFuncs ∧ t.subBuf <+: t'.subBuf := by
  induction outs generalizing t with
  | nil =>
    cases h
    exact ⟨ht, prefix_rfl, prefix_rfl⟩
  | cons o outs ih =>
    obtain ⟨t₁, h₁, h₂⟩ := bind_eq_some_iff.mp h
    obtain ⟨hok, hfuncs, hbuf⟩ := ih (ht.emit h₁) h₂
    obtain ⟨hfuncs₁, hbuf₁⟩ := emit_extends ht h₁
    exact ⟨hok, hfuncs₁.trans hfuncs, hbuf₁.trans hbuf⟩

theorem emitAll_append (pre post : List Out) (t : Tables) :
    emitAll kinds (pre ++ post) t = (emitAll kinds pre t).bind (emitAll kinds post) := by
  induction pre generalizing t with
  | nil => rfl
  | cons o pre ih =>
    simp only [List.cons_append, emitAll]
    cases emit kinds o t with
    | none => rfl
    | some t₁ => exact ih t₁

theorem Tables.Ok.init : Tables.init.Ok kinds :=
  ⟨rfl, Nat.zero_le _, Nat.zero_le _, Nat.zero_le _⟩

theorem genTables_spec {t : Tables} (h : genTables kinds outs = some t) :
    t.Ok kinds ∧ ∃ t₀, emitAll kinds outs .init = some t₀ ∧
      t.helperFuncs = t₀.helperFuncs ∧ t.subBuf = t₀.subBuf ++ funcEnd := by
  obtain ⟨t₀, h₀, h₁⟩ := bind_eq_some_iff.mp h
  refine ⟨(emitAll_spec .init h₀).1.subOut h₁, t₀, h₀, ?_⟩
  obtain ⟨-, rfl⟩ := subOut_eq_some h₁
  exact ⟨rfl, rfl⟩

def Out.helper? : Out → Option ℕ
  | .code _ => none
  | .call helper => some helper

/-- The helpers that are called. -/
def helpersOf (outs : List Out) : Finset ℕ := (outs.filterMap Out.helper?).toFinset

theorem helperFuncs_emit {o : Out} {t : Tables} (ht : t.helperFuncs.Nodup)
    (h : emit kinds o t = some t') : t'.helperFuncs.Nodup ∧
      t'.helperFuncs.toFinset = t.helperFuncs.toFinset ∪ helpersOf [o] := by
  cases o with
  | code bs =>
    obtain ⟨-, rfl⟩ := subOut_eq_some h
    exact ⟨ht, (Finset.union_empty _).symm⟩
  | call f =>
    obtain ⟨⟨i, t₁⟩, h₁, h₂⟩ := bind_eq_some_iff.mp h
    obtain ⟨-, rfl⟩ := subOut_eq_some h₂
    revert h₁
    fun_cases helperIdx kinds f t with
    | case1 j hj =>
      rintro ⟨⟩
      obtain ⟨hlt, hf, -⟩ := findIdx?_eq_some_iff_getElem.mp hj
      have hmem : f ∈ t.helperFuncs := by
        simp only [decide_eq_true_eq] at hf
        exact hf ▸ getElem_mem hlt
      exact ⟨ht, by simp [helpersOf, Out.helper?, hmem]⟩
    | case4 hnew =>
      rintro ⟨⟩
      have hmem : f ∉ t.helperFuncs := fun hmem => by
        simpa using findIdx?_eq_none_iff.mp hnew f hmem
      refine ⟨?_, by simp [helpersOf, Out.helper?]⟩
      exact ht.append (nodup_singleton f) (by simpa using hmem)
    | _ => nofun

theorem helperFuncs_emitAll {t : Tables} (ht : t.helperFuncs.Nodup)
    (h : emitAll kinds outs t = some t') : t'.helperFuncs.Nodup ∧
      t'.helperFuncs.toFinset = t.helperFuncs.toFinset ∪ helpersOf outs := by
  induction outs generalizing t with
  | nil =>
    cases h
    exact ⟨ht, by simp [helpersOf]⟩
  | cons o outs ih =>
    obtain ⟨t₁, h₁, h₂⟩ := bind_eq_some_iff.mp h
    obtain ⟨hnodup, hset⟩ := helperFuncs_emit ht h₁
    obtain ⟨hnodup', hset'⟩ := ih hnodup h₂
    refine ⟨hnodup', ?_⟩
    rw [hset', hset, Finset.union_assoc, helpersOf, helpersOf, helpersOf, ← toFinset_append,
      ← filterMap_append, singleton_append]

/-- Every helper has one index. -/
theorem length_helperFuncs {t : Tables} (h : genTables kinds outs = some t) :
    t.helperFuncs.length = (helpersOf outs).card := by
  obtain ⟨-, t₀, h₀, hfuncs, -⟩ := genTables_spec h
  obtain ⟨hnodup, hset⟩ := helperFuncs_emitAll nodup_nil h₀
  rw [hfuncs, ← toFinset_card_of_nodup hnodup, hset]
  simp [Tables.init]

theorem call_registered {pre post : List Out} {f : ℕ} {t : Tables}
    (h : genTables kinds (pre ++ .call f :: post) = some t) :
    ∃ t₀ i rest, emitAll kinds pre .init = some t₀ ∧
      t.subBuf = t₀.subBuf ++ opCall i ++ rest ∧ t.helperFuncs[i]? = some f := by
  obtain ⟨-, te, he, hfuncs, hbuf⟩ := genTables_spec h
  rw [emitAll_append] at he
  obtain ⟨t₀, h₀, h₁⟩ := Option.bind_eq_some_iff.mp he
  obtain ⟨t₁, hcall, hpost⟩ := Option.bind_eq_some_iff.mp h₁
  obtain ⟨⟨i, t₂⟩, hidx, hout⟩ := Option.bind_eq_some_iff.mp hcall
  have ht₀ := (emitAll_spec .init h₀).1
  obtain ⟨hok, hsub, -, hi⟩ := helperIdx_spec ht₀ hidx
  have ht₁ := hok.subOut hout
  obtain ⟨-, rfl⟩ := subOut_eq_some hout
  obtain ⟨-, hpre, rest, hrest⟩ := emitAll_spec ht₁ hpost
  refine ⟨t₀, i, rest ++ funcEnd, h₀, ?_, ?_⟩
  · rw [hbuf, ← hrest, List.append_assoc]
    simp [hsub]
  · obtain ⟨more, hmore⟩ := hpre
    rw [hfuncs, ← hmore, List.getElem?_append_left]
    · exact hi
    · exact (List.getElem?_eq_some_iff.mp hi).1

/-! ### Filled blanks -/

theorem fill_append {k : ℕ} (h : v < 128 ^ (k + 1)) (rest : List Byte) :
    Leb128.fill (Leb128.blank k ++ rest) v = Leb128.fill (Leb128.blank k) v ++ rest := by
  induction k generalizing v with
  | zero =>
    have hv : v / 128 = 0 := by
      rw [pow_one] at h
      omega
    simp [Leb128.blank, Leb128.fill, hv]
  | succ k ih =>
    rw [Leb128.blank_succ, List.cons_append, Leb128.fill, Leb128.fill]
    split
    · rfl
    · rw [ih (by rw [pow_succ] at h; omega)]
      rfl

theorem fillAt_blank (pos : ℕ) {before after : List Byte} (hv : v < 2 ^ 32)
    (hbs : bs = before ++ (Leb128.blank 4 ++ after)) (hpos : before.length = pos) :
    fillAt pos v bs = before ++ (Leb128.fill (Leb128.blank 4) v ++ after) := by
  subst hbs hpos
  rw [fillAt, take_left, drop_left, fill_append (hv.trans (by norm_num))]

theorem fill_byte (h : v < 128) : Leb128.fill [0x00#8] v = [BitVec.ofNat 8 v] := by
  simp [Leb128.fill, Nat.mod_eq_of_lt h]

theorem length_passedParams_lt (info : HelperInfo) : (passedParams info).length < 128 := by
  have hargs : info.args.length ≤ 7 := info.nargs_le
  simp only [passedParams, length_append, length_map]
  split <;> simp <;> omega

theorem length_fill (bs : List Byte) (v : ℕ) : (Leb128.fill bs v).length = bs.length := by
  induction bs generalizing v with
  | nil => rfl
  | cons b bs ih =>
    rw [Leb128.fill, length_cons, length_cons]
    split
    · rfl
    · rw [ih]

abbrev filled (v : ℕ) : List Byte := Leb128.fill (Leb128.blank 4) v

@[simp] theorem length_filled (v : ℕ) : (filled v).length = 5 := length_fill _ _

abbrev startType : List Byte := [0x60#8, 0x01#8, 0x7f#8, 0x01#8, 0x7f#8]

abbrev memoryEntry : List Byte :=
  [0x03#8, 0x65#8, 0x6e#8, 0x76#8, 0x06#8, 0x62#8, 0x75#8, 0x66#8, 0x66#8, 0x65#8, 0x72#8, 0x02#8,
    0x03#8, 0x00#8]

abbrev tableEntry : List Byte :=
  [0x03#8, 0x65#8, 0x6e#8, 0x76#8, 0x05#8, 0x74#8, 0x61#8, 0x62#8, 0x6c#8, 0x65#8, 0x01#8, 0x70#8,
    0x00#8, 0x00#8]

abbrev globalEntries : List Byte :=
  [0x19#8] ++ (replicate 25 ()).flatMap fun _ => modGlobal

/-- The export of `start`. -/
abbrev startExport (n : ℕ) : List Byte :=
  [0x05#8, 0x73#8, 0x74#8, 0x61#8, 0x72#8, 0x74#8] ++ ([0x00#8] ++ filled n)

abbrev typeBytes (t : Tables) : List Byte :=
  filled (t.helperFuncs.length + 1) ++ (startType ++ t.helperTypes)

abbrev headerDCode (mode : Mode) (thisTb : BitVec 32) : List Byte :=
  headerDLocals mode ++ headerDPrologue mode thisTb

theorem writeWasmTypeSectionSize_eq {added : ℕ} (ha : added + 10 < 2 ^ 32) (hn : n + 1 < 2 ^ 32) :
    writeWasmTypeSectionSize modHeaderA added n =
      [0x00#8, 0x61#8, 0x73#8, 0x6d#8, 0x01#8, 0x00#8, 0x00#8, 0x00#8] ++
        ([0x01#8] ++ (filled (added + 10) ++
          (filled (n + 1) ++ startType))) := by
  have h₁ : modHeaderA = [0x00#8, 0x61#8, 0x73#8, 0x6d#8, 0x01#8, 0x00#8, 0x00#8, 0x00#8, 0x01#8] ++
    (Leb128.blank 4 ++ (Leb128.blank 4 ++ startType)) := rfl
  rw [writeWasmTypeSectionSize, fillAt_blank 9 ha h₁ rfl, ← List.append_assoc,
    fillAt_blank 14 hn rfl (by simp)]
  simp

theorem writeWasmImportSectionSize_eq {added : ℕ} (ha : 38 + added < 2 ^ 32) (hn : n + 2 < 2 ^ 32) :
    writeWasmImportSectionSize modHeaderB added n =
      [0x02#8] ++ (filled (38 + added) ++ (filled (n + 2) ++
        (memoryEntry ++ (filled 65535 ++
        tableEntry)))) := by
  have h₁ : modHeaderB = [0x02#8] ++ (Leb128.blank 4 ++ (Leb128.blank 4 ++
    (memoryEntry ++ (Leb128.blank 4 ++
    tableEntry)))) := rfl
  have hlen : modHeaderB.length - 6 + added = 38 + added := rfl
  rw [writeWasmImportSectionSize, hlen, fillAt_blank 1 ha h₁ rfl, ← List.append_assoc,
    fillAt_blank 6 (v := n + nonfuncImports) hn rfl (by simp), ← List.append_assoc,
    ← List.append_assoc, fillAt_blank 25 (by norm_num) rfl (by simp)]
  simp [nonfuncImports]

theorem writeWasmExportSectionSize_eq (hn : n < 2 ^ 32) :
    writeWasmExportSectionSize modHeaderC n =
      [0x03#8, 0x02#8, 0x01#8, 0x00#8] ++ ([0x06#8, 0x7e#8] ++
        globalEntries ++
      ([0x07#8, 0x0d#8, 0x01#8, 0x05#8, 0x73#8, 0x74#8, 0x61#8, 0x72#8, 0x74#8, 0x00#8] ++
        filled n)) := by
  have h₁ : modHeaderC = ([0x03#8, 0x02#8, 0x01#8, 0x00#8] ++ ([0x06#8, 0x7e#8] ++
      globalEntries ++
      [0x07#8, 0x0d#8, 0x01#8, 0x05#8, 0x73#8, 0x74#8, 0x61#8, 0x72#8, 0x74#8, 0x00#8])) ++
      (Leb128.blank 4 ++ []) := rfl
  rw [writeWasmExportSectionSize, fillAt_blank 142 hn h₁ rfl]
  simp

theorem writeWasmCodeSize_eq {mode : Mode} {thisTb : BitVec 32} {bodySize : ℕ}
    (hb : bodySize + (headerDCode mode thisTb).length + 10 < 2 ^ 32) :
    writeWasmCodeSize (wasmWriteHeaderD mode thisTb) bodySize 1 =
      [0x0a#8] ++ (filled (bodySize + (headerDCode mode thisTb).length + 10)
        ++ (filled 1 ++
          (filled (bodySize + (headerDCode mode thisTb).length) ++ headerDCode mode thisTb))) := by
  have h₁ : wasmWriteHeaderD mode thisTb = [0x0a#8] ++ (Leb128.blank 4 ++ (Leb128.blank 4 ++
      (Leb128.blank 4 ++ headerDCode mode thisTb))) := by
    rw [wasmWriteHeaderD, List.append_assoc]
    rfl
  have hlen : bodySize + (wasmWriteHeaderD mode thisTb).length - 6 =
      bodySize + (headerDCode mode thisTb).length + 10 := by
    rw [wasmWriteHeaderD, List.append_assoc, List.length_append]
    change bodySize + (16 + (headerDCode mode thisTb).length) - 6 = _
    omega
  simp only [writeWasmCodeSize, hlen]
  rw [fillAt_blank 1 hb h₁ rfl, ← List.append_assoc, fillAt_blank 6 (by norm_num) rfl (by simp),
    ← List.append_assoc, fillAt_blank 11 (by omega) rfl (by simp)]
  simp only [List.append_assoc, Nat.add_sub_cancel]

/-! ### Entries -/

theorem reads_lebGroups {k : ℕ} (h : v < 128 ^ (k + 1)) :
    Reads (groups (k + 1)) (lebGroups (k + 1) v) v := by
  induction k generalizing v with
  | zero =>
    have hv : v < 128 := by simpa using h
    have hb : (BitVec.ofNat 8 (v % 128)).toNat = v := by
      rw [toNat_ofNat_lt (by omega)]
      omega
    have hl := reads_groups_last (k := 0) (b := BitVec.ofNat 8 (v % 128)) (by omega)
    rw [hb] at hl
    rwa [lebGroups, if_pos (by omega)]
  | succ k ih =>
    rw [lebGroups]
    split
    · have hb : (BitVec.ofNat 8 (v % 128)).toNat = v := by
        rw [toNat_ofNat_lt (by omega)]
        omega
      have hl := reads_groups_last (k := k + 1) (b := BitVec.ofNat 8 (v % 128)) (by omega)
      rwa [hb] at hl
    · have hb : (BitVec.ofNat 8 (v % 128) ||| 0x80#8).toNat = 128 + v % 128 := by
        rw [BitVec.or_comm, Leb128.toNat_or_continuation _ (by omega)]
      have hm := reads_groups_more (b := BitVec.ofNat 8 (v % 128) ||| 0x80#8) (by omega)
        (ih (v := v / 128) (by rw [pow_succ] at h; omega))
      have hv : 128 + v % 128 - 128 + 128 * (v / 128) = v := by omega
      rwa [hb, hv] at hm

theorem reads_writeUint32Leb128 (h : v < 2 ^ 32) : Reads u32 (writeUint32Leb128 v) v :=
  reads_u32 (reads_lebGroups (h.trans (by norm_num))) h

theorem reads_valTypes {ts : List ValType} (h : ts.length < 128) :
    Reads (vec valType) (BitVec.ofNat 8 ts.length :: ts.map ValType.code) ts := by
  have hn := reads_u32_byte (b := BitVec.ofNat 8 ts.length) (by rw [toNat_ofNat_lt] <;> omega)
  rw [toNat_ofNat_lt (by omega)] at hn
  have hv := Reads.vec (p := valType) ts (fun t => [t.code]) id hn fun t _ _ => by
    cases t <;> rfl
  rw [List.map_eq_flatMap]
  simpa using hv

theorem reads_genType (k : HelperKind) : Reads funcType k.genType k.funcType := by
  have hsig : ∀ params results : List ValType, params.length < 128 → results.length < 128 →
      Reads funcType (0x60#8 :: (BitVec.ofNat 8 params.length :: params.map ValType.code ++
        (BitVec.ofNat 8 results.length :: results.map ValType.code))) ⟨params, results⟩ := by
    intro params results hp hr
    have hres := (reads_valTypes hr).bind (q := fun results => pure (⟨params, results⟩ : FuncType))
      (reads_pure _)
    rw [List.append_nil] at hres
    exact (reads_expect 0x60#8).cons ((reads_valTypes hp).bind hres)
  cases k with
  | qemuLd => exact hsig [.i32, .i64, .i32, .i32] [.i64] (by decide) (by decide)
  | qemuSt mo64 =>
    cases mo64
    · exact hsig [.i32, .i64, .i32, .i32, .i32] [] (by decide) (by decide)
    · exact hsig [.i32, .i64, .i64, .i32, .i32] [] (by decide) (by decide)
  | call info =>
    have hlen := length_passedParams_lt info
    have hbuf : (if info.ret = some .i128 then [0x7f#8] else []) ++
        info.args.map (fun t => (passedAs t).code) = (passedParams info).map ValType.code := by
      simp only [passedParams, List.map_append, List.map_map]
      split <;> rfl
    have hres : genResultType info.ret =
        BitVec.ofNat 8 (passedResults info).length :: (passedResults info).map ValType.code := by
      rcases hret : info.ret with _ | t
      · simp [genResultType, passedResults, hret]
      · cases t <;> simp [genResultType, passedResults, hret]
    have hshort : (passedResults info).length < 128 := by
      unfold passedResults
      split <;> simp
    have hread := hsig (passedParams info) (passedResults info) hlen hshort
    simp only [HelperKind.genType, genFuncType, hbuf, List.length_map, fill_byte hlen, hres]
    simpa [HelperKind.funcType] using hread

theorem reads_name {ns : List Byte} (bs : List Byte) (hn : Reads u32 ns bs.length) :
    Reads name (ns ++ bs) bs := by
  have hv := Reads.vec bs (fun b => [b]) id hn fun b _ => reads_byte b
  simpa [name] using hv

theorem length_decimal_le (h : i < numHelperFuncsMax) : (decimal i).length ≤ 3 := by
  have hlen := Nat.toDigits_length 10 i 3 (by decide) (h.trans (by decide))
  rwa [decimal, length_map]

theorem run_importEntry (h : i < numHelperFuncsMax) (rest : List Byte) :
    importEntry.run (0x06#8 :: helperName ++ writeUint32Leb128 (decimal i).length ++ decimal i ++
        rest) =
      (importDesc.run rest).map fun r => (⟨helperName, decimal i, r.1⟩, r.2) := by
  have hmod : Reads name (0x06#8 :: helperName) helperName :=
    reads_name helperName (reads_u32_byte (b := 0x06#8) (by decide))
  have hname := reads_name (decimal i)
    (reads_writeUint32Leb128 ((length_decimal_le h).trans_lt (by norm_num)))
  rw [importEntry, List.append_assoc, List.append_assoc, hmod.run_bind, ← List.append_assoc,
    hname.run_bind, StateT.run_bind]
  cases importDesc.run rest <;> rfl

/-- The import of a helper whose type index fits seven bits. -/
theorem reads_importEntry (h : i + 1 < 128) :
    Reads importEntry (tcgOutImportEntry i (i + 1)) ⟨helperName, decimal i, .func (i + 1)⟩ := by
  intro rest
  have htype := reads_u32_byte (b := BitVec.ofNat 8 (i + 1)) (by rw [toNat_ofNat_lt] <;> omega)
  rw [toNat_ofNat_lt (by omega)] at htype
  have hdesc : Reads importDesc [0x00#8, BitVec.ofNat 8 (i + 1)] (.func (i + 1)) :=
    (reads_byte 0x00#8).cons htype.map
  rw [tcgOutImportEntry, List.append_assoc, run_importEntry (by unfold numHelperFuncsMax; omega),
    hdesc rest]
  rfl

/-! ### The code section -/

def localsOf (mode : Mode) : List (ℕ × ValType) :=
  if mode.regLocals then
    if mode.fpLocals then [(2, .i32), (22, .i64), (3, .f32), (3, .f64), (3, .v128)]
    else [(2, .i32), (22, .i64)]
  else [(2, .i32), (5, .i64)]

theorem reads_headerDLocals (mode : Mode) :
    Reads (vec localGroup) (headerDLocals mode) (localsOf mode) := by
  intro rest
  obtain ⟨_ | _, _ | _, _, _⟩ := mode <;> rfl

theorem length_headerDLocals_le (mode : Mode) : (headerDLocals mode).length ≤ 11 := by
  unfold headerDLocals
  split
  · split <;> decide
  · decide

theorem length_headerDPrologue_le (mode : Mode) (thisTb : BitVec 32) :
    (headerDPrologue mode thisTb).length ≤ 1000 := by
  have hleb : (thisTbLeb thisTb).length = 5 := by simp [thisTbLeb]
  have hjump : (modHeaderDLocChainJump mode.chainNested).length ≤ 5 := by
    cases mode.chainNested <;> decide
  have hslot : modHeaderDLocChainSlot.length + modHeaderDLocChainTest.length ≤ 100 := by decide
  have hloc : modHeaderDLocA.length + modHeaderDLocB.length ≤ 200 := by decide
  unfold headerDPrologue
  split
  · split
    · simp only [length_append]
      omega
    · simp only [length_append, length_nil]
      omega
  · decide

theorem run_body {mode : Mode} {code : List Byte} (h : code.getLast? = some 0x0b#8) :
    body.run (headerDLocals mode ++ code) = some (⟨localsOf mode, code⟩, []) := by
  rw [body, (reads_headerDLocals mode).run_bind]
  simp [StateT.run_bind, StateT.run_get, StateT.run_set, h]

/-! ### The module -/

/-- What a decoded module has to say about the block it was assembled for. -/
structure Describes (kinds : ℕ → HelperKind) (mode : Mode) (thisTb : BitVec 32) (t : Tables)
    (m : Module) : Prop where
  wellFormed : m.WellFormed
  types_length : m.types.length = t.helperFuncs.length + 1
  imports_length : m.imports.length = t.helperFuncs.length + 2
  helper : ∀ i f, t.helperFuncs[i]? = some f →
    m.imports[i + 2]? = some ⟨helperName, decimal i, .func (i + 1)⟩ ∧
      m.types[i + 1]? = some (kinds f).funcType
  funcs : m.funcs = [0] ∧ m.types[0]? = some ⟨[.i32], [.i32]⟩
  globals : m.globals = replicate 25 ⟨.i64, 0x00#8⟩
  exports : m.exports = [⟨[0x73#8, 0x74#8, 0x61#8, 0x72#8, 0x74#8], t.helperFuncs.length⟩]
  bodies : m.bodies = [⟨localsOf mode, headerDPrologue mode thisTb ++ t.subBuf⟩]

/-- The block's function is assembled into a module that decodes, and that imports every
helper under the index the function calls it by. -/
structure WellAssembled (kinds : ℕ → HelperKind) (mode : Mode) (thisTb : BitVec 32)
    (outs : List Out) (t : Tables) : Prop where
  decodes : ∃ m, decode (assemble mode thisTb t) = some m ∧ Describes kinds mode thisTb t m
  calls : ∀ pre f post, outs = pre ++ .call f :: post →
    ∃ t₀ i rest, emitAll kinds pre .init = some t₀ ∧
      t.subBuf = t₀.subBuf ++ opCall i ++ rest ∧ t.helperFuncs[i]? = some f

def envImports : List Import :=
  [⟨[0x65#8, 0x6e#8, 0x76#8], [0x62#8, 0x75#8, 0x66#8, 0x66#8, 0x65#8, 0x72#8],
      .sharedMemory 0 65535⟩,
   ⟨[0x65#8, 0x6e#8, 0x76#8], [0x74#8, 0x61#8, 0x62#8, 0x6c#8, 0x65#8], .table 0⟩]

def helperImport (i : ℕ) : Import := ⟨helperName, decimal i, .func (i + 1)⟩

def moduleOf (kinds : ℕ → HelperKind) (mode : Mode) (thisTb : BitVec 32) (t : Tables) : Module where
  types := ⟨[.i32], [.i32]⟩ :: t.helperFuncs.map fun f => (kinds f).funcType
  imports := envImports ++ (range t.helperFuncs.length).map helperImport
  funcs := [0]
  globals := replicate 25 ⟨.i64, 0x00#8⟩
  exports := [⟨[0x73#8, 0x74#8, 0x61#8, 0x72#8, 0x74#8], t.helperFuncs.length⟩]
  bodies := [⟨localsOf mode, headerDPrologue mode thisTb ++ t.subBuf⟩]

theorem describes_moduleOf (kinds : ℕ → HelperKind) (mode : Mode) (thisTb : BitVec 32)
    (t : Tables) : Describes kinds mode thisTb t (moduleOf kinds mode thisTb t) where
  wellFormed := by
    refine ⟨?_, ?_, ?_, rfl⟩
    · intro i hi ty hty
      rcases List.mem_append.mp hi with henv | hhelper
      · simp only [envImports, List.mem_cons, List.not_mem_nil, or_false] at henv
        rcases henv with rfl | rfl <;> cases hty
      · obtain ⟨j, hj, rfl⟩ := List.mem_map.mp hhelper
        cases hty
        have := List.mem_range.mp hj
        simpa [moduleOf] using this
    · simp [moduleOf]
    · have hall : ∀ i ∈ (List.range t.helperFuncs.length).map helperImport,
          i.desc.isFunc = true := by
        intro i hi
        obtain ⟨j, -, rfl⟩ := List.mem_map.mp hi
        rfl
      have henv : envImports.filter (fun i => i.desc.isFunc) = [] := rfl
      simp [moduleOf, henv, List.filter_eq_self.mpr hall]
  types_length := by simp [moduleOf]
  imports_length := by simp [moduleOf, envImports]
  helper := by
    intro i f hf
    have hi := (List.getElem?_eq_some_iff.mp hf).1
    constructor
    · simp [moduleOf, envImports, helperImport, hi]
    · simp [moduleOf, hf]
  funcs := ⟨rfl, rfl⟩
  globals := rfl
  exports := rfl
  bodies := rfl

/-- The bytes of the type section's entries. -/
theorem reads_types {t : Tables} (ht : t.Ok kinds) :
    Reads (vec funcType) (typeBytes t)
      (⟨[.i32], [.i32]⟩ :: t.helperFuncs.map fun f => (kinds f).funcType) := by
  have hn : t.helperFuncs.length + 1 < 2 ^ 32 := by
    have := ht.funcs_le
    unfold numHelperFuncsMax at this
    omega
  have hstart : Reads funcType startType ⟨[.i32], [.i32]⟩ := by
    intro rest
    rfl
  have htail : Reads (times funcType t.helperFuncs.length) t.helperTypes
      (t.helperFuncs.map fun f => (kinds f).funcType) := by
    rw [ht.types]
    exact Reads.times _ _ _ fun f _ => reads_genType (kinds f)
  have hnil := reads_pure (⟨[.i32], [.i32]⟩ :: t.helperFuncs.map fun f => (kinds f).funcType)
  have hcons := htail.bind (q := fun xs => pure ((⟨[.i32], [.i32]⟩ : FuncType) :: xs)) hnil
  rw [append_nil] at hcons
  exact (reads_u32_fill hn).bind (hstart.bind hcons)

theorem reads_envImports :
    Reads (times importEntry 2) ((memoryEntry ++ (filled 65535 ++
      tableEntry))) envImports := by
  intro rest
  rfl

theorem reads_helperImports (h : n < 128) :
    Reads (times importEntry n) (helperImports n) ((range n).map helperImport) := by
  have hread := Reads.times (range n) (fun i => tcgOutImportEntry i (i + 1)) helperImport
    fun i hi => reads_importEntry (by have := mem_range.mp hi; omega)
  rwa [length_range] at hread

theorem getLast?_subBuf {t : Tables} (h : genTables kinds outs = some t) (front : List Byte) :
    (front ++ t.subBuf).getLast? = some 0x0b#8 := by
  obtain ⟨-, t₀, -, -, hbuf⟩ := genTables_spec h
  rw [hbuf, ← List.append_assoc, List.getLast?_append]
  rfl

variable {mode : Mode} {thisTb : BitVec 32} {t : Tables}

def laterBytes (mode : Mode) (thisTb : BitVec 32) (t : Tables) : List Byte :=
  writeWasmExportSectionSize modHeaderC t.helperFuncs.length ++
    (writeWasmCodeSize (wasmWriteHeaderD mode thisTb) t.subBuf.length 1 ++ t.subBuf)

def importBytes (t : Tables) : List Byte :=
  filled (t.helperFuncs.length + 2) ++
    ((memoryEntry ++ (filled 65535 ++ tableEntry)) ++ helperImports t.helperFuncs.length)

theorem helperImports_succ (n : ℕ) :
    helperImports (n + 1) = helperImports n ++ tcgOutImportEntry n (n + 1) := by
  simp [helperImports, range_succ]

theorem length_helperImports_le (h : n ≤ numHelperFuncsMax) :
    (helperImports n).length ≤ n * 13 := by
  induction n with
  | zero => simp [helperImports]
  | succ n ih =>
    have hd := length_decimal_le h
    have hl : (writeUint32Leb128 (decimal n).length).length = 1 := by
      rw [writeUint32Leb128, lebGroups, if_pos (by omega)]
      rfl
    have hn := ih (by omega)
    have he : (tcgOutImportEntry n (n + 1)).length ≤ 13 := by
      simp [tcgOutImportEntry, helperName, hl]
      omega
    rw [helperImports_succ, length_append]
    omega

theorem length_importBytes (t : Tables) :
    (importBytes t).length = 38 + (helperImports t.helperFuncs.length).length := by
  simp [importBytes]
  omega

theorem importSection_bytes (ht : t.Ok kinds) :
    writeWasmImportSectionSize modHeaderB (helperImports t.helperFuncs.length).length
        t.helperFuncs.length ++ helperImports t.helperFuncs.length =
      [0x02#8] ++ (filled (importBytes t).length ++ importBytes t) := by
  have hfuncs := ht.funcs_le
  have himports := length_helperImports_le hfuncs
  unfold numHelperFuncsMax at hfuncs
  rw [writeWasmImportSectionSize_eq (by omega) (by omega), length_importBytes, importBytes]
  simp only [List.append_assoc]

theorem reads_importsSize (ht : t.Ok kinds) :
    Reads u32 (filled (importBytes t).length) (importBytes t).length := by
  have hfuncs := ht.funcs_le
  have himports := length_helperImports_le hfuncs
  unfold numHelperFuncsMax at hfuncs
  refine reads_u32_fill ?_
  rw [length_importBytes]
  omega

theorem reads_importsCount (ht : t.Ok kinds) :
    Reads u32 (filled (t.helperFuncs.length + 2)) (2 + t.helperFuncs.length) := by
  have hfuncs := ht.funcs_le
  unfold numHelperFuncsMax at hfuncs
  rw [Nat.add_comm 2]
  exact reads_u32_fill (by omega)

theorem run_wasmModule (ht : t.Ok kinds) :
    wasmModule.run (assemble mode thisTb t) =
      (importSection >>= laterSections
        (⟨[.i32], [.i32]⟩ :: t.helperFuncs.map fun f => (kinds f).funcType)).run
      ([0x02#8] ++ (filled (importBytes t).length ++ importBytes t) ++
        laterBytes mode thisTb t) := by
  have hfuncs := ht.funcs_le
  have htypes := ht.types_le
  simp only [numHelperFuncsMax, helperAddedTypesSectionMax, helperTypeMaxBytes] at hfuncs htypes
  have hpre : Reads (preamble.forM expect) preamble () := fun _ => rfl
  have hsize := reads_u32_fill (v := (typeBytes t).length) (by simp; omega)
  have hsec := hsize.sectionOf 0x01#8 (reads_types ht).run_self
  have hbytes : assemble mode thisTb t = preamble ++ (([0x01#8] ++
      (filled (typeBytes t).length ++
      (typeBytes t))) ++
      ([0x02#8] ++ (filled (importBytes t).length ++ importBytes t) ++
        laterBytes mode thisTb t)) := by
    have hlen : (typeBytes t).length =
        t.helperTypes.length + 10 := by
      simp
      omega
    rw [hlen, ← importSection_bytes ht, assemble, writeWasmTypeSectionSize_eq (by omega) (by omega),
      laterBytes, preamble]
    simp only [List.append_assoc]
  rw [hbytes, wasmModule, hpre.run_bind]
  exact hsec.run_bind _

theorem reads_importSection (ht : t.Ok kinds) (hn : t.helperFuncs.length < 128) :
    Reads importSection ([0x02#8] ++ (filled (importBytes t).length ++ importBytes t))
      (envImports ++ (range t.helperFuncs.length).map helperImport) := by
  have hentries : Reads (vec importEntry) (importBytes t)
      (envImports ++ (range t.helperFuncs.length).map helperImport) := by
    refine (reads_importsCount ht).bind ?_
    rw [times_add]
    have hhelpers := (reads_helperImports hn).bind
      (q := fun ys => pure (envImports ++ ys)) (reads_pure _)
    rw [append_nil] at hhelpers
    exact reads_envImports.bind hhelpers
  exact (reads_importsSize ht).sectionOf 0x02#8 hentries.run_self

theorem reads_globalSection :
    Reads globalSection ([0x06#8] ++ ([0x7e#8] ++
      globalEntries))
      (replicate 25 ⟨.i64, 0x00#8⟩) := by
  have hglobal : Reads globalEntry modGlobal ⟨.i64, 0x00#8⟩ := fun _ => rfl
  have hvec := Reads.vec (replicate 25 ()) (fun _ => modGlobal)
    (fun _ => (⟨.i64, 0x00#8⟩ : Global)) (reads_u32_byte (b := 0x19#8) (by decide))
    fun _ _ => hglobal
  have hsize : Reads u32 [0x7e#8]
      globalEntries.length :=
    reads_u32_byte (b := 0x7e#8) (by decide)
  exact hsize.sectionOf 0x06#8 hvec.run_self

theorem reads_exportSection (hn : n < 2 ^ 32) :
    Reads exportSection ([0x07#8] ++ ([0x0d#8] ++
      ([0x01#8] ++ (startExport n))))
      [⟨[0x73#8, 0x74#8, 0x61#8, 0x72#8, 0x74#8], n⟩] := by
  have hidx := (reads_u32_fill hn).bind (q := fun i => pure
    (⟨[0x73#8, 0x74#8, 0x61#8, 0x72#8, 0x74#8], i⟩ : Export)) (reads_pure _)
  rw [append_nil] at hidx
  have hname : Reads name [0x05#8, 0x73#8, 0x74#8, 0x61#8, 0x72#8, 0x74#8]
      [0x73#8, 0x74#8, 0x61#8, 0x72#8, 0x74#8] := fun _ => rfl
  have hentry : Reads exportEntry
      (startExport n) _ :=
    hname.bind ((reads_expect 0x00#8).bind hidx)
  have hvec := Reads.vec [()] (fun _ => startExport n)
    (fun _ => (⟨[0x73#8, 0x74#8, 0x61#8, 0x72#8, 0x74#8], n⟩ : Export))
    (reads_u32_byte (b := 0x01#8) (by decide)) fun _ _ => hentry
  have hsize : Reads u32 [0x0d#8] ([0x01#8] ++ (startExport n)).length := by
    simp only [length_append, length_filled]
    exact reads_u32_byte (b := 0x0d#8) (by decide)
  refine hsize.sectionOf 0x07#8 ?_
  simpa using hvec.run_self

theorem reads_codeSection (mode : Mode) {code : List Byte} (hlen : code.length < 2 ^ 31)
    (hend : code.getLast? = some 0x0b#8) :
    Reads codeSection ([0x0a#8] ++ (filled ((headerDLocals mode ++ code).length + 10) ++
      (filled 1 ++ (filled (headerDLocals mode ++ code).length ++ (headerDLocals mode ++ code)))))
      [⟨localsOf mode, code⟩] := by
  have hlocals := length_headerDLocals_le mode
  have hbody := (reads_u32_fill (v := (headerDLocals mode ++ code).length)
    (by rw [length_append]; omega)).sized (run_body hend)
  have hvec := Reads.vec [()] (fun _ => filled (headerDLocals mode ++ code).length ++
    (headerDLocals mode ++ code)) (fun _ => (⟨localsOf mode, code⟩ : Body))
    (reads_u32_fill (v := 1) (by norm_num)) fun _ _ => hbody
  have hsize := reads_u32_fill (v := (filled 1 ++ (filled (headerDLocals mode ++ code).length ++
    (headerDLocals mode ++ code))).length) (by simp; omega)
  have hsec := hsize.sectionOf 0x0a#8 (p := vec (sized body)) (by simpa using hvec.run_self)
  have hten : (filled 1 ++ (filled (headerDLocals mode ++ code).length ++
      (headerDLocals mode ++ code))).length = (headerDLocals mode ++ code).length + 10 := by
    simp
    omega
  rwa [hten] at hsec

theorem run_laterSections (h : genTables kinds outs = some t) (types : List FuncType)
    (imports : List Import) :
    (laterSections types imports).run (laterBytes mode thisTb t) = some (⟨types, imports, [0],
      replicate 25 ⟨.i64, 0x00#8⟩,
      [⟨[0x73#8, 0x74#8, 0x61#8, 0x72#8, 0x74#8], t.helperFuncs.length⟩],
      [⟨localsOf mode, headerDPrologue mode thisTb ++ t.subBuf⟩]⟩, []) := by
  have ht := (genTables_spec h).1
  have hfuncs := ht.funcs_le
  have hbody := ht.body_le
  simp only [numHelperFuncsMax, subBufMax] at hfuncs hbody
  have hlocals := length_headerDLocals_le mode
  have hprologue := length_headerDPrologue_le mode thisTb
  have hlen : (headerDPrologue mode thisTb ++ t.subBuf).length < 2 ^ 31 := by
    rw [length_append]
    omega
  have hcode := reads_codeSection mode hlen (getLast?_subBuf h _)
  have hbytes : laterBytes mode thisTb t = [0x03#8, 0x02#8, 0x01#8, 0x00#8] ++ (([0x06#8] ++
      ([0x7e#8] ++ globalEntries)) ++
      (([0x07#8] ++ ([0x0d#8] ++ ([0x01#8] ++ (startExport t.helperFuncs.length)))) ++
      ([0x0a#8] ++ (filled ((headerDLocals mode ++
          (headerDPrologue mode thisTb ++ t.subBuf)).length + 10) ++
        (filled 1 ++ (filled (headerDLocals mode ++
          (headerDPrologue mode thisTb ++ t.subBuf)).length ++
        (headerDLocals mode ++ (headerDPrologue mode thisTb ++ t.subBuf)))))))) := by
    have hsum : (headerDLocals mode ++ (headerDPrologue mode thisTb ++ t.subBuf)).length =
        t.subBuf.length + (headerDCode mode thisTb).length := by
      simp only [length_append]
      omega
    rw [laterBytes, writeWasmExportSectionSize_eq (by omega),
      writeWasmCodeSize_eq (by rw [length_append]; omega), hsum]
    simp
  have hfunc : Reads funcSection [0x03#8, 0x02#8, 0x01#8, 0x00#8] [0] := fun _ => rfl
  rw [hbytes, laterSections, hfunc.run_bind, reads_globalSection.run_bind,
    (reads_exportSection (by omega)).run_bind, StateT.run_bind, hcode.run_self]
  rfl

theorem decode_assemble (h : genTables kinds outs = some t) (hn : t.helperFuncs.length < 128) :
    decode (assemble mode thisTb t) = some (moduleOf kinds mode thisTb t) := by
  have ht := (genTables_spec h).1
  rw [decode, run_wasmModule ht, (reads_importSection ht hn).run_bind, run_laterSections h]
  rfl

/-! ### From the 128th helper on -/

theorem helperImports_split (h : 128 ≤ n) :
    ∃ rest, (rest = [] ∨ ∃ more, rest = 0x06#8 :: more) ∧
      helperImports n = helperImports 127 ++ (tcgOutImportEntry 127 128 ++ rest) := by
  induction n, h using Nat.le_induction with
  | base => exact ⟨[], .inl rfl, by rw [helperImports_succ, List.append_nil]⟩
  | succ n _ ih =>
    obtain ⟨rest, hrest, heq⟩ := ih
    refine ⟨rest ++ tcgOutImportEntry n (n + 1), .inr ?_, ?_⟩
    · rcases hrest with rfl | ⟨more, rfl⟩
      · exact ⟨_, rfl⟩
      · exact ⟨_, rfl⟩
    · rw [helperImports_succ, heq, List.append_assoc, List.append_assoc]

theorem imports_ne_of_le (ht : t.Ok kinds) (hn : 128 ≤ t.helperFuncs.length) {m : Module}
    (h : decode (assemble mode thisTb t) = some m) : m.imports[129]? ≠ some (helperImport 127) := by
  intro himport
  have hrun : wasmModule.run (assemble mode thisTb t) = some (m, []) := by
    unfold decode at h
    split at h
    · cases h
      assumption
    · cases h
  -- the import section is decoded by itself, so the module's imports are what its bytes say
  rw [run_wasmModule ht, StateT.run_bind] at hrun
  obtain ⟨⟨imports, after⟩, hsec, hlater⟩ := Option.bind_eq_some_iff.mp hrun
  have hm : m.imports = imports := by
    simp only [laterSections, StateT.run_bind] at hlater
    obtain ⟨⟨_, _⟩, -, hlater⟩ := Option.bind_eq_some_iff.mp hlater
    obtain ⟨⟨_, _⟩, -, hlater⟩ := Option.bind_eq_some_iff.mp hlater
    obtain ⟨⟨_, _⟩, -, hlater⟩ := Option.bind_eq_some_iff.mp hlater
    obtain ⟨⟨_, _⟩, -, hlater⟩ := Option.bind_eq_some_iff.mp hlater
    cases hlater
    rfl
  have hvec := run_sectionOf_eq_some (reads_importsSize ht) hsec
  obtain ⟨rest, hrest, hsplit⟩ := helperImports_split hn
  obtain ⟨k, hk⟩ := Nat.exists_eq_add_of_le hn
  have hcount : 2 + t.helperFuncs.length = (2 + 127) + (k + 1) := by omega
  have hread := reads_envImports.bind (q := fun xs => do
    let ys ← times importEntry 127
    pure (xs ++ ys)) ((reads_helperImports (n := 127) (by decide)).bind (reads_pure _))
  rw [← times_add] at hread
  rw [importBytes, vec, (reads_importsCount ht).run_bind, hcount, times_add, hsplit,
    ← List.append_assoc, ← List.append_nil (helperImports 127), hread.run_bind,
    StateT.run_bind] at hvec
  obtain ⟨⟨ys, after'⟩, hys, hpure⟩ := Option.bind_eq_some_iff.mp hvec
  rw [times, StateT.run_bind] at hys
  obtain ⟨⟨y, after''⟩, hy, htimes⟩ := Option.bind_eq_some_iff.mp hys
  rw [tcgOutImportEntry, List.append_assoc, run_importEntry (by decide)] at hy
  obtain ⟨⟨d, r⟩, hd, hy⟩ := Option.map_eq_some_iff.mp hy
  have hne : d ≠ .func 128 := by
    rcases hrest with rfl | ⟨more, rfl⟩
    · cases hd
    · cases hd
      decide
  refine hne ?_
  obtain ⟨⟨ys', after⟩, -, hcons⟩ := Option.bind_eq_some_iff.mp htimes
  cases hcons
  cases hpure
  cases hy
  rw [hm, List.getElem?_append_right (by simp [envImports])] at himport
  simpa [envImports, helperImport] using himport

/-- A block's module is well formed exactly when the block calls fewer than 128 helpers. -/
theorem module_decodes_iff {outs : List Out} (h : genTables kinds outs = some t) :
    WellAssembled kinds mode thisTb outs t ↔ (helpersOf outs).card < 128 := by
  have ht := (genTables_spec h).1
  rw [← length_helperFuncs h]
  constructor
  · rintro ⟨⟨m, hm, hdescribes⟩, -⟩
    by_contra hn
    have hlt : 127 < t.helperFuncs.length := by omega
    refine imports_ne_of_le ht (by omega) hm ?_
    exact (hdescribes.helper 127 _ (getElem?_eq_getElem hlt)).1
  · intro hn
    refine ⟨⟨_, decode_assemble h hn, describes_moduleOf kinds mode thisTb t⟩, ?_⟩
    rintro pre f post rfl
    exact call_registered h

/-- A function that calls one helper. -/
theorem oneHelper_wellAssembled :
    ∃ t, genTables (fun _ => .qemuLd) [.code [0x01#8], .call 7] = some t ∧
      WellAssembled (fun _ => .qemuLd) ⟨true, false, true, false⟩ 0x1000#32
        [.code [0x01#8], .call 7] t :=
  ⟨_, rfl, (module_decodes_iff rfl).mpr (by decide)⟩

theorem length_opCall_le (h : i < numHelperFuncsMax) : (opCall i).length ≤ 3 := by
  unfold numHelperFuncsMax at h
  rw [opCall, writeUint32Leb128, lebGroups]
  split
  · simp
  · rw [lebGroups, if_pos (by omega)]
    simp

theorem emitAll_range (h : n ≤ numHelperFuncsMax) :
    ∃ t, emitAll (fun _ => .qemuLd) ((range n).map .call) .init = some t ∧
      t.helperFuncs = range n ∧ t.subBuf.length ≤ 3 * n := by
  induction n with
  | zero => exact ⟨_, rfl, rfl, Nat.zero_le _⟩
  | succ n ih =>
    obtain ⟨t, ht, hfuncs, hbuf⟩ := ih (by omega)
    have htypes : t.helperTypes.length = n * 8 := by
      rw [(emitAll_spec .init ht).1.types, hfuncs, length_flatMap]
      simp [HelperKind.genType, genFuncTypeQemuLd, map_const']
    have hnew : getWasmHelperIdx t n = none := by
      rw [getWasmHelperIdx, hfuncs, findIdx?_eq_none_iff]
      intro i hi
      have := mem_range.mp hi
      simp
      omega
    have hcall := length_opCall_le h
    unfold numHelperFuncsMax at h
    have hidx : helperIdx (fun _ => .qemuLd) n t = some (n,
        ⟨t.helperFuncs ++ [n], t.helperTypes ++ genFuncTypeQemuLd, t.subBuf⟩) := by
      have hroom : ¬ numHelperFuncsMax ≤ t.helperFuncs.length := by
        rw [hfuncs, length_range, numHelperFuncsMax]
        omega
      have htypesRoom : ¬ helperAddedTypesSectionMax <
          t.helperTypes.length + helperTypeMaxBytes := by
        rw [htypes, helperAddedTypesSectionMax, numHelperFuncsMax, helperTypeMaxBytes]
        omega
      have hlen : t.helperFuncs.length = n := by rw [hfuncs, length_range]
      simp only [helperIdx, hnew, if_neg hroom, if_neg htypesRoom]
      rw [hlen]
      rfl
    have hout : subOut (opCall n)
        ⟨t.helperFuncs ++ [n], t.helperTypes ++ genFuncTypeQemuLd, t.subBuf⟩ =
        some ⟨t.helperFuncs ++ [n], t.helperTypes ++ genFuncTypeQemuLd, t.subBuf ++ opCall n⟩ :=
      subOut_of_le (by simp only [subBufMax]; omega)
    refine ⟨⟨t.helperFuncs ++ [n], t.helperTypes ++ genFuncTypeQemuLd, t.subBuf ++ opCall n⟩,
      ?_, ?_, ?_⟩
    · rw [range_succ, map_append, emitAll_append, ht]
      change (emitAll _ [Out.call n] t) = _
      simp only [emitAll, emit, hidx, bind_eq_bind, bind_some, hout]
    · rw [hfuncs, range_succ]
    · rw [length_append]
      omega

/-- A function that calls 128 helpers: within the tables, but its module is malformed. -/
theorem manyHelpers_malformed :
    ∃ t, genTables (fun _ => .qemuLd) ((range 128).map .call) = some t ∧
      ¬ WellAssembled (fun _ => .qemuLd) ⟨true, false, true, false⟩ 0x1000#32
        ((range 128).map .call) t := by
  obtain ⟨t₀, h₀, hfuncs, hbuf⟩ := emitAll_range (n := 128) (by decide)
  have hout : subOut funcEnd t₀ = some { t₀ with subBuf := t₀.subBuf ++ funcEnd } := by
    refine subOut_of_le ?_
    simp only [funcEnd, subBufMax, length_cons, length_nil]
    omega
  have h : genTables (fun _ => .qemuLd) ((range 128).map .call) =
      some { t₀ with subBuf := t₀.subBuf ++ funcEnd } := by
    rw [genTables, h₀]
    exact hout
  have hlen : t₀.helperFuncs.length = 128 := by rw [hfuncs, length_range]
  refine ⟨_, h, ?_⟩
  rintro ⟨⟨m, hm, hdescribes⟩, -⟩
  have hlt : 127 < t₀.helperFuncs.length := by omega
  refine imports_ne_of_le (genTables_spec h).1 (by simp only; omega) hm ?_
  exact (hdescribes.helper 127 _ (getElem?_eq_getElem hlt)).1

end Bootbox.Tcg.WasmModule
