import Bootbox.Tcg.BlockMachine

/-!
What the generator has emitted when it is done: both codes as functions of the op
list, with every branch resolved.

The generator appends and patches; `codeFrom` and `wordsFrom` are the same codes
written down from the ops, given the bytes of each label's block number and the
distance of each branch. A label's number is that of the block it opens, and the
number read back from the filled bytes is that number: block numbers stay small
since the tables and the size of the bytecode are limited.
-/

namespace Bootbox.Tcg.Blocks

open Lib FlatControl Patch List Option

variable {α : Type} {regLocals : Bool}

variable {p l : ℕ}

/-! Both codes from the ops. -/

def GenCtx.afterAll (regLocals : Bool) (g : GenCtx) (ops : List (Op α)) : GenCtx :=
  ops.foldl (GenCtx.after regLocals) g

/-- What the generator remembers before the `p`-th op. -/
def ctxAt (regLocals : Bool) (ops : List (Op α)) (p : ℕ) : GenCtx :=
  GenCtx.init.afterAll regLocals (ops.take p)

def codeFrom (regLocals : Bool) (ph : ℕ → List (BitVec 8)) : GenCtx → List (Op α) → List (WTok α)
  | _, [] => []
  | g, op :: ops => wasmOut regLocals ph g op ++ codeFrom regLocals ph (g.after regLocals op) ops

def tciLen (op : Op α) : ℕ := (tciOut (fun _ _ => 0#20) op).length

theorem length_tciOut (disp : ℕ → ℕ → BitVec 20) (op : Op α) :
    (tciOut disp op).length = tciLen op := by
  cases op <;> rfl

def wordsFrom (disp : ℕ → ℕ → BitVec 20) : ℕ → List (Op α) → List (TciWord α)
  | _, [] => []
  | pos, op :: ops => tciOut (fun i => disp (pos + i)) op ++ wordsFrom disp (pos + tciLen op) ops

/-- Where the bytecode of the `p`-th op starts. -/
def wordPos (ops : List (Op α)) (p : ℕ) : ℕ := ((ops.take p).map tciLen).sum

theorem length_wordsFrom (disp : ℕ → ℕ → BitVec 20) (pos : ℕ) (ops : List (Op α)) :
    (wordsFrom disp pos ops).length = (ops.map tciLen).sum := by
  induction ops generalizing pos with
  | nil => rfl
  | cons op ops ih => simp [wordsFrom, length_tciOut, ih]

theorem wordsFrom_append (disp : ℕ → ℕ → BitVec 20) (pos : ℕ) (ops ops' : List (Op α)) :
    wordsFrom disp pos (ops ++ ops')
      = wordsFrom disp pos ops ++ wordsFrom disp (pos + (ops.map tciLen).sum) ops' := by
  induction ops generalizing pos with
  | nil => simp [wordsFrom]
  | cons op ops ih => simp [wordsFrom, ih, Nat.add_assoc]

variable {ops : List (Op α)} {op : Op α}

theorem ctxAt_succ (h : ops[p]? = some op) :
    ctxAt regLocals ops (p + 1) = (ctxAt regLocals ops p).after regLocals op := by
  simp [ctxAt, GenCtx.afterAll, take_add_one, h]

theorem wordPos_succ (h : ops[p]? = some op) : wordPos ops (p + 1) = wordPos ops p + tciLen op := by
  simp [wordPos, take_add_one, h]

theorem drop_eq_cons (h : ops[p]? = some op) : ops.drop p = op :: ops.drop (p + 1) := by
  obtain ⟨hlt, rfl⟩ := List.getElem?_eq_some_iff.mp h
  exact List.drop_eq_getElem_cons hlt

/-! The generator's state. -/

theorem length_words_emit (out : Out α) (op : Op α) :
    (out.emit regLocals op).words.length = out.words.length + tciLen op := by
  simp [Out.emit, length_tciOut]

variable {out out' : Out α}

/-- The loop of the generator, as long as nothing overflows. -/
theorem foldlM_genOp (h : ops.foldlM (genOp regLocals) out = some out') :
    out' = ops.foldl (Out.emit regLocals) out := by
  induction ops generalizing out with
  | nil => simpa using h.symm
  | cons op ops ih =>
    rw [foldlM_cons] at h
    obtain ⟨out₁, h₁, h₂⟩ := bind_eq_some_iff.mp h
    have heq : out₁ = out.emit regLocals op := by
      unfold genOp at h₁
      split at h₁
      case isTrue => cases h₁
      case isFalse =>
        split at h₁
        case isTrue => cases h₁
        case isFalse => exact (some.inj h₁).symm
    rw [foldl_cons, ← heq]
    exact ih h₂

/-- What keeps the block numbers small: a block is opened by a label, and there are
few, or by an op with bytecode, and there is little. -/
structure Out.Small (out : Out α) : Prop where
  blockIdx_le : out.ctx.blockIdx ≤ out.ctx.currentLabel.length + out.words.length
  labels_le : out.ctx.currentLabel.length ≤ currentLabelMax
  words_le : 4 * out.words.length ≤ uint16Max

theorem Out.Small.genOp (hs : out.Small) (h : genOp regLocals out op = some out') : out'.Small := by
  unfold Blocks.genOp at h
  split at h
  case isTrue => cases h
  case isFalse hover =>
    split at h
    case isTrue => cases h
    case isFalse hsize =>
      cases h
      have hblock := hs.blockIdx_le
      have hlabels := hs.labels_le
      refine ⟨?_, ?_, by omega⟩
      · rw [length_words_emit]
        cases op with
        | setLabel l => simp [Out.emit, GenCtx.after, Op.opensBlock, Op.labels]; omega
        | call a o nse =>
          have hlen : tciLen (.call a o nse) = 1 := rfl
          have hle := Bool.toNat_le ((Op.call a o nse).opensBlock regLocals)
          simp only [Out.emit, GenCtx.after, Op.labels, append_nil]
          omega
        | qemuLdst a o =>
          have hlen : tciLen (.qemuLdst a o) = 1 := rfl
          simp [Out.emit, GenCtx.after, Op.opensBlock, Op.labels]
          omega
        | _ => simp [Out.emit, GenCtx.after, Op.opensBlock, Op.labels]; omega
      · cases op with
        | setLabel l =>
          have hlt : ¬ (currentLabelMax ≤ out.ctx.currentLabel.length ∨ labelMax ≤ l + 1) := by
            simpa [tableOverflow] using hover
          simp [Out.emit, GenCtx.after, Op.labels]
          omega
        | _ => simpa [Out.emit, GenCtx.after, Op.labels] using hlabels

theorem Out.Small.foldlM (hs : out.Small)
    (h : ops.foldlM (Blocks.genOp regLocals) out = some out') : out'.Small := by
  induction ops generalizing out with
  | nil =>
    cases (show some out = some out' by simpa using h)
    exact hs
  | cons op ops ih =>
    rw [foldlM_cons] at h
    obtain ⟨out₁, h₁, h₂⟩ := bind_eq_some_iff.mp h
    exact ih (hs.genOp h₁) h₂

/-! The patches. -/

/-- The distance patched into the word at `pos`. -/
def dispOf (value : ℕ → ℕ) (pos l : ℕ) : BitVec 20 := BitVec.ofInt 20 (relocDiff (value l) pos)

def bytesOf (labelToBlock : ℕ → Option ℕ) (l : ℕ) : List (BitVec 8) :=
  Leb128.fill placeholder ((labelToBlock (l + 1)).getD 0)

theorem patch_tciOut (value : ℕ → ℕ) (pos : ℕ) (op : Op α) :
    patchAll (fun i => patchReloc value (pos + i)) (tciRelocs op) (tciOut (fun _ _ => 0#20) op)
      = tciOut (fun i => dispOf value (pos + i)) op := by
  cases op <;> rfl

theorem fill_wasmOut (labelToBlock : ℕ → Option ℕ) (g : GenCtx) (op : Op α) :
    patchAll (fun _ => fillPlaceholder labelToBlock) (wasmPlaceholders op)
        (wasmOut regLocals (fun _ => placeholder) g op)
      = wasmOut regLocals (bytesOf labelToBlock) g op := by
  cases op <;> rfl

theorem tciRelocs_lt {p : ℕ × ℕ} (h : p ∈ tciRelocs op) : p.1 < tciLen op := by
  cases op <;> simp_all [tciRelocs, tciLen, tciOut]

theorem relocs_emit_lt (h : ∀ p ∈ out.relocs, p.1 < out.words.length) :
    ∀ p ∈ (out.emit regLocals op).relocs, p.1 < (out.emit regLocals op).words.length := by
  intro p hp
  rw [length_words_emit]
  rcases mem_append.mp hp with hp | hp
  · have := h p hp
    omega
  · obtain ⟨q, hq, rfl⟩ := mem_shift.mp hp
    have := tciRelocs_lt hq
    simp only
    omega

theorem placeholders_emit_lt (h : ∀ p ∈ out.placeholders, p.1 < out.code.length) :
    ∀ p ∈ (out.emit regLocals op).placeholders, p.1 < (out.emit regLocals op).code.length := by
  intro p hp
  simp only [Out.emit, length_append]
  rcases mem_append.mp hp with hp | hp
  · have := h p hp
    omega
  · obtain ⟨q, hq, rfl⟩ := mem_shift.mp hp
    have : q.1 < (wasmOut regLocals (fun _ => placeholder) out.ctx op).length := by
      cases op <;> simp_all [wasmPlaceholders, wasmOut, tcgWasmOutOpBrToLabel]
    simp only
    omega

theorem patch_foldl_emit (value : ℕ → ℕ) (out : Out α) (ops : List (Op α))
    (h : ∀ p ∈ out.relocs, p.1 < out.words.length) :
    patchAll (patchReloc value) (ops.foldl (Out.emit regLocals) out).relocs
        (ops.foldl (Out.emit regLocals) out).words
      = patchAll (patchReloc value) out.relocs out.words
        ++ wordsFrom (dispOf value) out.words.length ops := by
  induction ops generalizing out with
  | nil => simp [wordsFrom]
  | cons op ops ih =>
    rw [foldl_cons, ih _ (relocs_emit_lt h), length_words_emit]
    simp only [Out.emit, wordsFrom]
    rw [patchAll_append_shift h, patch_tciOut, append_assoc]

theorem fill_foldl_emit (regLocals : Bool) (labelToBlock : ℕ → Option ℕ) (out : Out α)
    (ops : List (Op α)) (h : ∀ p ∈ out.placeholders, p.1 < out.code.length) :
    patchAll (fun _ => fillPlaceholder labelToBlock)
        (ops.foldl (Out.emit regLocals) out).placeholders
        (ops.foldl (Out.emit regLocals) out).code
      = patchAll (fun _ => fillPlaceholder labelToBlock) out.placeholders out.code
        ++ codeFrom regLocals (bytesOf labelToBlock) out.ctx ops := by
  induction ops generalizing out with
  | nil => simp [codeFrom]
  | cons op ops ih =>
    rw [foldl_cons, ih _ (placeholders_emit_lt h)]
    simp only [Out.emit, codeFrom]
    rw [patchAll_append_shift h, fill_wasmOut, append_assoc]

theorem mem_relocs_foldl_emit (regLocals : Bool) (out : Out α) {pc : ℕ} {p : ℕ × ℕ}
    (hop : ops[pc]? = some op) (hp : p ∈ tciRelocs op) :
    (out.words.length + wordPos ops pc + p.1, p.2)
      ∈ (ops.foldl (Out.emit regLocals) out).relocs := by
  have hmono : ∀ (ops : List (Op α)) (out : Out α), out.relocs ⊆
      (ops.foldl (Out.emit regLocals) out).relocs := by
    intro ops
    induction ops with
    | nil => exact fun out => List.Subset.refl _
    | cons op ops ih =>
      exact fun out => List.Subset.trans (subset_append_left _ _)
        (ih (out.emit regLocals op))
  induction ops generalizing out pc with
  | nil => simp at hop
  | cons op' ops ih =>
    cases pc with
    | zero =>
      obtain rfl : op' = op := by simpa using hop
      refine hmono ops _ (mem_append_right _ (mem_shift.mpr ⟨p, hp, ?_⟩))
      simp [wordPos]
    | succ pc =>
      have := ih (out.emit regLocals op') (show ops[pc]? = some op by simpa using hop)
      rw [length_words_emit] at this
      have hpos : wordPos (op' :: ops) (pc + 1) = tciLen op' + wordPos ops pc := by
        simp [wordPos]
      rw [hpos, ← Nat.add_assoc]
      exact this

/-! The labels. -/

theorem ctx_foldl_emit (out : Out α) (ops : List (Op α)) :
    (ops.foldl (Out.emit regLocals) out).ctx = out.ctx.afterAll regLocals ops := by
  induction ops generalizing out with
  | nil => rfl
  | cons op ops ih => exact ih (out.emit regLocals op)

theorem length_words_foldl_emit (out : Out α) (ops : List (Op α)) :
    (ops.foldl (Out.emit regLocals) out).words.length
      = out.words.length + (ops.map tciLen).sum := by
  induction ops generalizing out with
  | nil => rfl
  | cons op ops ih =>
    rw [foldl_cons, ih, length_words_emit, map_cons, sum_cons, Nat.add_assoc]

theorem label_foldl_emit (regLocals : Bool) (out : Out α) (h : l ∉ ops.flatMap Op.labels) :
    (ops.foldl (Out.emit regLocals) out).value l = out.value l ∧
      (ops.foldl (Out.emit regLocals) out).labelToBlock (l + 1) = out.labelToBlock (l + 1) := by
  induction ops generalizing out with
  | nil => exact ⟨rfl, rfl⟩
  | cons op ops ih =>
    rw [flatMap_cons, mem_append, not_or] at h
    obtain ⟨hvalue, hblock⟩ := ih (out.emit regLocals op) h.2
    rw [foldl_cons, hvalue, hblock]
    simp [Out.emit, h.1]

theorem mem_labels (h : l ∈ op.labels) : op = .setLabel l := by
  cases op <;> simp_all [Op.labels]

/-- A block's ops after register allocation: no label is set twice, and every label
that is branched to is set. -/
structure Prog (α : Type) where
  ops : List (Op α)
  labels_nodup : (ops.flatMap Op.labels).Nodup
  targets_set : ∀ op ∈ ops, ∀ p ∈ tciRelocs op, p.2 ∈ ops.flatMap Op.labels

variable {P : Prog α}

namespace Prog

theorem labelAt_spec (h : labelAt P.ops l = some p) :
    P.ops[p]? = some (.setLabel l) ∧ l ∉ (P.ops.drop (p + 1)).flatMap Op.labels := by
  obtain ⟨hlt, hmem, -⟩ := findIdx?_eq_some_iff_getElem.mp h
  have heq : P.ops[p] = .setLabel l := mem_labels (by simpa using hmem)
  have hop : P.ops[p]? = some (.setLabel l) := by rw [getElem?_eq_getElem hlt, heq]
  refine ⟨hop, fun hl => ?_⟩
  have hnodup := P.labels_nodup
  rw [← take_append_drop p P.ops, drop_eq_cons hop, flatMap_append, flatMap_cons] at hnodup
  have hright := (nodup_append.mp hnodup).2.1
  exact (nodup_append.mp hright).2.2 l (by simp [Op.labels]) l hl rfl

theorem exists_labelAt (P : Prog α) {pc i : ℕ} (hop : P.ops[pc]? = some op)
    (hp : (i, l) ∈ tciRelocs op) :
    ∃ p, labelAt P.ops l = some p := by
  have hmem := P.targets_set op (mem_of_getElem? hop) (i, l) hp
  obtain ⟨op', hop', hl⟩ := mem_flatMap.mp hmem
  refine isSome_iff_exists.mp ?_
  rw [labelAt, findIdx?_isSome]
  exact any_eq_true.mpr ⟨op', hop', by simpa using hl⟩

theorem label_emitted (h : labelAt P.ops l = some p) :
    (P.ops.foldl (Out.emit regLocals) .init).value l = some (wordPos P.ops p) ∧
      (P.ops.foldl (Out.emit regLocals) .init).labelToBlock (l + 1)
        = some ((ctxAt regLocals P.ops p).blockIdx + 1) := by
  obtain ⟨hop, hnot⟩ := labelAt_spec h
  rw [← take_append_drop p P.ops, drop_eq_cons hop, foldl_append, foldl_cons]
  obtain ⟨hvalue, hblock⟩ := label_foldl_emit regLocals
    (((P.ops.take p).foldl (Out.emit regLocals) .init).emit regLocals (.setLabel l)) hnot
  rw [hvalue, hblock, ← drop_eq_cons hop, take_append_drop]
  simp [Out.emit, Op.labels, length_words_foldl_emit, ctx_foldl_emit, Out.init, wordPos, ctxAt]

end Prog

theorem tciTarget_dispOf {value : ℕ → ℕ} {pos : ℕ} (h : relocFits value (pos, l) = true) :
    tciTarget pos (dispOf value pos l) = value l := by
  have hfits : (dispOf value pos l).toInt = relocDiff (value l) pos := of_decide_eq_true h
  rw [tciTarget, hfits, relocDiff]
  omega

theorem blockIdx_afterAll (regLocals : Bool) (g : GenCtx) (ops : List (Op α)) :
    g.blockIdx ≤ (g.afterAll regLocals ops).blockIdx := by
  induction ops generalizing g with
  | nil => exact Nat.le_refl _
  | cons op ops ih => exact Nat.le_trans (Nat.le_add_right _ _) (ih (g.after regLocals op))

/-- The codes of a block, with the bytes of its labels and the distances of its
branches. -/
structure Layout (regLocals : Bool) (ops : List (Op α)) (tb : TbCode α)
    (ph : ℕ → List (BitVec 8)) (disp : ℕ → ℕ → BitVec 20) : Prop where
  words_eq : tb.words = wordsFrom disp 0 ops
  body_eq : tb.body = .loop :: .ifT .bpEqz ::
    (codeFrom regLocals ph GenCtx.init ops ++ funcTail)
  blockOf_label : ∀ {l p}, labelAt ops l = some p →
    blockOf (ph l) = (ctxAt regLocals ops p).blockIdx + 1
  target_label : ∀ {pc op i l p}, ops[pc]? = some op → (i, l) ∈ tciRelocs op →
    labelAt ops l = some p →
      tciTarget (wordPos ops pc + i) (disp (wordPos ops pc + i) l) = wordPos ops p

/-- What the generator returns. -/
theorem Prog.layout {tb : TbCode α} (h : tcgGenCode regLocals P.ops = some tb) :
    ∃ ph disp, Layout regLocals P.ops tb ph disp := by
  obtain ⟨out, hout, htb⟩ := bind_eq_some_iff.mp h
  have hinit : (Out.init : Out α).Small :=
    ⟨by simp [Out.init, GenCtx.init], by simp [Out.init, GenCtx.init], by simp [Out.init]⟩
  have hsmall := hinit.foldlM hout
  obtain rfl := foldlM_genOp hout
  set out := P.ops.foldl (Out.emit regLocals) .init with hdef
  simp only at htb
  split at htb
  case isFalse => cases htb
  case isTrue hfits =>
    cases htb
    refine ⟨bytesOf out.labelToBlock, dispOf fun l => (out.value l).getD 0, ?_, ?_, ?_, ?_⟩
    · exact patch_foldl_emit _ Out.init P.ops (by simp [Out.init])
    · have hfill := fill_foldl_emit regLocals out.labelToBlock Out.init P.ops
        (by simp [Out.init])
      rw [← hdef] at hfill
      rw [hfill]
      rfl
    · intro l p hl
      have hle : (ctxAt regLocals P.ops p).blockIdx ≤ out.ctx.blockIdx := by
        rw [hdef, ctx_foldl_emit, ctxAt, ← take_append_drop p P.ops,
          GenCtx.afterAll, GenCtx.afterAll, foldl_append, take_append_drop]
        exact blockIdx_afterAll regLocals _ _
      have h₁ := hsmall.blockIdx_le
      have h₂ := hsmall.labels_le
      have h₃ := hsmall.words_le
      simp only [currentLabelMax, uint16Max] at h₂ h₃
      rw [blockOf, bytesOf, (Prog.label_emitted hl).2, getD_some, placeholder,
        (WasmBinary.reads_signed_fill (by omega)).run_self]
      simp only [elim_some]
      omega
    · intro pc op i l p hop hmem hl
      have hreloc := mem_relocs_foldl_emit regLocals Out.init hop hmem
      rw [← hdef] at hreloc
      have hfit := all_eq_true.mp hfits _ hreloc
      simp only [Out.init, length_nil, Nat.zero_add] at hfit
      rw [tciTarget_dispOf hfit, (Prog.label_emitted hl).1, getD_some]

end Bootbox.Tcg.Blocks
