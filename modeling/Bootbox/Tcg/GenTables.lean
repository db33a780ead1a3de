import Bootbox.Tcg.ModuleDecode

/-!
The tables that generating a block fills, with their sizes. Each write is behind a test of
its own, which abandons the block (`tcg_raise_tb_overflow`); a write that left its table
would be a `Stop` of another kind. No stream of ops leads there, and a block that is not
abandoned has the tables it would have if they were unbounded.
-/

namespace Bootbox.Tcg.WasmModule

open Lib WasmBinary List

/-- `LABEL_MAX`. -/
def labelMax : ℕ := 200

/-- The size of `current_label`. -/
def currentLabelMax : ℕ := 100

inductive Stop
  | overflow
  | outOfBounds

/-- The tables of a block, each up to where it is filled. A placeholder is a label and an
offset in `sub_buf`. -/
structure GenTables extends Tables where
  labelToBlock : ℕ → Option ℕ
  placeholders : List (ℕ × ℕ)
  currentLabel : List ℕ
  blockIdx : ℕ

/-- What `tcg_gen_code` starts from, whatever an abandoned block has left. -/
def GenTables.init : GenTables := ⟨.init, fun _ => none, [], [], 0⟩

/-- What an op does to the tables: bytes and words of code, a helper that is needed, a
block, a label (`tcg_out_label_cb`), a branch to one. -/
inductive TableOp
  | out8 (v : Byte)
  | out32 (v : BitVec 32)
  | helper (func : ℕ)
  | block
  | label (id : ℕ)
  | branch (id : ℕ)

namespace GenTables

variable (kinds : ℕ → HelperKind)

def push (t : GenTables) (bs : List Byte) : GenTables := { t with subBuf := t.subBuf ++ bs }

def addHelper (t : GenTables) (func : ℕ) : GenTables :=
  { t with helperFuncs := t.helperFuncs ++ [func] }

def addType (t : GenTables) (func : ℕ) : GenTables :=
  { t with helperTypes := t.helperTypes ++ (kinds func).genType }

def addCurrent (t : GenTables) (id : ℕ) : GenTables :=
  { t with currentLabel := t.currentLabel ++ [id] }

def addContext (t : GenTables) (label : ℕ) : GenTables :=
  { t with
    blockIdx := t.blockIdx + 1
    labelToBlock := Function.update t.labelToBlock label (some (t.blockIdx + 1)) }

def addPlaceholder (t : GenTables) (label : ℕ) : GenTables :=
  { t with placeholders := t.placeholders ++ [(label, t.subBuf.length)] }

/-- The number filled in for a label; one that was never set has `-1`. -/
def blockOf (t : GenTables) (label : ℕ) : ℕ := (t.labelToBlock label).getD (2 ^ 32 - 1)

/-- `*ph = 0x80` and `fill_uint32_leb128`. -/
def fillBlock (t : GenTables) (ph : ℕ × ℕ) : GenTables :=
  { t with subBuf := fillAt ph.2 (t.blockOf ph.1) (t.subBuf.set ph.2 0x80#8) }

/-- A test, and behind it a write of `size` cells to a table of `capacity` cells. -/
def checked (passes : Prop) [Decidable passes] (pos size capacity : ℕ) (t : GenTables) :
    Except Stop GenTables :=
  if ¬ passes then .error .overflow
  else if pos + size ≤ capacity then .ok t
  else .error .outOfBounds

def subOut8 (t : GenTables) (v : Byte) : Except Stop GenTables :=
  checked (t.subBuf.length + 1 ≤ subBufMax) t.subBuf.length 1 subBufMax (t.push [v])

def bytes32 (v : BitVec 32) : List Byte := (range 4).map fun i => (v >>> (8 * i)).setWidth 8

def subOut32 (t : GenTables) (v : BitVec 32) : Except Stop GenTables :=
  checked (t.subBuf.length + 4 ≤ subBufMax) t.subBuf.length 4 subBufMax (t.push (bytes32 v))

def registerHelper (t : GenTables) (func : ℕ) : Except Stop GenTables :=
  checked (t.helperFuncs.length < numHelperFuncsMax) t.helperFuncs.length 1 numHelperFuncsMax
    (t.addHelper func)

def genType (t : GenTables) (func : ℕ) : Except Stop GenTables :=
  checked (t.helperTypes.length + helperTypeMaxBytes ≤ helperAddedTypesSectionMax)
    t.helperTypes.length (kinds func).genType.length helperAddedTypesSectionMax
    (t.addType kinds func)

def labelCb (t : GenTables) (id : ℕ) : Except Stop GenTables := do
  let t ← checked (t.currentLabel.length < currentLabelMax) t.currentLabel.length 1
    currentLabelMax (t.addCurrent id)
  checked (id + 1 < labelMax) (id + 1) 1 labelMax (t.addContext (id + 1))

/-- The part of `tcg_wasm_out_op_br_to_label` that reserves the number of the block. -/
def brToLabel (t : GenTables) (id : ℕ) : Except Stop GenTables := do
  let t ← checked (t.placeholders.length < labelMax ∧ id + 1 < labelMax) t.placeholders.length 1
    labelMax (t.addPlaceholder (id + 1))
  (Leb128.blank 4).foldlM subOut8 t

def run (t : GenTables) : TableOp → Except Stop GenTables
  | .out8 v => t.subOut8 v
  | .out32 v => t.subOut32 v
  | .helper func =>
    match getWasmHelperIdx t.toTables func with
    | some _ => .ok t
    | none => do (← t.registerHelper func).genType kinds func
  | .block => .ok { t with blockIdx := t.blockIdx + 1 }
  | .label id => t.labelCb id
  | .branch id => t.brToLabel id

/-- The loop that fills the blocks in: reads of `label_to_block`, and writes to `sub_buf`
that no test precedes. -/
def fillChecked (t : GenTables) (ph : ℕ × ℕ) : Except Stop GenTables :=
  if labelMax ≤ ph.1 then .error .outOfBounds
  else checked True ph.2 (writeUint32Leb128 (t.blockOf ph.1)).length t.subBuf.length
    (t.fillBlock ph)

def generate (ops : List TableOp) : Except Stop GenTables := do
  let t ← ops.foldlM (run kinds) init
  let t ← funcEnd.foldlM subOut8 t
  t.placeholders.foldlM fillChecked t

def effect (t : GenTables) : TableOp → GenTables
  | .out8 v => t.push [v]
  | .out32 v => t.push (bytes32 v)
  | .helper func =>
    match getWasmHelperIdx t.toTables func with
    | some _ => t
    | none => (t.addHelper func).addType kinds func
  | .block => { t with blockIdx := t.blockIdx + 1 }
  | .label id => (t.addCurrent id).addContext (id + 1)
  | .branch id => (t.addPlaceholder (id + 1)).push (Leb128.blank 4)

def unbounded (ops : List TableOp) : GenTables :=
  let t := (ops.foldl (effect kinds) init).push funcEnd
  t.placeholders.foldl fillBlock t

structure Bounded (t : GenTables) : Prop where
  subBuf : t.subBuf.length ≤ subBufMax
  helperFuncs : t.helperFuncs.length ≤ numHelperFuncsMax
  helperTypes : t.helperTypes.length ≤ helperAddedTypesSectionMax
  currentLabel : t.currentLabel.length ≤ currentLabelMax
  labels : ∀ label, (t.labelToBlock label).isSome → label < labelMax
  placeholders : t.placeholders.length ≤ labelMax
  placed : ∀ ph ∈ t.placeholders, ph.1 < labelMax

def Keeps (x : Except Stop GenTables) (t : GenTables) : Prop :=
  x = .ok t ∧ t.Bounded ∨ x = .error .overflow

variable {kinds} {x : Except Stop GenTables} {t t' : GenTables} {α : Type}

theorem keeps_checked {passes : Prop} [Decidable passes] {pos size capacity : ℕ}
    (h : passes → pos + size ≤ capacity ∧ t.Bounded) :
    Keeps (checked passes pos size capacity t) t := by
  rw [checked]
  by_cases hpasses : passes
  · obtain ⟨hfits, hbounded⟩ := h hpasses
    rw [if_neg (not_not.mpr hpasses), if_pos hfits]
    exact .inl ⟨rfl, hbounded⟩
  · rw [if_pos hpasses]
    exact .inr rfl

theorem Keeps.bind {f : GenTables → Except Stop GenTables} (h : Keeps x t)
    (hf : t.Bounded → Keeps (f t) t') : Keeps (x >>= f) t' := by
  rcases h with ⟨rfl, hbounded⟩ | rfl
  · exact hf hbounded
  · exact .inr rfl

/-- If each step keeps to the unbounded one, the whole loop does. -/
theorem keeps_foldlM {f : GenTables → α → Except Stop GenTables} {g : GenTables → α → GenTables}
    (hstep : ∀ t a, t.Bounded → Keeps (f t a) (g t a)) (l : List α) (ht : t.Bounded) :
    Keeps (l.foldlM f t) (l.foldl g t) := by
  induction l generalizing t with
  | nil => exact .inl ⟨rfl, ht⟩
  | cons a l ih =>
    rw [foldlM_cons]
    exact (hstep t a ht).bind ih

theorem keeps_subOut8 (t : GenTables) (v : Byte) (ht : t.Bounded) :
    Keeps (t.subOut8 v) (t.push [v]) :=
  keeps_checked fun h => ⟨h, { ht with subBuf := by simpa [push] using h }⟩

theorem keeps_bytes (bs : List Byte) (ht : t.Bounded) :
    Keeps (bs.foldlM subOut8 t) (t.push bs) := by
  have hpush : bs.foldl (fun t v => t.push [v]) t = t.push bs := by
    clear ht
    induction bs generalizing t with
    | nil => simp [push]
    | cons b bs ih => rw [foldl_cons, ih]; simp [push]
  exact hpush ▸ keeps_foldlM keeps_subOut8 bs ht

theorem keeps_helper (func : ℕ) (ht : t.Bounded) :
    Keeps (t.registerHelper func >>= fun t => t.genType kinds func)
      ((t.addHelper func).addType kinds func) := by
  have hadd : Keeps (t.registerHelper func) (t.addHelper func) :=
    keeps_checked fun h => ⟨h, { ht with helperFuncs := (length_append ..).trans_le h }⟩
  refine hadd.bind fun hadded => keeps_checked fun h => ?_
  have hlen := length_genType_le (kinds func)
  exact ⟨by omega, { hadded with helperTypes := by simp only [addType, length_append]; omega }⟩

theorem keeps_labelCb (id : ℕ) (ht : t.Bounded) :
    Keeps (t.labelCb id) ((t.addCurrent id).addContext (id + 1)) := by
  have hadd : Keeps (checked (t.currentLabel.length < currentLabelMax) t.currentLabel.length 1
      currentLabelMax (t.addCurrent id)) (t.addCurrent id) :=
    keeps_checked fun h => ⟨h, { ht with currentLabel := (length_append ..).trans_le h }⟩
  refine hadd.bind fun hadded => keeps_checked fun h => ⟨h, { hadded with labels := ?_ }⟩
  intro label hlabel
  by_cases heq : label = id + 1
  · exact heq ▸ h
  · exact ht.labels label (by simpa [addContext, addCurrent, heq] using hlabel)

theorem keeps_brToLabel (id : ℕ) (ht : t.Bounded) :
    Keeps (t.brToLabel id) ((t.addPlaceholder (id + 1)).push (Leb128.blank 4)) := by
  have hadd : Keeps (checked (t.placeholders.length < labelMax ∧ id + 1 < labelMax)
      t.placeholders.length 1 labelMax (t.addPlaceholder (id + 1)))
        (t.addPlaceholder (id + 1)) := by
    refine keeps_checked fun h => ⟨h.1, { ht with placeholders := ?_, placed := ?_ }⟩
    · exact (length_append ..).trans_le h.1
    · intro ph hph
      rcases mem_append.mp hph with hph | hph
      · exact ht.placed ph hph
      · rw [mem_singleton.mp hph]
        exact h.2
  exact hadd.bind (keeps_bytes _)

theorem keeps_run (t : GenTables) (op : TableOp) (ht : t.Bounded) :
    Keeps (t.run kinds op) (t.effect kinds op) := by
  cases op with
  | out8 v => exact keeps_subOut8 t v ht
  | out32 v =>
    exact keeps_checked fun h => ⟨h, { ht with subBuf := by simpa [push, bytes32] using h }⟩
  | helper func =>
    rw [run, effect]
    cases getWasmHelperIdx t.toTables func with
    | some i => exact .inl ⟨rfl, ht⟩
    | none => exact keeps_helper func ht
  | block => exact .inl ⟨rfl, { ht with }⟩
  | label id => exact keeps_labelCb id ht
  | branch id => exact keeps_brToLabel id ht

/-! ### Filling the blocks in -/

/-- Each placeholder has its bytes. -/
def Reserved (t : GenTables) : Prop := ∀ ph ∈ t.placeholders, ph.2 + 5 ≤ t.subBuf.length

theorem reserved_effect (ht : t.Reserved) (op : TableOp) : (t.effect kinds op).Reserved := by
  have hpush : ∀ bs, (t.push bs).Reserved := fun bs ph hph => by
    have := ht ph hph
    simp only [push, length_append]
    omega
  cases op with
  | out8 v => exact hpush [v]
  | out32 v => exact hpush _
  | helper func =>
    rw [effect]
    split <;> exact ht
  | branch id =>
    intro ph hph
    rcases mem_append.mp hph with hph | hph
    · exact hpush _ ph hph
    · rw [mem_singleton.mp hph]
      simp [effect, push, addPlaceholder, Leb128.blank]
  | _ => exact ht

theorem length_lebGroups_le (k v : ℕ) : (lebGroups k v).length ≤ k := by
  induction k generalizing v with
  | zero => rfl
  | succ k ih =>
    rw [lebGroups]
    split
    · simp
    · simpa using ih _

theorem length_subBuf_fillBlock (t : GenTables) {ph : ℕ × ℕ} (h : ph.2 ≤ t.subBuf.length) :
    (t.fillBlock ph).subBuf.length = t.subBuf.length := by
  simp only [fillBlock, fillAt, length_append, length_take, length_fill, length_drop, length_set]
  omega

theorem keeps_fill (l : List (ℕ × ℕ)) (ht : t.Bounded)
    (hl : ∀ ph ∈ l, ph.1 < labelMax ∧ ph.2 + 5 ≤ t.subBuf.length) :
    Keeps (l.foldlM fillChecked t) (l.foldl fillBlock t) := by
  induction l generalizing t with
  | nil => exact .inl ⟨rfl, ht⟩
  | cons ph l ih =>
    rw [forall_mem_cons] at hl
    have hlen := length_subBuf_fillBlock t (show ph.2 ≤ _ by omega)
    have hfill : Keeps (t.fillChecked ph) (t.fillBlock ph) := by
      rw [fillChecked, if_neg (by omega)]
      have := length_lebGroups_le 5 (t.blockOf ph.1)
      refine keeps_checked fun _ => ⟨?_, { ht with subBuf := hlen ▸ ht.subBuf }⟩
      rw [writeUint32Leb128]
      omega
    rw [foldlM_cons]
    exact hfill.bind fun hfilled => ih hfilled fun ph' hph' => hlen ▸ hl.2 ph' hph'

end GenTables

open GenTables

/-- No stream of ops leads to a write outside a table: the block is abandoned before, or its
tables are what they would be if they had no bounds, and within them. -/
theorem generate_in_bounds (kinds : ℕ → HelperKind) (ops : List TableOp) :
    generate kinds ops ≠ .error .outOfBounds ∧
      ∀ t, generate kinds ops = .ok t → t = unbounded kinds ops ∧ t.Bounded := by
  have hinit : GenTables.init.Bounded := by
    constructor <;> simp [GenTables.init, Tables.init]
  have hreserved : (ops.foldl (effect kinds) GenTables.init).Reserved := by
    refine foldlRecOn ops _ (by simp [Reserved, GenTables.init]) fun t ht op _ => ?_
    exact reserved_effect ht op
  have hkeeps : Keeps (generate kinds ops) (unbounded kinds ops) := by
    refine (keeps_foldlM keeps_run ops hinit).bind fun hops => ?_
    refine (keeps_bytes funcEnd hops).bind fun hend => keeps_fill _ hend fun ph hph => ?_
    have hroom := hreserved ph hph
    refine ⟨hend.placed ph hph, ?_⟩
    simp only [push, length_append]
    omega
  rcases hkeeps with ⟨heq, hbounded⟩ | heq
  · rw [heq]
    refine ⟨by simp, ?_⟩
    rintro t ⟨⟩
    exact ⟨rfl, hbounded⟩
  · rw [heq]
    simp

end Bootbox.Tcg.WasmModule
