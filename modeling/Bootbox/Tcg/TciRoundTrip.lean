import Bootbox.Tcg.GenWords

/-!
The interpreter reads back what the generator was given. `Decodes` says for each call what
the decoder of its format takes from the finished code: from the word alone, from the pool
the word leads to, or from the words that stand in for a long offset.
-/

namespace Bootbox.Tcg.GenCode

open Lib ByteMemory BitField Escape Tci List BitVec

variable {op : Opcode}

/-! ### Decoding with the pool -/

/-- `data64[n]` behind a pointer. -/
def data64 (m : Bytes) (ptr : Word) (n : ℕ) : BitVec 64 := word64 m (ptr.toNat + 8 * n)

/-- The two instructions that load a constant: the register and the value it gets. -/
def tciConstant (m : Bytes) (insn tbPtr : Word) : Option (Word × BitVec 64) :=
  if opcodeOf insn = opTciMovi.setWidth 32 then some (tciArgsRi insn)
  else if opcodeOf insn = opTciMovl.setWidth 32 then
    some ((tciArgsRl insn tbPtr).1, data64 m (tciArgsRl insn tbPtr).2 0)
  else none

def tciArgsLdst (m : Bytes) (insn tbPtr : Word) : Word × Word × Word × Word :=
  let l0 := tciArgsL insn tbPtr
  ((data64 m l0 0).setWidth 32, (data64 m l0 1).setWidth 32, (data64 m l0 2).setWidth 32, l0)

/-- What the lookup takes from the descriptor: alignment mask, offset of the TLB mask, page
bits, page mask and offset of the table. -/
def descriptor (m : Bytes) (ptr : Word) : Word × Word × BitVec 8 × BitVec 64 × Word :=
  ((data64 m ptr 3).setWidth 32, (data64 m ptr 4).setWidth 32, (data64 m ptr 5).setWidth 8,
    data64 m ptr 6, (data64 m ptr 7).setWidth 32)

/-- The position of the interpreter behind an instruction. -/
def next (a : ℕ) : Word := BitVec.ofNat 32 (a + 4)

/-- The instruction at an address has an opcode and, with a decoder, operands. -/
structure Decoded {α : Type} (m : Bytes) (a : ℕ) (op : Opcode) (decoder : Word → α)
    (operands : α) : Prop where
  opcode : opcodeOf (word32 m a) = op.setWidth 32
  args : decoder (word32 m a) = operands

/-- What is decoded from the code of a call; pointers out of the code are relative to its
live position. -/
def Decodes (T : Target) (tb : ℕ) (m : Bytes) (labels : Label → ℕ) (bias : Word) (a : ℕ) :
    Call → Prop
  | .opL op l0 => Decoded m a op (tciArgsBr · (next a)) (BitVec.ofNat 32 (labels l0))
  | .exitTb arg => Decoded m a opExitTb (tciArgsL · (next a + bias))
      ((arg.map fun i => BitVec.ofNat 32 (tb + i)).getD 0#32)
  | .gotoTb which => Decoded m a opGotoTb (tciArgsL · (next a + bias))
      (BitVec.ofNat 32 (tb + T.jmpTargetAddr which))
  | .opV op => Decoded m a op (fun _ => ()) ()
  | .opR op r0 => Decoded m a op tciArgsR (ofReg r0)
  | .opRl op r0 l1 => Decoded m a op (tciArgsRl · (next a))
      (ofReg r0, BitVec.ofNat 32 (labels l1))
  | .opRr op r0 r1 => Decoded m a op tciArgsRr (ofReg r0, ofReg r1)
  | .opRrr op r0 r1 r2 => Decoded m a op tciArgsRrr (ofReg r0, ofReg r1, ofReg r2)
  | .opRrbb op r0 r1 b2 b3 => Decoded m a op tciArgsRrbb (ofReg r0, ofReg r1, ofBit b2, ofBit b3)
  | .opRrrc op r0 r1 r2 c3 => Decoded m a op tciArgsRrrr
      (ofReg r0, ofReg r1, ofReg r2, ofCond c3)
  | .opRrrbb op r0 r1 r2 b3 b4 => Decoded m a op tciArgsRrrbb
      (ofReg r0, ofReg r1, ofReg r2, ofBit b3, ofBit b4)
  | .opRrrr op r0 r1 r2 r3 => Decoded m a op tciArgsRrrr
      (ofReg r0, ofReg r1, ofReg r2, ofReg r3)
  | .opRrrrr op r0 r1 r2 r3 r4 => Decoded m a op tciArgsRrrrr
      (ofReg r0, ofReg r1, ofReg r2, ofReg r3, ofReg r4)
  | .opRrrrrc op r0 r1 r2 r3 r4 c5 => Decoded m a op tciArgsRrrrrr
      (ofReg r0, ofReg r1, ofReg r2, ofReg r3, ofReg r4, ofCond c5)
  | .opRrrrrr op r0 r1 r2 r3 r4 r5 => Decoded m a op tciArgsRrrrrr
      (ofReg r0, ofReg r1, ofReg r2, ofReg r3, ofReg r4, ofReg r5)
  | .movi type ret arg =>
    tciConstant m (word32 m a) (next a) = some (ofReg ret, moviArg type arg)
  | .ldst op val base offset =>
    Fits 16 offset ∧ Decoded m a op tciArgsRrs (ofReg val, ofReg base, offset) ∨
    ¬ Fits 16 offset ∧
      tciConstant m (word32 m a) (next a) = some (ofReg regTmp, offset.signExtend 64) ∧
      Decoded m (a + 4) opAddI64 tciArgsRrr (ofReg regTmp, ofReg regTmp, ofReg base) ∧
      Decoded m (a + 8) op tciArgsRrs (ofReg val, ofReg regTmp, 0#32)
  | .call func cif ret => Decoded m a opCall
      (fun insn => ((tciArgsNl insn (next a)).1, data64 m (tciArgsNl insn (next a)).2 0,
        data64 m (tciArgsNl insn (next a)).2 1))
      (BitVec.ofNat 32 (retLength ret), func.setWidth 64, cif.setWidth 64)
  | .qemuLdst op x => ∃ l0, Decoded m a op (tciArgsLdst m · (next a))
      (ofReg x.r0, ofReg x.r1, x.oi, l0) ∧
      descriptor m l0 = (x.aMask, x.maskOfs, x.pageBits, x.pageMask.signExtend 64, x.tableOfs)
  | .label _ => True

def Call.displacements (T : Target) (tb : ℕ) (labels : Label → ℕ) (bias : Word) (a : ℕ) :
    Call → List Word
  | .opL _ l | .opRl _ _ l => [BitVec.ofNat 32 (labels l) - next a]
  | .exitTb (some i) => [BitVec.ofNat 32 (tb + i) - (next a + bias)]
  | .gotoTb which => [BitVec.ofNat 32 (tb + T.jmpTargetAddr which) - (next a + bias)]
  | _ => []

/-! ### Words -/

theorem word64_of_load {m : Bytes} {data : List (BitVec 64)} {addr n : ℕ} {d : BitVec 64}
    (hload : load m addr (8 * data.length) = poolBytes data) (hd : data[n]? = some d) :
    word64 m (addr + 8 * n) = d := by
  induction data generalizing addr n with
  | nil => simp at hd
  | cons x xs ih =>
    rw [length_cons, Nat.mul_succ, Nat.add_comm, load_add, poolBytes, flatMap_cons]
      at hload
    obtain ⟨hx, hxs⟩ := append_inj hload (by simp)
    cases n with
    | zero =>
      cases hd
      rw [Nat.mul_zero, Nat.add_zero, word64, hx, leNat_leBytes,
        Nat.mod_eq_of_lt (by exact d.isLt), ofNat_toNat, setWidth_eq]
    | succ n =>
      rw [← ih hxs hd]
      congr 1
      omega

theorem setWidth_signExtend (x : Word) : (x.signExtend 64).setWidth 32 = x := lo_signExtend x

theorem setWidth_setWidth_word (x : Word) : (x.setWidth 64).setWidth 32 = x := lo_setWidth x

theorem setWidth_setWidth_byte (x : BitVec 8) : (x.setWidth 64).setWidth 8 = x := by simp

theorem moviItems_one (type : IntType) (ret : Reg) (arg : BitVec 64) :
    ∃ i, moviItems type ret arg = [i] := by
  simp only [moviItems]
  split
  · exact ⟨_, rfl⟩
  · exact ⟨_, rfl⟩

theorem MoviFits.signExtend {arg : BitVec 64} (h : MoviFits arg) :
    Fits 20 (arg.setWidth 32) ∧ (arg.setWidth 32).signExtend 64 = arg := by
  have hlow : arg.setWidth 32 = sextract (arg.setWidth 32) 0 20 := by
    conv_lhs => rw [h]
    exact lo_signExtend _
  exact ⟨hlow.symm, by rw [hlow]; exact h.symm⟩

variable {c : Call}

section Decode

variable {T : Target} {tb : ℕ} {m : Bytes} {labels : Label → ℕ} {bias : Word}
variable {w : Word} {first last a : ℕ}

theorem decoded_of_done {α : Type} (decoder : Word → α) {operands : α}
    (h : (⟨w, .none⟩ : Item).Done m bias labels first last a) (hop : opcodeOf w = op.setWidth 32)
    (hargs : decoder w = operands) : Decoded m a op decoder operands := by
  have hword : word32 m a = w := h
  exact ⟨hword ▸ hop, hword ▸ hargs⟩

theorem opcode_of_deposit {d : Word} (h : word32 m a = deposit w 12 20 d)
    (hop : opcodeOf w = op.setWidth 32) : opcodeOf (word32 m a) = op.setWidth 32 := by
  rw [h, opcodeOf_deposit (by decide) (by decide), hop]

theorem pointer_of_done {p : ℕ} (h : (⟨w, .pointer p⟩ : Item).Done m bias labels first last a)
    (hne : BitVec.ofNat 32 p ≠ next a + bias) :
    tciArgsL (word32 m a) (next a + bias) = BitVec.ofNat 32 p := by
  obtain ⟨hword, hfits⟩ := h
  rw [hword]
  exact tciArgsL_deposit hfits hne

theorem relative_of_linked {target : ℕ} (h : Linked m a w target) :
    relative (word32 m a) (next a) = BitVec.ofNat 32 target := by
  rw [h.1]
  exact relative_deposit h.2

theorem field_of_linked {target : ℕ} (h : Linked m a w target) :
    extract (word32 m a) 8 4 = extract w 8 4 := by
  rw [h.1, extract_deposit_of_disjoint (by decide) (by decide) (by decide)]

theorem data64_of_load {data : List (BitVec 64)} {addr n : ℕ} {d : BitVec 64}
    (haddr : addr < 2 ^ 32) (hload : load m addr (8 * data.length) = poolBytes data)
    (hd : data[n]? = some d) : data64 m (BitVec.ofNat 32 addr) n = d := by
  rw [data64, BitVec.toNat_ofNat, Nat.mod_eq_of_lt haddr]
  exact word64_of_load hload hd

theorem constant_of_done (type : IntType) (ret : Reg) (arg : BitVec 64)
    (hlast : last ≤ 2 ^ 32)
    (h : ∀ i, (moviItems type ret arg)[0]? = some i → i.Done m bias labels first last a) :
    tciConstant m (word32 m a) (next a) = some (ofReg ret, moviArg type arg) := by
  simp only [moviItems] at h
  by_cases hfits : MoviFits (moviArg type arg)
  · rw [if_pos hfits] at h
    obtain ⟨hword, harg⟩ := hfits.signExtend
    rw [show word32 m a = _ from h _ rfl, tciConstant, if_pos, tciArgsRi_outOpRi _ _ hword, harg]
    rw [outOpRi, opcodeOf_deposit (by decide) (by decide), opcodeOf_outOpR]
  · rw [if_neg hfits] at h
    obtain ⟨addr, -, hhi, hload, hlink⟩ := h _ rfl
    have hop : opcodeOf (word32 m a) = opTciMovl.setWidth 32 := by
      rw [hlink.1, opcodeOf_deposit (by decide) (by decide), opcodeOf_outOpR]
    have hptr : (tciArgsRl (word32 m a) (next a)).2 = BitVec.ofNat 32 addr :=
      relative_of_linked hlink
    have hreg : (tciArgsRl (word32 m a) (next a)).1 = ofReg ret := by
      rw [tciArgsRl, field_of_linked hlink]
      exact tciArgsR_outOpR _ _
    rw [tciConstant, if_neg (by rw [hop]; decide), if_pos hop, hptr, hreg,
      data64_of_load (by simp only [List.length_singleton] at hhi; omega) hload rfl]

/-- A load or store with an offset that fits, and one with a long offset. -/
theorem decodes_ldst {val base : Reg} {offset : Word} (hlast : last ≤ 2 ^ 32)
    (h : ∀ (k : ℕ) (i : Item), ((Call.ldst op val base offset).items T tb)[k]? = some i →
      i.Done m bias labels first last (a + 4 * k)) :
    Decodes T tb m labels bias a (.ldst op val base offset) := by
  have hop : ∀ r d, opcodeOf (outOpRrs op val r d) = op.setWidth 32 := by
    intro r d
    rw [outOpRrs, opcodeOf_deposit (by decide) (by decide), opcodeOf_outOpRr]
  by_cases hfits : Fits 16 offset
  · rw [Call.items, if_pos hfits] at h
    exact .inl ⟨hfits, decoded_of_done _ (h 0 _ rfl) (hop base offset)
      (tciArgsRrs_outOpRrs op val base hfits)⟩
  · obtain ⟨i, hi⟩ := moviItems_one .i32 regTmp (offset.signExtend 64)
    rw [Call.items, if_neg hfits, hi] at h
    have hconst := constant_of_done .i32 regTmp (offset.signExtend 64) hlast fun j hj =>
      h 0 j (by rw [hi] at hj; exact hj)
    rw [moviArg, setWidth_signExtend] at hconst
    exact .inr ⟨hfits, hconst, decoded_of_done _ (h 1 _ rfl) (opcodeOf_outOpRrr _ _ _ _)
      (tciArgsRrr_outOpRrr _ _ _ _), decoded_of_done _ (h 2 _ rfl) (hop regTmp 0#32)
      (tciArgsRrs_outOpRrs op val regTmp (by decide))⟩

theorem decodes_call {func cif : Word} {ret : Option TypeCode} (hlast : last ≤ 2 ^ 32)
    (h : (⟨outOpN opCall (retLength ret), .pool [func.setWidth 64, cif.setWidth 64]⟩ : Item).Done
      m bias labels first last a) :
    Decodes T tb m labels bias a (.call func cif ret) := by
  obtain ⟨addr, -, hhi, hload, hlink⟩ := h
  have haddr : addr < 2 ^ 32 := by
    simp only [List.length_cons, List.length_nil] at hhi
    omega
  have hptr : (tciArgsNl (word32 m a) (next a)).2 = BitVec.ofNat 32 addr :=
    relative_of_linked hlink
  have hlen : (tciArgsNl (word32 m a) (next a)).1 = BitVec.ofNat 32 (retLength ret) := by
    rw [tciArgsNl, field_of_linked hlink, outOpN, extract_deposit_self (by decide)]
    exact extract_ofReg (retLength ret)
  have hfunc := data64_of_load (n := 0) haddr hload rfl
  have hcif := data64_of_load (n := 1) haddr hload rfl
  refine ⟨opcode_of_deposit hlink.1 (opcodeOf_outOpN _ _), ?_⟩
  rw [hptr, hlen, hfunc, hcif]

theorem decodes_qemuLdst {x : LdstArgs} (hlast : last ≤ 2 ^ 32)
    (h : (⟨opWord op, .pool x.data⟩ : Item).Done m bias labels first last a)
    (hpool : a + 4 < first) : Decodes T tb m labels bias a (.qemuLdst op x) := by
  obtain ⟨addr, hlo, hhi, hload, hlink⟩ := h
  have haddr : addr < 2 ^ 32 := by
    simp only [LdstArgs.data, List.length_cons, List.length_nil] at hhi
    omega
  -- the displacement is not 0, which would stand for a null pointer
  have hne : BitVec.ofNat 32 addr ≠ next a := by
    rw [next, Ne, ← BitVec.toNat_inj, BitVec.toNat_ofNat, BitVec.toNat_ofNat]
    omega
  have hptr : tciArgsL (word32 m a) (next a) = BitVec.ofNat 32 addr := by
    rw [hlink.1]
    exact tciArgsL_deposit hlink.2 hne
  have hread : ∀ (n : ℕ) (d : BitVec 64), x.data[n]? = some d →
      data64 m (BitVec.ofNat 32 addr) n = d := fun n d hd => data64_of_load haddr hload hd
  refine ⟨BitVec.ofNat 32 addr, ⟨opcode_of_deposit hlink.1 (opcodeOf_opWord op), ?_⟩, ?_⟩
  · dsimp only [tciArgsLdst]
    rw [hptr, hread 0 _ rfl, hread 1 _ rfl, hread 2 _ rfl]
    simp only [setWidth_setWidth_word]
  · rw [descriptor, hread 3 _ rfl, hread 4 _ rfl, hread 5 _ rfl, hread 6 _ rfl, hread 7 _ rfl]
    simp only [setWidth_signExtend, setWidth_setWidth_byte]

theorem decodes_of_done (c : Call) (hlast : last ≤ 2 ^ 32)
    (h : ∀ (k : ℕ) (i : Item), (c.items T tb)[k]? = some i →
      i.Done m bias labels first last (a + 4 * k))
    (hpointer : ∀ p, tb ≤ p → p < tb + T.tbSize → BitVec.ofNat 32 p ≠ next a + bias)
    (hpool : ∀ op x, c = .qemuLdst op x → a + 4 < first) :
    Decodes T tb m labels bias a c := by
  have h0 : ∀ i, (c.items T tb)[0]? = some i → i.Done m bias labels first last a :=
    fun i hi => h 0 i hi
  cases c with
  | opL op l0 =>
    have hlink : Linked m a (outOpL op) (labels l0) := h0 _ rfl
    exact ⟨opcode_of_deposit hlink.1 (opcodeOf_opWord op), relative_of_linked hlink⟩
  | exitTb arg =>
    cases arg with
    | none =>
      have hdone := h0 _ rfl
      refine decoded_of_done (tciArgsL · (next a + bias)) hdone ?_ ?_
      · rw [outOpP, opcodeOf_deposit (by decide) (by decide), opcodeOf_opWord]
      · rw [tciArgsL, outOpP, sextract_deposit_self (by decide) (by decide)]
        rfl
    | some i =>
      have hdone := h0 _ rfl
      have hi := T.exit_lt
      exact ⟨opcode_of_deposit hdone.1 (opcodeOf_opWord _),
        pointer_of_done hdone (hpointer _ (by omega) (by omega))⟩
  | gotoTb which =>
    have hdone := h0 _ rfl
    have hw := T.jmpTargetAddr_lt which
    exact ⟨opcode_of_deposit hdone.1 (opcodeOf_opWord _),
      pointer_of_done hdone (hpointer _ (by omega) (by omega))⟩
  | opV op => exact decoded_of_done (fun _ => ()) (h0 _ rfl) (extract_op op) rfl
  | opR => exact decoded_of_done _ (h0 _ rfl) (opcodeOf_outOpR ..) (tciArgsR_outOpR ..)
  | opRl op r0 l1 =>
    have hlink : Linked m a (outOpRl op r0) (labels l1) := h0 _ rfl
    refine ⟨opcode_of_deposit hlink.1 (opcodeOf_outOpR op r0),
      Prod.ext ?_ (relative_of_linked hlink)⟩
    exact (field_of_linked hlink).trans (tciArgsR_outOpR op r0)
  | opRr | opRrr | opRrbb | opRrrc | opRrrbb | opRrrr | opRrrrr | opRrrrrc | opRrrrrr =>
    refine decoded_of_done _ (h0 _ rfl) ?_ ?_
    · simp (disch := decide) only [outOpRr, outOpRrr, outOpRrbb, outOpRrrc, outOpRrrbb, outOpRrrr,
        outOpRrrrr, outOpRrrrrc, outOpRrrrrr, opcodeOf_deposit, opcodeOf_outOpR]
    · simp (disch := decide) [tciArgsRr, tciArgsRrr, tciArgsRrbb, tciArgsRrrbb, tciArgsRrrr,
        tciArgsRrrrr, tciArgsRrrrrr, outOpR, outOpRr, outOpRrr, outOpRrbb, outOpRrrc, outOpRrrbb,
        outOpRrrr, outOpRrrrr, outOpRrrrrc, outOpRrrrrr]
  | movi type ret arg => exact constant_of_done type ret arg hlast h0
  | ldst op val base offset => exact decodes_ldst hlast h
  | call func cif ret =>
    have hdone := h0 _ rfl
    exact decodes_call hlast hdone
  | qemuLdst op x =>
    have hdone := h0 _ rfl
    exact decodes_qemuLdst hlast hdone (hpool op x rfl)
  | label l => trivial

theorem fits_of_done {d : Word}
    (h : ∀ i, (c.items T tb)[0]? = some i → i.Done m bias labels first last a)
    (hd : d ∈ c.displacements T tb labels bias a) : Fits 20 d := by
  cases c with
  | opL op l0 =>
    rw [List.mem_singleton.mp hd]
    exact (h _ rfl).2
  | opRl op r0 l1 =>
    rw [List.mem_singleton.mp hd]
    exact (h _ rfl).2
  | gotoTb which =>
    rw [List.mem_singleton.mp hd]
    exact (h _ rfl).2
  | exitTb arg =>
    cases arg with
    | none => cases hd
    | some i =>
      rw [List.mem_singleton.mp hd]
      exact (h _ rfl).2
  | _ => cases hd

end Decode

/-! ### A whole block -/

section Whole

variable {T : Target} {tb : ℕ} {cs : List Call}

variable {done rest : List Call}

theorem Finished.item {P : Place} {last : ℕ} {m : Bytes} (h : Finished P T tb cs last m)
    (hc : cs = done ++ c :: rest) {k : ℕ} {i : Item} (hi : (c.items T tb)[k]? = some i) :
    i.Done m P.bias (layout T tb P.base cs).labels (layout T tb P.base cs).addr last
      ((layout T tb P.base done).addr + 4 * k) := by
  have hk := (List.getElem?_eq_some_iff.mp hi).1
  have hget : (cs.flatMap (Call.items T tb))[(done.flatMap (Call.items T tb)).length + k]? =
      some i := by
    rw [hc, List.flatMap_append, List.getElem?_append_right (by omega), Nat.add_sub_cancel_left,
      List.flatMap_cons, List.getElem?_append_left hk, hi]
  have hdone := h.2.2 _ i hget
  rwa [Nat.mul_add, ← Nat.add_assoc, ← layout_addr] at hdone

theorem Call.Leaves.items (h : c.Leaves) : (c.items T tb).length = 1 := by
  cases c with
  | exitTb arg => cases arg <;> rfl
  | opL op l => rfl
  | opR op r => rfl
  | call func cif ret => rfl
  | _ => cases h

/-- A guest access is not the last instruction: the block would run on into the pool. -/
theorem Ops.ldst_not_last (b : Ops) {base : ℕ} {x : LdstArgs}
    (hc : b.calls = done ++ .qemuLdst op x :: rest) :
    (layout T tb base done).addr + 4 < (layout T tb base b.calls).addr := by
  rcases eq_nil_or_concat' rest with rfl | ⟨rest, last, rfl⟩
  · have := b.leaves (.qemuLdst op x) (by change b.calls.getLast? = _; rw [hc]; simp)
    cases this
  · have hlast := b.leaves last (by change b.calls.getLast? = _; simp [hc, getLast?_cons])
    have hlen : (last.items T tb).length = 1 := hlast.items
    have hldst : ((Call.qemuLdst op x).items T tb).length = 1 := rfl
    rw [layout_addr, layout_addr, hc]
    simp only [flatMap_append, flatMap_cons, flatMap_nil, length_append, append_nil, hlen, hldst]
    omega

/-- Where a block and its buffer are: `tcg_tb_alloc` puts the live code directly behind the
block, the bias leads from the buffer to it, and the buffer ends behind its high-water mark. -/
structure Placed (T : Target) (tb : ℕ) (s : State) : Prop where
  before : tb + T.tbSize ≤ (s.tbs tb).tcPtr
  near : (s.tbs tb).tcPtr ≤ tb + 2 ^ 16
  bias : s.codeBias = BitVec.ofNat 32 (s.tbs tb).tcPtr - BitVec.ofNat 32 (s.bufferOf tb)
  highwater : s.codeGenHighwater + 1024 ≤ 2 ^ 32

/-- The block is not where its live code is, so no displacement to it is 0. -/
theorem Placed.pointer_ne {s : State} {a p : ℕ} (hs : Placed T tb s) (ha : s.bufferOf tb ≤ a)
    (ha' : a - s.bufferOf tb < 2 ^ 16) (hp : tb ≤ p) (hp' : p < tb + T.tbSize) :
    BitVec.ofNat 32 p ≠ next a + s.codeBias := by
  have hlive : next a + s.codeBias =
      BitVec.ofNat 32 ((s.tbs tb).tcPtr + (a + 4 - s.bufferOf tb)) := by
    obtain ⟨d, rfl⟩ := Nat.exists_eq_add_of_le ha
    have hd : s.bufferOf tb + d + 4 - s.bufferOf tb = d + 4 := by omega
    rw [hs.bias, next, hd, Nat.add_assoc, BitVec.ofNat_add (s.bufferOf tb) (d + 4),
      BitVec.ofNat_add _ (d + 4)]
    generalize BitVec.ofNat 32 (d + 4) = x
    ring
  have hbefore := hs.before
  have hnear := hs.near
  rw [hlive, Ne, ← BitVec.toNat_inj, BitVec.toNat_ofNat, BitVec.toNat_ofNat]
  omega

/-- The code of a block as it was generated decodes, call by call, to the operands it was
generated from; a block with a displacement that does not fit is abandoned. -/
theorem generated_code_decodes (b : Ops) {s : State} (hs : Placed T tb s)
    {done rest : List Call} {c : Call} (hc : b.calls = done ++ c :: rest) :
    (∀ n s', (encode T tb b).run s = .ok n s' →
      Decodes T tb s'.mem (layout T tb (s.bufferOf tb + T.headerSize) b.calls).labels s.codeBias
        (layout T tb (s.bufferOf tb + T.headerSize) done).addr c) ∧
    ((∃ d ∈ c.displacements T tb
        (layout T tb (s.bufferOf tb + T.headerSize) b.calls).labels s.codeBias
        (layout T tb (s.bufferOf tb + T.headerSize) done).addr, ¬ Fits 20 d) →
      ∃ e s', (encode T tb b).run s = .error e s') := by
  have hops : b.ops ≠ [] := by
    intro h
    rw [Ops.calls, h] at hc
    simp at hc
  -- on success every word of the call is finished
  have hfinished : ∀ n s', (encode T tb b).run s = .ok n s' → ∃ p ≤ s.codeGenHighwater + 64,
      Finished (s.place T tb) T tb b.calls p s'.mem := by
    intro n s' hrun
    have hroom := (room_of_generated T tb s hops).of_ok rfl hrun
    exact (generated_done T tb b s hroom).of_ok rfl hrun
  constructor
  · intro n s' hrun
    obtain ⟨p, hp, hfin⟩ := hfinished n s' hrun
    have hwater := hs.highwater
    refine decodes_of_done c (show p ≤ 2 ^ 32 by omega) (fun k i hi => hfin.item hc hi) ?_ ?_
    · have hlow : s.bufferOf tb ≤ (layout T tb (s.bufferOf tb + T.headerSize) done).addr := by
        rw [layout_addr]
        omega
      have hle : (layout T tb (s.bufferOf tb + T.headerSize) done).addr
          ≤ (layout T tb (s.bufferOf tb + T.headerSize) b.calls).addr := by
        rw [layout_addr, layout_addr, hc, List.flatMap_append, List.length_append]
        omega
      have hsize := hfin.1
      simp only [State.place] at hsize
      exact fun q hq hq' => hs.pointer_ne hlow (by omega) hq hq'
    · rintro op x rfl
      exact b.ldst_not_last hc
  · rintro ⟨d, hd, hfits⟩
    cases hrun : (encode T tb b).run s with
    | ok n s' =>
      obtain ⟨p, -, hfin⟩ := hfinished n s' hrun
      exact absurd (fits_of_done (fun i hi => hfin.item hc hi) hd) hfits
    | error e s' => exact ⟨e, s', rfl⟩

end Whole

def loadArgs : LdstArgs := ⟨3, 4, 0x20#32, 7#32, 0xffffffc0#32, 12#8, 0xfffff000#32, 0xffffffc8#32⟩

/-- A loop: a pooled constant, a guest load and a conditional branch back, with the numbers
of opcodes that do not matter here. -/
def loopCalls : List Call :=
  [.label 0, .movi .i64 2 0x123456789abcdef0#64, .qemuLdst 141#8 loadArgs,
    .ldst 60#8 3 14 0x12345#32, .opRl 4#8 3 0, .gotoTb 1, .exitTb (some 1)]

def loopOps : Ops where
  ops := [[⟨loopCalls, fun _ => some []⟩]]
  nbLabels := 1
  fpLocals := false
  labels_lt := by simp [loopCalls, Call.labels]
  short := by
    intro T tb
    simp only [mem_singleton, forall_eq]
    exact (show 8 ≤ opMaxWords by decide)
  leaves := by simp [loopCalls, Call.Leaves]

/-- A block at an address, and its code behind it. -/
def stateAt (tb : ℕ) : State where
  mem _ := 0
  tbs _ := ⟨0, 0, 0, 0, 0, 0, tb + 64, none, none, fun _ => 0, fun _ => 0⟩
  codeBuf := 0
  codePtr := 0
  codeGenPtr := tb + 64
  codeGenHighwater := tb + 0x10000
  dataGenPtr := none
  genTb := none
  poolLabels := []
  relocs := []
  labelValue _ := 0
  tables := .init
  regenBuf := none
  codeBias := 0#32

/-- A jump to a label that has no place, far from address 0. -/
def strayOps : Ops where
  ops := [[⟨[.opL opBr 0], fun _ => some []⟩]]
  nbLabels := 1
  fpLocals := false
  labels_lt := by simp [Call.labels]
  short := by simp [Call.items, opMaxWords]
  leaves := by simp [Call.Leaves]

theorem placed_stateAt {tb : ℕ} (h : tb < 0x1000000) : Placed smallTarget tb (stateAt tb) where
  before := le_rfl
  near := by simp [stateAt]
  bias := (sub_self _).symm
  highwater := by
    simp only [stateAt]
    omega

theorem generated_code_decodes_loopOps :
    (∃ n s', (encode smallTarget 0x10000 loopOps).run (stateAt 0x10000) = .ok n s' ∧
      ∀ done c rest, loopOps.calls = done ++ c :: rest →
        Decodes smallTarget 0x10000 s'.mem (layout smallTarget 0x10000 0x10058 loopOps.calls).labels
          0#32 (layout smallTarget 0x10000 0x10058 done).addr c) ∧
    ∃ e s', (encode smallTarget 0x200000 strayOps).run (stateAt 0x200000) = .error e s' :=
  ⟨⟨_, _, rfl, fun _ _ _ hc =>
      (generated_code_decodes loopOps (placed_stateAt (by decide)) hc).1 _ _ rfl⟩,
    (generated_code_decodes strayOps (placed_stateAt (by decide))
      (show strayOps.calls = [] ++ .opL opBr 0 :: [] from rfl)).2
      ⟨_, List.mem_singleton_self _, by decide⟩⟩

end Bootbox.Tcg.GenCode
