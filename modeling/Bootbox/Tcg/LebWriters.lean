import Bootbox.Tcg.ModuleDecode

/-!
The LEB128 writers of the backend: the signed ones of 32 and 64 bits, the unsigned one, the
numbers of a fixed width that are filled in later, and the block's address in five bytes.

Each is read back by WebAssembly's decoder for numbers of its kind, which takes exactly the
bytes that were written. A fill that would go on behind the reserved bytes gives nothing here;
none does.
-/

namespace Bootbox.Tcg.WasmModule

open Lib WasmBinary BitVec

variable {w k : ℕ}

/-- The loop of `tcg_wasm_out_leb128_sint32_t` and `tcg_wasm_out_leb128_sint64_t`, for at most
`k` rounds. -/
def sintLoop (negative : Bool) : ℕ → BitVec w → Option (List Byte)
  | 0, _ => none
  | k + 1, uv =>
    let b : Byte := (uv &&& 0x7f#w).setWidth 8
    let uv := if negative then uv >>> 7 ||| ~~~0#w <<< (w - 7) else uv >>> 7
    if uv = 0#w ∧ b &&& 0x40#8 = 0#8 ∨ uv = -1#w ∧ b &&& 0x40#8 ≠ 0#8 then some [b]
    else (sintLoop negative k uv).map fun bs => (b ||| 0x80#8) :: bs

def outLeb128Sint32 (v : BitVec 32) : Option (List Byte) := sintLoop (v.slt 0#32) 5 v

def outLeb128Sint64 (v : BitVec 64) : Option (List Byte) := sintLoop (v.slt 0#64) 10 v

/-- `fill_uint32_leb128` on the reserved bytes. -/
def fillWithin : List Byte → ℕ → Option (List Byte)
  | [], _ => none
  | b :: bs, v =>
    if v / 128 = 0 then some ((b ||| BitVec.ofNat 8 (v % 128)) :: bs)
    else (fillWithin bs (v / 128)).map ((b ||| BitVec.ofNat 8 (v % 128)) :: ·)

/-! ### One group -/

theorem toNat_low7 (hw : 7 ≤ w) (uv : BitVec w) :
    (((uv &&& 0x7f#w).setWidth 8).toNat : ℤ) = uv.toInt % 128 := by
  obtain ⟨n, rfl⟩ := Nat.exists_eq_add_of_le hw
  have hpow : 2 ^ (7 + n) = 128 * 2 ^ n := by rw [pow_add]; norm_num
  have hmask : (0x7f#(7 + n)).toNat = 2 ^ 7 - 1 := by
    have hone := Nat.one_le_two_pow (n := n)
    rw [toNat_ofNat, Nat.mod_eq_of_lt (by omega)]
    rfl
  have hlow : ((uv &&& 0x7f#(7 + n)).setWidth 8).toNat = uv.toNat % 128 := by
    rw [toNat_setWidth, toNat_and, hmask, Nat.and_two_pow_sub_one_eq_mod]
    omega
  rw [hlow, toInt_eq_toNat_cond]
  split
  · omega
  · rw [hpow]
    push_cast
    omega

/-- With its sign put back, the rest of a number is shifted as a signed one. -/
theorem shifted_eq (uv : BitVec w) :
    (if decide (uv.toInt < 0) then uv >>> 7 ||| ~~~0#w <<< (w - 7) else uv >>> 7)
      = uv.sshiftRight 7 := by
  have hmsb : uv.msb = decide (uv.toInt < 0) := msb_eq_toInt
  rw [← hmsb]
  ext i hi
  rw [getElem_sshiftRight]
  by_cases hlt : 7 + i < w
  · cases uv.msb
    · simp [hlt]
    · simp [hlt]
      omega
  · cases uv.msb
    · simp [hlt, getLsbD_of_ge uv _ (not_lt.mp hlt)]
    · simp [hlt, getLsbD_of_ge uv _ (not_lt.mp hlt)]
      omega

theorem toInt_shifted (uv : BitVec w) : (uv.sshiftRight 7).toInt = uv.toInt / 128 := by
  rw [toInt_sshiftRight, Int.shiftRight_eq_div_pow]
  rfl

theorem and_sign_eq_zero {b : Byte} (h : b.toNat < 128) : b &&& 0x40#8 = 0#8 ↔ b.toNat < 64 := by
  have hall : ∀ n : Fin 128, BitVec.ofNat 8 n &&& 0x40#8 = 0#8 ↔ n.val < 64 := by decide
  simpa using hall ⟨b.toNat, h⟩

/-- The loop ends with a number that a group of six bits and a sign holds. -/
theorem sint_stops_iff (hw : 7 ≤ w) (uv : BitVec w) :
    (uv.sshiftRight 7 = 0#w ∧ (uv &&& 0x7f#w).setWidth 8 &&& 0x40#8 = 0#8 ∨
      uv.sshiftRight 7 = -1#w ∧ (uv &&& 0x7f#w).setWidth 8 &&& 0x40#8 ≠ 0#8) ↔
    -64 ≤ uv.toInt ∧ uv.toInt < 64 := by
  have hb := toNat_low7 hw uv
  have hneg : (-1#w).toInt = -1 := by
    rw [neg_one_eq_allOnes, toInt_allOnes, if_pos (by omega)]
  rw [ne_eq, and_sign_eq_zero (by omega), ← toInt_inj, ← toInt_inj, toInt_shifted,
    toInt_zero, hneg]
  omega

theorem sintLoop_succ (hw : 7 ≤ w) (uv : BitVec w) : sintLoop (decide (uv.toInt < 0)) (k + 1) uv =
    if -64 ≤ uv.toInt ∧ uv.toInt < 64 then some [(uv &&& 0x7f#w).setWidth 8]
    else (sintLoop (decide (uv.toInt < 0)) k (uv.sshiftRight 7)).map
      fun bs => ((uv &&& 0x7f#w).setWidth 8 ||| 0x80#8) :: bs := by
  simp only [sintLoop, shifted_eq, sint_stops_iff hw]

theorem toNat_or_more {b : Byte} (h : b.toNat < 128) : (b ||| 0x80#8).toNat = 128 + b.toNat := by
  have hor := Leb128.toNat_or_continuation b.toNat h
  rwa [BitVec.ofNat_toNat, BitVec.setWidth_eq, BitVec.or_comm] at hor

theorem reads_sintLoop (hw : 7 ≤ w) (uv : BitVec w)
    (h : -(64 * 128 ^ k) ≤ uv.toInt ∧ uv.toInt < 64 * 128 ^ k) :
    ∃ bs, sintLoop (decide (uv.toInt < 0)) (k + 1) uv = some bs ∧
      Reads (signedGroups (k + 1)) bs uv.toInt := by
  have hb := toNat_low7 hw uv
  induction k generalizing uv with
  | zero =>
    have hx : -64 ≤ uv.toInt ∧ uv.toInt < 64 := by simpa using h
    rw [sintLoop_succ hw, if_pos hx]
    exact ⟨_, rfl, reads_signedGroups_last hx hb⟩
  | succ k ih =>
    rw [sintLoop_succ hw]
    split
    case isTrue hx => exact ⟨_, rfl, reads_signedGroups_last hx hb⟩
    case isFalse =>
      rw [pow_succ] at h
      have hrest := ih (uv.sshiftRight 7)
      rw [toInt_shifted, show decide (uv.toInt / 128 < 0) = decide (uv.toInt < 0) by
        rw [decide_eq_decide]; omega] at hrest
      obtain ⟨bs, hrun, hreads⟩ := hrest (by omega) (by rw [toNat_low7 hw, toInt_shifted])
      refine ⟨_, by rw [hrun]; rfl, reads_signedGroups_more ?_ hreads⟩
      rw [toNat_or_more (by omega)]
      push_cast
      omega

/-! ### Numbers of a fixed width -/

variable {v : ℕ}

theorem fillWithin_blank (h : v < 128 ^ (k + 1)) :
    fillWithin (Leb128.blank k) v = some (Leb128.fill (Leb128.blank k) v) := by
  induction k generalizing v with
  | zero =>
    have hv : v / 128 = 0 := by
      rw [pow_one] at h
      omega
    simp [Leb128.blank, fillWithin, Leb128.fill, hv]
  | succ k ih =>
    rw [Leb128.blank_succ, fillWithin, Leb128.fill]
    split
    · rfl
    · rw [ih (by rw [pow_succ] at h; omega)]
      rfl

theorem reads_thisTbLeb (v : BitVec 32) : Reads (signed 32) (thisTbLeb v) v.toInt := by
  have hlow : ∀ i, ((((v.sshiftRight i).setWidth 8 &&& 0x7f#8).toNat : ℕ) : ℤ)
      = (v.sshiftRight i).toInt % 128 := by
    intro i
    rw [← toNat_low7 (by norm_num), setWidth_and]
    rfl
  have hmore : ∀ i {k bs}, Reads (signedGroups k) bs (v.sshiftRight (i + 7)).toInt →
      Reads (signedGroups (k + 1)) (((v.sshiftRight i).setWidth 8 &&& 0x7f#8 ||| 0x80#8) :: bs)
        (v.sshiftRight i).toInt := by
    intro i k bs h
    have hb := hlow i
    rw [sshiftRight_add, toInt_shifted] at h
    refine reads_signedGroups_more ?_ h
    rw [toNat_or_more (by omega)]
    push_cast
    omega
  have hlo := le_toInt v
  have hhi := toInt_lt (x := v)
  have hlast : Reads (signedGroups 1) [(v.sshiftRight 28).setWidth 8 &&& 0x7f#8]
      (v.sshiftRight 28).toInt := by
    refine reads_signedGroups_last ?_ (hlow 28)
    rw [toInt_sshiftRight, Int.shiftRight_eq_div_pow]
    omega
  have hgroups := hmore 0 (hmore 7 (hmore 14 (hmore 21 hlast)))
  rw [sshiftRight_zero] at hgroups
  refine reads_signed ?_ ⟨hlo, hhi⟩
  simpa [thisTbLeb, List.range_succ] using hgroups

/-- What each of the writers writes is read back, and no fill leaves its reserved bytes: the
five of a size, a count or a block pointer, and the one of a helper's number of parameters. -/
theorem leb128_writers_read_back :
    (∀ v : BitVec 32, ∃ bs, outLeb128Sint32 v = some bs ∧ Reads (signed 32) bs v.toInt) ∧
    (∀ v : BitVec 64, ∃ bs, outLeb128Sint64 v = some bs ∧ Reads (signed 64) bs v.toInt) ∧
    (∀ v : BitVec 32, Reads u32 (writeUint32Leb128 v.toNat) v.toNat) ∧
    (∀ v : BitVec 32, ∃ bs, fillWithin (Leb128.blank 4) v.toNat = some bs ∧ bs.length = 5 ∧
      Reads u32 bs v.toNat ∧ Reads (signed 64) bs v.toNat) ∧
    (∀ info : HelperInfo, ∃ b, fillWithin [0x00#8] (passedParams info).length = some [b] ∧
      Reads u32 [b] (passedParams info).length) ∧
    (∀ v : BitVec 32, (thisTbLeb v).length = 5 ∧ Reads (signed 32) (thisTbLeb v) v.toInt) ∧
    ∀ (mode : Mode) (thisTb : BitVec 32), ∀ place ∈ [(modHeaderA, 9), (modHeaderA, 14),
      (modHeaderB, 1), (modHeaderB, 6), (modHeaderB, 25), (modHeaderC, 142),
      (wasmWriteHeaderD mode thisTb, 1), (wasmWriteHeaderD mode thisTb, 6),
      (wasmWriteHeaderD mode thisTb, 11)],
      (place.1.drop place.2).take 5 = Leb128.blank 4 := by
  have hsint {w k : ℕ} (hw : 7 ≤ w) (hk : (w + 6) / 7 = k + 1) (v : BitVec w)
      (hle : (2 : ℤ) ^ (w - 1) ≤ 64 * 128 ^ k) :
      ∃ bs, sintLoop (v.slt 0#w) (k + 1) v = some bs ∧ Reads (signed w) bs v.toInt := by
    have hlo := BitVec.le_toInt v
    have hhi := BitVec.toInt_lt (x := v)
    obtain ⟨bs, hrun, hreads⟩ := reads_sintLoop (k := k) hw v (by omega)
    rw [BitVec.slt, BitVec.toInt_zero]
    exact ⟨bs, hrun, reads_signed (hk ▸ hreads) ⟨hlo, hhi⟩⟩
  refine ⟨fun v => hsint (by norm_num) rfl v (by norm_num),
    fun v => hsint (by norm_num) rfl v (by norm_num), fun v => reads_writeUint32Leb128 v.isLt,
    fun v => ?_,
    fun info => ?_, fun v => ⟨by simp [thisTbLeb], reads_thisTbLeb v⟩, fun mode thisTb => ?_⟩
  · have hv := v.isLt
    refine ⟨_, fillWithin_blank (by omega), length_filled _, reads_u32_fill hv, ?_⟩
    exact reads_signed_fill (by omega)
  · have hlen := length_passedParams_lt info
    have hb := toNat_ofNat_lt (hlen.trans (by norm_num))
    refine ⟨BitVec.ofNat 8 (passedParams info).length, ?_, ?_⟩
    · rw [show [0x00#8] = Leb128.blank 0 from rfl, fillWithin_blank (by simpa using hlen)]
      exact congrArg some (fill_byte hlen)
    · have hread := reads_u32_byte (b := BitVec.ofNat 8 (passedParams info).length) (by omega)
      rwa [hb] at hread
  · simp only [List.forall_mem_cons]
    exact ⟨rfl, rfl, rfl, rfl, rfl, rfl, rfl, rfl, rfl, by simp⟩

end Bootbox.Tcg.WasmModule
