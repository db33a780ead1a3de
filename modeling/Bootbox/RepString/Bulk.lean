import Bootbox.RepString.Machine

/-!
The bulk helper against the ordinary loop. `Retired` says that a stretch of
elements has been run: the single iterations lead from the machine before it to
the machine after it, every element lay on pages that can be taken, and no other
byte changed. One element is retired by one iteration; a chunk and the whole
helper call are stretches put together.
-/

namespace Bootbox.RepString

open Lib ByteMemory BitVec Option

variable {σ : Type*} {mmu : Softmmu σ} {s : DisasContext}

variable {hd : ℕ} {dst src : BitVec 64}

/-! ### Sizes and the `info` word -/

theorem MemOp.size_eq (ot : MemOp) : ot.size = 2 ^ ot.val := by
  rw [MemOp.size, Nat.shiftLeft_eq, Nat.one_mul]

theorem MemOp.size_pos (ot : MemOp) : 0 < ot.size := by
  rw [MemOp.size_eq]
  exact Nat.two_pow_pos _

theorem MemOp.size_le : ∀ ot : MemOp, ot.size ≤ 8 := by
  decide

theorem shiftLeft_memOp (n : ℕ) (ot : MemOp) : n <<< ot.val = n * ot.size := by
  rw [Nat.shiftLeft_eq, MemOp.size_eq]

theorem shiftRight_memOp (n : ℕ) (ot : MemOp) : n >>> ot.val = n / ot.size := by
  rw [Nat.shiftRight_eq_div_pow, MemOp.size_eq]

theorem or_fields {a b c d e : ℕ} (ha : a < 4) (hb : b < 4) (hc : c < 2) (hd : d < 2) :
    a ||| b <<< 2 ||| c <<< 4 ||| d <<< 5 ||| e <<< 8 = a + 4 * b + 16 * c + 32 * d + 256 * e := by
  have h₁ : a ||| b <<< 2 = a + 4 * b := by
    rw [Nat.or_comm, ← Nat.shiftLeft_add_eq_or_of_lt (by omega), Nat.shiftLeft_eq]
    omega
  have h₂ : (a + 4 * b) ||| c <<< 4 = a + 4 * b + 16 * c := by
    rw [Nat.or_comm, ← Nat.shiftLeft_add_eq_or_of_lt (by omega), Nat.shiftLeft_eq]
    omega
  have h₃ : (a + 4 * b + 16 * c) ||| d <<< 5 = a + 4 * b + 16 * c + 32 * d := by
    rw [Nat.or_comm, ← Nat.shiftLeft_add_eq_or_of_lt (by omega), Nat.shiftLeft_eq]
    omega
  rw [h₁, h₂, h₃, Nat.or_comm, ← Nat.shiftLeft_add_eq_or_of_lt (by omega), Nat.shiftLeft_eq]
  omega

/-- The helper reads back what the translator passed. -/
theorem unpackInfo_packInfo (h : s.aflag ≠ .mo16) (ot : MemOp) (movs : Bool) :
    unpackInfo (packInfo s ot movs) =
      { ot := ot, aflag64 := s.aflag = .mo64, movs := movs, code64 := s.code64,
        mmuIdx := s.memIndex } := by
  have hm := movs.toNat_lt
  have hc := s.code64.toNat_lt
  have hi := s.memIndex.isLt
  have ho := ot.isLt
  have hbit (b : Bool) : decide (b.toNat = 1) = b := by cases b <;> rfl
  obtain ⟨a, ha, haflag⟩ : ∃ a, a < 4 ∧ packInfo s ot movs =
      ot.val + 4 * a + 16 * movs.toNat + 32 * s.code64.toNat + 256 * s.memIndex.val ∧
      (a = 3 ↔ s.aflag = .mo64) := by
    unfold packInfo
    cases hs : s.aflag with
    | mo16 => exact absurd hs h
    | mo32 => exact ⟨2, by omega, or_fields (b := 2) ho (by omega) hm hc, by simp⟩
    | mo64 => exact ⟨3, by omega, or_fields (b := 3) ho (by omega) hm hc, by simp⟩
  obtain ⟨hpack, haflag⟩ := haflag
  have hand (n k : ℕ) : n &&& (2 ^ k - 1) = n % 2 ^ k := Nat.and_two_pow_sub_one_eq_mod n k
  have h3 (n : ℕ) : n &&& 3 = n % 4 := hand n 2
  have hff (n : ℕ) : n &&& 0xff = n % 256 := hand n 8
  rw [unpackInfo, hpack, RepInfo.mk.injEq]
  refine ⟨?_, ?_, ?_, ?_, ?_⟩
  · rw [h3]
    ext
    simp only [Fin.val_ofNat]
    omega
  · rw [h3, Nat.shiftRight_eq_div_pow, decide_eq_decide, ← haflag]
    omega
  · rw [Nat.testBit_eq_decide_div_mod_eq]
    refine Eq.trans ?_ (hbit movs)
    rw [decide_eq_decide]
    omega
  · rw [Nat.testBit_eq_decide_div_mod_eq]
    refine Eq.trans ?_ (hbit s.code64)
    rw [decide_eq_decide]
    omega
  · rw [hff, Nat.shiftRight_eq_div_pow]
    ext
    simp only [Fin.val_ofNat]
    omega

/-! ### Registers -/

theorem toNat_extu_mo32 (x : BitVec 64) : (AFlag.mo32.extu x).toNat = x.toNat % 2 ^ 32 := by
  simp only [AFlag.extu, toNat_setWidth]
  omega

theorem movRegV_eq_extu (h : s.aflag ≠ .mo16) (reg t0 : BitVec 64) :
    s.aflag.movRegV reg t0 = s.aflag.extu t0 := by
  cases hs : s.aflag with
  | mo16 => exact absurd hs h
  | mo32 => rfl
  | mo64 => rfl

theorem and_amask (h : s.aflag ≠ .mo16) (info : RepInfo)
    (hinfo : info.aflag64 = (s.aflag = .mo64 : Bool)) (x : BitVec 64) :
    x &&& info.amask = s.aflag.extu x := by
  cases hs : s.aflag with
  | mo16 => exact absurd hs h
  | mo32 =>
    rw [RepInfo.amask, hinfo, hs]
    apply eq_of_toNat_eq
    rw [toNat_extu_mo32, if_neg (by simp), toNat_and]
    exact Nat.and_two_pow_sub_one_eq_mod x.toNat 32
  | mo64 =>
    rw [RepInfo.amask, hinfo, hs, if_pos (by simp)]
    exact and_allOnes

theorem extu_extu_add (h : s.aflag ≠ .mo16) (x y : BitVec 64) :
    s.aflag.extu (s.aflag.extu x + y) = s.aflag.extu (x + y) := by
  cases hs : s.aflag with
  | mo16 => exact absurd hs h
  | mo32 =>
    apply eq_of_toNat_eq
    rw [toNat_extu_mo32, toNat_extu_mo32, toNat_add, toNat_add, toNat_extu_mo32]
    omega
  | mo64 => rfl

/-- The registers after `n` elements. -/
def advance (s : DisasContext) (movs : Bool) (ot : MemOp) (env : Env) (n : ℕ) : Env :=
  if n = 0 then env
  else
    { env with
      rcx := s.aflag.extu (env.rcx - BitVec.ofNat 64 n)
      rdi := s.aflag.extu (env.rdi + BitVec.ofNat 64 (n * ot.size))
      rsi := if movs then s.aflag.extu (env.rsi + BitVec.ofNat 64 (n * ot.size)) else env.rsi }

variable {movs : Bool} {ot : MemOp} {env : Env} {n i j : ℕ}

@[simp] theorem advance_zero : advance s movs ot env 0 = env := if_pos rfl

@[simp] theorem advance_rax : (advance s movs ot env n).rax = env.rax := by
  unfold advance
  split <;> rfl

@[simp] theorem advance_df : (advance s movs ot env n).df = env.df := by
  unfold advance
  split <;> rfl

@[simp] theorem advance_segBase : (advance s movs ot env n).segBase = env.segBase := by
  unfold advance
  split <;> rfl

@[simp] theorem advance_rsi_stos : (advance s false ot env n).rsi = env.rsi := by
  unfold advance
  split <;> rfl

theorem extu_advance (h : s.aflag ≠ .mo16) (movs : Bool) (ot : MemOp) (env : Env) (n : ℕ) :
    s.aflag.extu (advance s movs ot env n).rcx = s.aflag.extu (env.rcx - BitVec.ofNat 64 n) ∧
    s.aflag.extu (advance s movs ot env n).rdi =
      s.aflag.extu (env.rdi + BitVec.ofNat 64 (n * ot.size)) ∧
    (movs → s.aflag.extu (advance s movs ot env n).rsi =
      s.aflag.extu (env.rsi + BitVec.ofNat 64 (n * ot.size))) := by
  have hidem (x : BitVec 64) : s.aflag.extu (s.aflag.extu x) = s.aflag.extu x := by
    simpa using extu_extu_add h x 0
  by_cases hn : n = 0
  · subst hn
    simp
  · simp only [advance, if_neg hn, hidem, true_and]
    intro hm
    rw [if_pos hm, hidem]

/-- One iteration's register updates move to the next element. -/
theorem advance_succ (h : s.aflag ≠ .mo16) :
    advance s movs ot env (n + 1) =
      { env with
        rcx := s.aflag.extu ((advance s movs ot env n).rcx - 1#64)
        rdi := s.aflag.extu ((advance s movs ot env n).rdi + BitVec.ofNat 64 ot.size)
        rsi := if movs then
            s.aflag.extu ((advance s movs ot env n).rsi + BitVec.ofNat 64 ot.size)
          else env.rsi } := by
  obtain ⟨hcx, hdi, hsi⟩ := extu_advance h movs ot env n
  have hbytes : BitVec.ofNat 64 ((n + 1) * ot.size) =
      BitVec.ofNat 64 (n * ot.size) + BitVec.ofNat 64 ot.size := by
    rw [Nat.succ_mul, BitVec.ofNat_add]
  have hone : BitVec.ofNat 64 (n + 1) = BitVec.ofNat 64 n + 1#64 := BitVec.ofNat_add ..
  rw [advance, if_neg (Nat.succ_ne_zero n), Env.mk.injEq]
  refine ⟨rfl, ?_, ?_, ?_, rfl, rfl⟩
  · rw [BitVec.sub_eq_add_neg _ 1#64, ← extu_extu_add h, hcx, extu_extu_add h, hone]
    refine congrArg s.aflag.extu ?_
    rw [← BitVec.sub_eq_add_neg, BitVec.sub_sub]
  · split
    · rename_i hm
      rw [← extu_extu_add h (advance s movs ot env n).rsi, hsi hm, extu_extu_add h, hbytes,
        BitVec.add_assoc]
    · rfl
  · rw [← extu_extu_add h (advance s movs ot env n).rdi, hdi, extu_extu_add h, hbytes,
      BitVec.add_assoc]

/-! ### Addresses -/

abbrev dstAddr (s : DisasContext) (env : Env) : BitVec 64 := genStringMovlA0EDI s env

abbrev srcAddr (s : DisasContext) (env : Env) : BitVec 64 := genStringMovlA0ESI s env

/-- An offset and its linear address have `k` more bytes before either wraps. -/
def NoWrap (s : DisasContext) (a0 addr : BitVec 64) (k : ℕ) : Prop :=
  s.aflag = .mo32 → a0.toNat % 2 ^ 32 + k ≤ 2 ^ 32 ∧
    (s.code64 = false → addr.toNat % 2 ^ 32 + k ≤ 2 ^ 32)

/-- Short of a wrap, the linear address moves with its offset register. -/
theorem genLeaVSeg_add (h : s.aflag ≠ .mo16) {env env' : Env} {a0 a0' : BitVec 64} {seg : Seg}
    {ovr : Option Seg} {k : ℕ} (hseg : env'.segBase = env.segBase)
    (ha : s.aflag.extu a0' = s.aflag.extu (a0 + BitVec.ofNat 64 k))
    (hk : ∃ l, k < l ∧ NoWrap s a0 (genLeaVSeg s env a0 seg ovr) l) :
    genLeaVSeg s env' a0' seg ovr = genLeaVSeg s env a0 seg ovr + BitVec.ofNat 64 k := by
  obtain ⟨l, hl, hwrap⟩ := hk
  unfold NoWrap at hwrap
  unfold genLeaVSeg at hwrap ⊢
  cases hs : s.aflag with
  | mo16 => exact absurd hs h
  | mo64 =>
    rw [hs] at ha
    simp only [AFlag.extu] at ha
    subst ha
    simp only
    split
    · rfl
    · rw [hseg, BitVec.add_assoc, BitVec.add_assoc, BitVec.add_comm (BitVec.ofNat 64 k)]
  | mo32 =>
    simp only [hs, forall_true_left] at hwrap ha ⊢
    obtain ⟨hoff, hlin⟩ := hwrap
    have hnat := congrArg BitVec.toNat ha
    rw [toNat_extu_mo32, toNat_extu_mo32, BitVec.toNat_add, BitVec.toNat_ofNat] at hnat
    apply BitVec.eq_of_toNat_eq
    generalize ovr.or (if s.addseg then some seg else none) = g at hlin ⊢
    cases g with
    | none =>
      simp only [BitVec.toNat_add, toNat_extu_mo32, BitVec.toNat_ofNat]
      omega
    | some g =>
      cases hc : s.code64 with
      | true =>
        simp only [if_true, BitVec.toNat_add, toNat_extu_mo32, BitVec.toNat_ofNat, hseg]
        omega
      | false =>
        simp only [hc, Bool.false_eq_true, if_false, toNat_extu_mo32, BitVec.toNat_add,
          BitVec.toNat_ofNat, hseg, forall_true_left] at hlin ⊢
        omega

/-- Room for `n` more elements: the count, and no wrap on the way. -/
structure Room (s : DisasContext) (movs : Bool) (ot : MemOp) (env : Env) (n : ℕ) : Prop where
  count : n ≤ ecx s env
  dst : NoWrap s env.rdi (dstAddr s env) (n * ot.size)
  src : movs → NoWrap s env.rsi (srcAddr s env) (n * ot.size)

theorem mul_size_lt (ot : MemOp) (h : j < n) : j * ot.size < n * ot.size :=
  Nat.mul_lt_mul_of_pos_right h ot.size_pos

theorem srcAddr_advance (h : s.aflag ≠ .mo16) (room : Room s movs ot env n) (hj : j < n)
    (hm : movs = true) :
    srcAddr s (advance s movs ot env j) = srcAddr s env + BitVec.ofNat 64 (j * ot.size) :=
  genLeaVSeg_add h advance_segBase ((extu_advance h movs ot env j).2.2 hm)
    ⟨_, mul_size_lt ot hj, room.src hm⟩

theorem ecx_advance (h : s.aflag ≠ .mo16) (hj : j ≤ ecx s env) :
    ecx s (advance s movs ot env j) = ecx s env - j := by
  unfold ecx at hj ⊢
  rw [(extu_advance h movs ot env j).1]
  have hlt := env.rcx.isLt
  cases hs : s.aflag with
  | mo16 => exact absurd hs h
  | mo32 =>
    rw [hs, toNat_extu_mo32] at hj
    rw [toNat_extu_mo32, toNat_extu_mo32, BitVec.toNat_sub, BitVec.toNat_ofNat]
    omega
  | mo64 =>
    rw [hs] at hj
    simp only [AFlag.extu, BitVec.toNat_sub, BitVec.toNat_ofNat] at hj ⊢
    omega

/-- Within one page, the elements from an address that can be taken are direct. -/
theorem directHost_add {soft : σ} {va : BitVec 64} {access : MMUAccessType} {idx : Fin 256}
    {hv : ℕ} (hva : tlbVaddrToHost mmu soft va access idx = some hv)
    (hpage : va.toNat % targetPageSize + n * ot.size ≤ targetPageSize) (hi : i < n) :
    directHost mmu soft (va + BitVec.ofNat 64 (i * ot.size)) access idx ot =
      some (hv + i * ot.size) := by
  have hlt := va.isLt
  have hend : i * ot.size + ot.size ≤ n * ot.size := by
    rw [← Nat.succ_mul]
    exact Nat.mul_le_mul_right _ hi
  have hpos := ot.size_pos
  unfold targetPageSize at hpage
  have hnat : (va + BitVec.ofNat 64 (i * ot.size)).toNat = va.toNat + i * ot.size := by
    rw [BitVec.toNat_add, BitVec.toNat_ofNat]
    omega
  have hmod : (va.toNat + i * ot.size) % 4096 = va.toNat % 4096 + i * ot.size := by omega
  have hdiv : (va.toNat + i * ot.size) / 4096 = va.toNat / 4096 := by omega
  simp only [tlbVaddrToHost, targetPageSize, Option.map_eq_some_iff] at hva
  obtain ⟨base, hbase, rfl⟩ := hva
  simp only [directHost, tlbVaddrToHost, targetPageSize, hnat, hmod, hdiv, hbase]
  rw [if_pos (by omega), Option.map_some, Nat.add_assoc]

/-! ### Retired elements -/

/-- `n` iterations of the ordinary loop that neither fault nor run out of count. -/
def iterations (mmu : Softmmu σ) (s : DisasContext) (movs : Bool) (ot : MemOp) :
    ℕ → Machine σ → Option (Machine σ)
  | 0, m => some m
  | n + 1, m =>
    (iterations mmu s movs ot n m).bind fun m =>
      if ecx s m.env = 0 then none else (iteration mmu s movs ot m).toOption

theorem iterations_add (m : Machine σ) (a b : ℕ) :
    iterations mmu s movs ot (a + b) m =
      (iterations mmu s movs ot a m).bind (iterations mmu s movs ot b) := by
  induction b with
  | zero => cases iterations mmu s movs ot a m <;> rfl
  | succ b ih =>
    rw [← Nat.add_assoc, iterations, ih, bind_assoc]
    rfl

/-- The host address of the destination of element `i`, if it can be taken. -/
def dstHost (mmu : Softmmu σ) (s : DisasContext) (ot : MemOp) (m : Machine σ) (i : ℕ) : Option ℕ :=
  directHost mmu m.soft (dstAddr s m.env + BitVec.ofNat 64 (i * ot.size)) .dataStore s.memIndex ot

/-- The host address of the source of element `i`, if it can be taken. -/
def srcHost (mmu : Softmmu σ) (s : DisasContext) (ot : MemOp) (m : Machine σ) (i : ℕ) : Option ℕ :=
  directHost mmu m.soft (srcAddr s m.env + BitVec.ofNat 64 (i * ot.size)) .dataLoad s.memIndex ot

/-- The machine `m` after `n` elements, with the memory they left. -/
def Machine.after (s : DisasContext) (movs : Bool) (ot : MemOp) (m : Machine σ) (n : ℕ)
    (ram : Bytes) : Machine σ :=
  ⟨advance s movs ot m.env n, ram, m.soft⟩

/-- The elements `[i, j)` of the instruction started at `m` have been run, from
memory `ram` to memory `ram'`. -/
structure Retired (mmu : Softmmu σ) (s : DisasContext) (movs : Bool) (ot : MemOp) (m : Machine σ)
    (i j : ℕ) (ram ram' : Bytes) : Prop where
  le : i ≤ j
  steps : iterations mmu s movs ot (j - i) (m.after s movs ot i ram) =
    some (m.after s movs ot j ram')
  taken : ∀ e, i ≤ e → e < j →
    (dstHost mmu s ot m e).isSome ∧ (movs → (srcHost mmu s ot m e).isSome)
  frame : ∀ a, ram' a ≠ ram a →
    ∃ e, i ≤ e ∧ e < j ∧ ∃ h, dstHost mmu s ot m e = some h ∧ h ≤ a ∧ a < h + ot.size

variable {m : Machine σ} {ram ram' ram'' : Bytes} {k : ℕ}

theorem Retired.refl (m : Machine σ) (i : ℕ) (ram : Bytes) :
    Retired mmu s movs ot m i i ram ram where
  le := Nat.le_refl i
  steps := by simp [iterations]
  taken e h₁ h₂ := by omega
  frame a h := absurd rfl h

theorem Retired.trans (h₁ : Retired mmu s movs ot m i j ram ram')
    (h₂ : Retired mmu s movs ot m j k ram' ram'') : Retired mmu s movs ot m i k ram ram'' where
  le := Nat.le_trans h₁.le h₂.le
  steps := by
    have hsum : k - i = (j - i) + (k - j) := by
      have := h₁.le
      have := h₂.le
      omega
    rw [hsum, iterations_add, h₁.steps, bind_some, h₂.steps]
  taken e hi hk := by
    by_cases hj : e < j
    · exact h₁.taken e hi hj
    · exact h₂.taken e (by omega) hk
  frame a h := by
    by_cases ha : ram' a = ram a
    · obtain ⟨e, he₁, he₂, h, hrest⟩ := h₂.frame a (ha ▸ h)
      exact ⟨e, Nat.le_trans h₁.le he₁, he₂, h, hrest⟩
    · obtain ⟨e, he₁, he₂, h, hrest⟩ := h₁.frame a ha
      exact ⟨e, he₁, Nat.lt_of_lt_of_le he₂ h₂.le, h, hrest⟩

theorem leBytes_loaded (ram : Bytes) (a : ℕ) (ot : MemOp) :
    leBytes ot.size (BitVec.ofNat 64 (leNat (load ram a ot.size))).toNat = load ram a ot.size := by
  have hlt := leNat_lt (load ram a ot.size)
  rw [length_load] at hlt
  have hpow : 256 ^ ot.size ≤ 256 ^ 8 := Nat.pow_le_pow_right (by omega) ot.size_le
  have hnat : (BitVec.ofNat 64 (leNat (load ram a ot.size))).toNat =
      leNat (load ram a ot.size) := by
    rw [BitVec.toNat_ofNat]
    exact Nat.mod_eq_of_lt (by omega)
  have := leBytes_leNat (load ram a ot.size)
  rw [length_load] at this
  rw [hnat, this]

theorem dshift_forward (h : env.df = 1#32) : env.dshift ot = BitVec.ofNat 64 ot.size := by
  rw [Env.dshift, h, MemOp.size]
  revert ot
  decide

/-- What element `i` stores: the source element, or the low bytes of the accumulator. -/
def elemBytes (movs : Bool) (ot : MemOp) (m : Machine σ) (ram : Bytes) (hs : ℕ) : List UInt8 :=
  if movs then load ram hs ot.size else leBytes ot.size m.env.rax.toNat

theorem iteration_after (h : s.aflag ≠ .mo16) (hdf : m.env.df = 1#32)
    (room : Room s movs ot m.env n) (hi : i < n) {hs : ℕ} (hdst : dstHost mmu s ot m i = some hd)
    (hsrc : movs → srcHost mmu s ot m i = some hs) (ram : Bytes) :
    iteration mmu s movs ot (m.after s movs ot i ram) =
      .ok (m.after s movs ot (i + 1) (store ram hd (elemBytes movs ot m ram hs))) := by
  have hd' : dstAddr s (advance s movs ot m.env i) =
      dstAddr s m.env + BitVec.ofNat 64 (i * ot.size) :=
    genLeaVSeg_add h advance_segBase (extu_advance h movs ot m.env i).2.1
      ⟨_, mul_size_lt ot hi, room.dst⟩
  have hshift : (advance s movs ot m.env i).dshift ot = BitVec.ofNat 64 ot.size :=
    dshift_forward (advance_df.trans hdf)
  unfold dstHost at hdst
  cases movs with
  | false =>
    simp only [iteration, genStos, genOpStV, Machine.after, hd', hdst, hshift, elemBytes,
      Bool.false_eq_true, if_false, advance_rax, movRegV_eq_extu h]
    rw [advance_succ h]
    simp
  | true =>
    have hs' := srcAddr_advance h room hi rfl
    have hsrc' := hsrc rfl
    unfold srcHost at hsrc'
    simp only [iteration, genMovs, genOpLdV, genOpStV, Machine.after, hd', hs', hdst, hsrc',
      hshift, elemBytes, if_true, leBytes_loaded, movRegV_eq_extu h]
    rw [advance_succ h]
    simp

theorem Retired.elem (h : s.aflag ≠ .mo16) (hdf : m.env.df = 1#32) (room : Room s movs ot m.env n)
    (hi : i < n) (hdst : dstHost mmu s ot m i = some hd) (hs : ℕ)
    (hsrc : movs → srcHost mmu s ot m i = some hs) (ram : Bytes) :
    Retired mmu s movs ot m i (i + 1) ram (store ram hd (elemBytes movs ot m ram hs)) where
  le := Nat.le_succ i
  steps := by
    have hcount : ecx s (advance s movs ot m.env i) ≠ 0 := by
      have := room.count
      rw [ecx_advance h (by omega)]
      omega
    have hone : i + 1 - i = 0 + 1 := by omega
    rw [hone, iterations, iterations, bind_some, Machine.after, if_neg hcount]
    exact congrArg Except.toOption (iteration_after h hdf room hi hdst hsrc ram)
  taken e h₁ h₂ := by
    obtain rfl : e = i := by omega
    exact ⟨by rw [hdst]; rfl, fun hm => by rw [hsrc hm]; rfl⟩
  frame a ha := by
    refine ⟨i, Nat.le_refl i, Nat.lt_succ_self i, hd, hdst, ?_⟩
    have hlen : (elemBytes movs ot m ram hs).length = ot.size := by
      unfold elemBytes
      split <;> simp
    by_contra hout
    refine ha (if_neg ?_)
    rw [hlen]
    exact hout

/-! ### Chunks -/

theorem repBulkFill_eq (ram : Bytes) (d : ℕ) (v : BitVec 64) (ot : MemOp) (n : ℕ) :
    repBulkFill ram d v ot n = fillElems ram d (leBytes ot.size v.toNat) n := by
  unfold repBulkFill
  simp only
  split
  · rename_i hrep
    have hbytes : leBytes ot.size (v.toNat % 256 * repunit 8) =
        List.replicate ot.size (UInt8.ofNat (v.toNat % 256)) :=
      leBytes_mul_repunit (Nat.mod_lt _ (by omega)) ot.size_le
    rw [← leBytes_mod ot.size v.toNat, hrep, leBytes_mod, shiftLeft_memOp]
    exact (fillElems_eq_memset ..).symm.trans (congrArg (fillElems ram d · n) hbytes.symm)
  · rfl

theorem mul_size_le_of_le_div {x y : ℕ} (h : n ≤ (x - y) / ot.size) (hy : y ≤ x) :
    y + n * ot.size ≤ x := by
  have := Nat.mul_le_of_le_div _ _ _ h
  omega

theorem page_of_le_pageRoom {va : BitVec 64} (h : n ≤ pageRoom va ot) :
    va.toNat % targetPageSize + n * ot.size ≤ targetPageSize := by
  rw [pageRoom, shiftRight_memOp] at h
  exact mul_size_le_of_le_div h (Nat.mod_lt _ (by decide)).le

theorem addr_add (va : BitVec 64) (i t : ℕ) (ot : MemOp) :
    va + BitVec.ofNat 64 ((i + t) * ot.size) =
      va + BitVec.ofNat 64 (i * ot.size) + BitVec.ofNat 64 (t * ot.size) := by
  rw [Nat.add_mul, BitVec.ofNat_add, BitVec.add_assoc]

theorem Retired.copy (h : s.aflag ≠ .mo16) (hdf : m.env.df = 1#32) (room : Room s true ot m.env n)
    (hn : i + k ≤ n) {hs : ℕ}
    (hdst : ∀ t, t < k → dstHost mmu s ot m (i + t) = some (hd + t * ot.size))
    (hsrc : ∀ t, t < k → srcHost mmu s ot m (i + t) = some (hs + t * ot.size)) (ram : Bytes) :
    Retired mmu s true ot m i (i + k) ram (copyElems ram hd hs ot.size k) := by
  induction k with
  | zero => exact .refl m i ram
  | succ k ih =>
    have hprev := ih (by omega) (fun t ht => hdst t (by omega)) (fun t ht => hsrc t (by omega))
    exact hprev.trans (.elem h hdf room (by omega) (hdst k (by omega)) (hs + k * ot.size)
      (fun _ => hsrc k (by omega)) _)

theorem Retired.fill (h : s.aflag ≠ .mo16) (hdf : m.env.df = 1#32) (room : Room s false ot m.env n)
    (hn : i + k ≤ n) (hdst : ∀ t, t < k → dstHost mmu s ot m (i + t) = some (hd + t * ot.size))
    (ram : Bytes) :
    Retired mmu s false ot m i (i + k) ram
      (fillElems ram hd (leBytes ot.size m.env.rax.toNat) k) := by
  induction k with
  | zero => exact .refl m i ram
  | succ k ih =>
    have hprev := ih (by omega) (fun t ht => hdst t (by omega))
    rw [fillElems, length_leBytes]
    exact hprev.trans (.elem h hdf room (by omega) (hdst k (by omega)) 0 (by simp) _)

theorem cutOverlap_le (hs hd n : ℕ) (ot : MemOp) : cutOverlap hs hd n ot ≤ n := by
  unfold cutOverlap
  split <;> omega

theorem cutOverlap_disjoint (hs hd n : ℕ) (ot : MemOp) :
    hd ≤ hs ∨ hs + cutOverlap hs hd n ot * ot.size ≤ hd := by
  unfold cutOverlap
  rw [shiftLeft_memOp, shiftRight_memOp]
  split
  · rename_i hlap
    exact .inr (mul_size_le_of_le_div (Nat.min_le_right _ _) (by omega))
  · omega

def contextInfo (s : DisasContext) (ot : MemOp) (movs : Bool) : RepInfo where
  ot := ot
  aflag64 := s.aflag = .mo64
  movs := movs
  code64 := s.code64
  mmuIdx := s.memIndex

theorem repBulkChunk_retired (h : s.aflag ≠ .mo16) (hdf : m.env.df = 1#32)
    (room : Room s movs ot m.env n) (hi : i ≤ n)
    (hdst : dst = dstAddr s m.env + BitVec.ofNat 64 (i * ot.size))
    (hsrc : movs → src = srcAddr s m.env + BitVec.ofNat 64 (i * ot.size))
    (hchunk : repBulkChunk mmu (contextInfo s ot movs) m.soft m.env.rax (n - i) dst src ram =
      some (k, ram')) : i + k ≤ n ∧ Retired mmu s movs ot m i (i + k) ram ram' := by
  revert hchunk
  fun_cases repBulkChunk mmu (contextInfo s ot movs) m.soft m.env.rax (n - i) dst src ram with
  | case5 n₁ n₂ hpos hmovs hs hsrcHost hd hdstHost n₃ hcut' =>
    obtain rfl : movs = true := hmovs
    intro heq
    obtain ⟨hk, rfl⟩ := Prod.mk.inj (Option.some.inj heq)
    change n₃ = k at hk
    rw [← hk]
    have hcut : n₃ ≤ min (min (n - i) (pageRoom dst ot)) (pageRoom src ot) := cutOverlap_le ..
    have hle : i + n₃ ≤ n := by omega
    refine ⟨hle, ?_⟩
    rw [shiftLeft_memOp, ← copyElems_eq_memmove (cutOverlap_disjoint ..)]
    refine .copy h hdf room hle (fun t ht => ?_) (fun t ht => ?_) ram
    · rw [dstHost, addr_add, ← hdst]
      exact directHost_add hdstHost (page_of_le_pageRoom (by omega)) ht
    · rw [srcHost, addr_add, ← hsrc rfl]
      exact directHost_add hsrcHost (page_of_le_pageRoom (by omega)) ht
  | case7 n₁ n₂ hpos hmovs hd hhost =>
    obtain rfl : movs = false := Bool.eq_false_iff.mpr hmovs
    intro heq
    obtain ⟨hk, rfl⟩ := Prod.mk.inj (Option.some.inj heq)
    rw [← hk]
    have hle : i + min (n - i) (pageRoom dst ot) ≤ n := by omega
    refine ⟨hle, ?_⟩
    rw [repBulkFill_eq]
    refine .fill h hdf room hle (fun t ht => ?_) ram
    rw [dstHost, addr_add, ← hdst]
    exact directHost_add hhost (page_of_le_pageRoom (Nat.min_le_right _ _)) ht
  | _ => nofun

/-! ### The helper call -/

theorem repBulkLoop_retired (mmu : Softmmu σ) (ram : Bytes) (h : s.aflag ≠ .mo16)
    (hdf : m.env.df = 1#32) (room : Room s movs ot m.env n) (chunks : ℕ) (hi : i ≤ n)
    (hdst : dst = dstAddr s m.env + BitVec.ofNat 64 (i * ot.size))
    (hsrc : movs → src = srcAddr s m.env + BitVec.ofNat 64 (i * ot.size)) :
    (repBulkLoop mmu (contextInfo s ot movs) m.soft m.env.rax n chunks dst src i ram).1 ≤ n ∧
    Retired mmu s movs ot m i
      (repBulkLoop mmu (contextInfo s ot movs) m.soft m.env.rax n chunks dst src i ram).1 ram
      (repBulkLoop mmu (contextInfo s ot movs) m.soft m.env.rax n chunks dst src i ram).2 := by
  induction chunks generalizing i dst src ram with
  | zero => exact ⟨hi, .refl m i ram⟩
  | succ chunks ih =>
    rw [repBulkLoop]
    split
    · split
      · exact ⟨hi, .refl m i ram⟩
      · rename_i k ram' hchunk
        obtain ⟨hle, hretired⟩ := repBulkChunk_retired h hdf room hi hdst hsrc hchunk
        have hbytes : BitVec.ofNat 64 (k <<< (contextInfo s ot movs).ot.val) =
            BitVec.ofNat 64 (k * ot.size) := by
          rw [contextInfo, shiftLeft_memOp]
        simp only [hbytes]
        have hdst' : dst + BitVec.ofNat 64 (k * ot.size) =
            dstAddr s m.env + BitVec.ofNat 64 ((i + k) * ot.size) := by
          rw [addr_add, hdst]
        have hsrc' (hm : movs = true) :
            (if movs then src + BitVec.ofNat 64 (k * ot.size) else src) =
              srcAddr s m.env + BitVec.ofNat 64 ((i + k) * ot.size) := by
          rw [addr_add, if_pos hm, hsrc hm]
        obtain ⟨hend, hrest⟩ := ih ram' hle hdst' hsrc'
        exact ⟨hend, hretired.trans hrest⟩
    · exact ⟨hi, .refl m i ram⟩

theorem repLimit_room (h : s.aflag ≠ .mo16) (movs : Bool) (ot : MemOp) (env : Env) :
    Room s movs ot env (repLimit (contextInfo s ot movs) env (dstAddr s env)
      (if movs then srcAddr s env else 0) (ecx s env)) := by
  have hroom {x : BitVec 64} {l : ℕ} (hl : l ≤ (0x100000000 - x.toNat % 0x100000000) / ot.size) :
      x.toNat % 2 ^ 32 + l * ot.size ≤ 2 ^ 32 :=
    mul_size_le_of_le_div hl (by omega)
  unfold repLimit
  simp only [contextInfo, shiftRight_memOp]
  cases hs : s.aflag with
  | mo16 => exact absurd hs h
  | mo64 => exact ⟨by simp, by simp [NoWrap, hs], by simp [NoWrap, hs]⟩
  | mo32 =>
    simp only [reduceCtorEq, decide_false, Bool.false_eq_true, if_false]
    cases movs <;> cases hc : s.code64
    all_goals simp only [Bool.false_eq_true, if_false, if_true]
    · exact ⟨by omega, fun _ => ⟨hroom (by omega), fun _ => hroom (by omega)⟩, nofun⟩
    · exact ⟨by omega, fun _ => ⟨hroom (by omega), by simp [hc]⟩, nofun⟩
    · exact ⟨by omega, fun _ => ⟨hroom (by omega), fun _ => hroom (by omega)⟩,
        fun _ _ => ⟨hroom (by omega), fun _ => hroom (by omega)⟩⟩
    · exact ⟨by omega, fun _ => ⟨hroom (by omega), by simp [hc]⟩,
        fun _ _ => ⟨hroom (by omega), by simp [hc]⟩⟩

structure BulkSpec (mmu : Softmmu σ) (s : DisasContext) (movs : Bool) (ot : MemOp)
    (m m' : Machine σ) (done : ℕ) : Prop where
  done_le : done ≤ ecx s m.env
  /-- It is `done` single iterations, in memory and in registers. -/
  steps : iterations mmu s movs ot done m = some m'
  env : m'.env = advance s movs ot m.env done
  soft : m'.soft = m.soft
  /-- Every element it ran lay on pages that can be taken. -/
  taken : ∀ e, e < done →
    (dstHost mmu s ot m e).isSome ∧ (movs → (srcHost mmu s ot m e).isSome)
  /-- No byte changes but those of its elements. -/
  frame : ∀ a, m'.ram a ≠ m.ram a →
    ∃ e, e < done ∧ ∃ h, dstHost mmu s ot m e = some h ∧ h ≤ a ∧ a < h + ot.size
  /-- It leaves instructions that run downwards alone. -/
  backward : m.env.df ≠ 1#32 → m' = m

theorem BulkSpec.refl (mmu : Softmmu σ) (s : DisasContext) (movs : Bool) (ot : MemOp)
    (m : Machine σ) : BulkSpec mmu s movs ot m m 0 where
  done_le := Nat.zero_le _
  steps := rfl
  env := advance_zero.symm
  soft := rfl
  taken e h := absurd h (Nat.not_lt_zero e)
  frame _ h := absurd rfl h
  backward _ := rfl

theorem BulkSpec.of_retired (hdf : m.env.df = 1#32) {done : ℕ} (hle : done ≤ ecx s m.env)
    (h : Retired mmu s movs ot m 0 done m.ram ram) :
    BulkSpec mmu s movs ot m (m.after s movs ot done ram) done where
  done_le := hle
  steps := by simpa [Machine.after] using h.steps
  env := rfl
  soft := rfl
  taken e he := h.taken e (Nat.zero_le e) he
  frame a ha := by
    obtain ⟨e, -, he⟩ := h.frame a ha
    exact ⟨e, he⟩
  backward h := absurd hdf h

theorem helperRepBulk_eq (h : s.aflag ≠ .mo16) (hdf : m.env.df = 1#32) (hcnt : ecx s m.env ≠ 0)
    {done : ℕ} (hloop : repBulkLoop mmu (contextInfo s ot movs) m.soft m.env.rax
      (repLimit (contextInfo s ot movs) m.env dst src (ecx s m.env)) 64 dst src 0 m.ram =
        (done, ram)) :
    helperRepBulk mmu m dst src (packInfo s ot movs) = m.after s movs ot done ram := by
  have hmask (x : BitVec 64) : x &&& (contextInfo s ot movs).amask = s.aflag.extu x :=
    and_amask h _ rfl x
  have hinfo : unpackInfo (packInfo s ot movs) = contextInfo s ot movs :=
    unpackInfo_packInfo h ot movs
  have hecx : (s.aflag.extu m.env.rcx).toNat = ecx s m.env := rfl
  simp only [helperRepBulk, hinfo, hmask, hecx, hloop]
  rw [if_neg (by simp [hdf, hcnt])]
  by_cases hdone : done = 0
  · subst hdone
    simp [Machine.after]
  · rw [if_neg hdone, Machine.after, advance, if_neg hdone]
    simp only [contextInfo, shiftLeft_memOp]

/-- Every helper call runs some number of single iterations. -/
theorem genRepBulk_spec (mmu : Softmmu σ) (s : DisasContext) (movs : Bool) (ot : MemOp)
    (m : Machine σ) : ∃ done, BulkSpec mmu s movs ot m (genRepBulk mmu s movs ot m) done := by
  unfold genRepBulk
  split
  · rename_i hemit
    have h : s.aflag ≠ .mo16 := by
      intro h16
      simp [bulkEmitted, h16] at hemit
    by_cases hrun : m.env.df = 1#32 ∧ ecx s m.env ≠ 0
    · obtain ⟨hdf, hcnt⟩ := hrun
      have hroom := repLimit_room h movs ot m.env
      have hzero (va : BitVec 64) : va = va + BitVec.ofNat 64 (0 * ot.size) := by simp
      obtain ⟨hend, hretired⟩ := repBulkLoop_retired mmu m.ram h hdf hroom 64
        (Nat.zero_le _) (hzero _) (fun hm => (if_pos hm).trans (hzero _))
      rw [helperRepBulk_eq h hdf hcnt rfl]
      exact ⟨_, .of_retired hdf (Nat.le_trans hend hroom.count) hretired⟩
    · refine ⟨0, ?_⟩
      have hmask : m.env.rcx &&& (unpackInfo (packInfo s ot movs)).amask = s.aflag.extu m.env.rcx :=
        and_amask h _ (by rw [unpackInfo_packInfo h]) _
      have hskip : m.env.df ≠ 1#32 ∨ (s.aflag.extu m.env.rcx).toNat = 0 := by
        by_contra hno
        push Not at hno
        exact hrun hno
      simp only [helperRepBulk, hmask]
      rw [if_pos hskip]
      exact .refl mmu s movs ot m
  · exact ⟨0, .refl mmu s movs ot m⟩

end Bootbox.RepString
