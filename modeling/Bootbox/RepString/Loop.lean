import Bootbox.RepString.Bulk

/-!
The whole instruction. `gen_repz` tests the count, lets the helper run what it
can, runs one ordinary iteration and goes back to the instruction. The loop with
the helper ends as the loop without it does: in the same state, or in the same
fault with the same state.
-/

namespace Bootbox.RepString

open Lib ByteMemory BitVec

variable {σ : Type*} {mmu : Softmmu σ} {s : DisasContext} {movs : Bool} {ot : MemOp}
  {m m' : Machine σ}

theorem genOpLdV_env (mmu : Softmmu σ) (s : DisasContext) (m : Machine σ) (va : BitVec 64)
    (ot : MemOp) :
    (genOpLdV mmu s m va ot).2.env = m.env := by
  unfold genOpLdV
  split <;> rfl

theorem genOpStV_env (mmu : Softmmu σ) (s : DisasContext) (m : Machine σ) (va : BitVec 64)
    (ot : MemOp) (t0 : BitVec 64) :
    (genOpStV mmu s m va ot t0).2.env = m.env := by
  unfold genOpStV
  split <;> rfl

theorem genStos_rcx (h : genStos mmu s ot m = .ok m') : m'.env.rcx = m.env.rcx := by
  unfold genStos at h
  have henv := genOpStV_env mmu s m (genStringMovlA0EDI s m.env) ot m.env.rax
  split at h
  · cases h
  · rename_i m₁ hst
    rw [hst] at henv
    have hrcx := congrArg Env.rcx henv
    cases h
    exact hrcx

theorem genMovs_rcx (h : genMovs mmu s ot m = .ok m') : m'.env.rcx = m.env.rcx := by
  unfold genMovs at h
  have hld := genOpLdV_env mmu s m (genStringMovlA0ESI s m.env) ot
  split at h
  · cases h
  · rename_i t0 m₁ hload
    rw [hload] at hld
    have hst := genOpStV_env mmu s m₁ (genStringMovlA0EDI s m₁.env) ot t0
    split at h
    · cases h
    · rename_i m₂ hstore
      rw [hstore] at hst
      have hrcx := congrArg Env.rcx (hst.trans hld)
      cases h
      exact hrcx

/-- Writing back the decremented count lowers what the loop tests by one. -/
theorem extu_movRegV (a : AFlag) (reg t0 : BitVec 64) : a.extu (a.movRegV reg t0) = a.extu t0 := by
  cases a with
  | mo16 =>
    have hlow : (~~~0xffff#64).setWidth 16 = 0#16 := by decide
    have hmask : (0xffff#64).setWidth 16 = allOnes 16 := by decide
    simp only [AFlag.extu, AFlag.movRegV, setWidth_or, setWidth_and, hlow, hmask,
      and_zero, zero_or, and_allOnes]
  | mo32 =>
    apply eq_of_toNat_eq
    simp only [AFlag.movRegV, AFlag.extu, toNat_setWidth]
    omega
  | mo64 => rfl

theorem extu_sub_one (a : AFlag) {x : BitVec 64} (h : (a.extu x).toNat ≠ 0) :
    (a.extu (x - 1#64)).toNat = (a.extu x).toNat - 1 := by
  have hx := x.isLt
  cases a <;> simp only [AFlag.extu, toNat_setWidth, toNat_sub, toNat_ofNat]
    at h ⊢ <;> omega

theorem ecx_iteration (h : iteration mmu s movs ot m = .ok m') (hcnt : ecx s m.env ≠ 0) :
    ecx s m'.env = ecx s m.env - 1 := by
  unfold iteration at h
  split at h
  · cases h
  · rename_i m₁ hfn
    have hrcx : m₁.env.rcx = m.env.rcx := by
      split at hfn
      · exact genMovs_rcx hfn
      · exact genStos_rcx hfn
    cases h
    simp only [ecx, extu_movRegV, hrcx]
    exact extu_sub_one s.aflag hcnt

theorem ecx_genRepBulk_le (mmu : Softmmu σ) (s : DisasContext) (movs : Bool) (ot : MemOp)
    (m : Machine σ) : ecx s (genRepBulk mmu s movs ot m).env ≤ ecx s m.env := by
  by_cases h : s.aflag = .mo16
  · simp [genRepBulk, bulkEmitted, h]
  · obtain ⟨done, spec⟩ := genRepBulk_spec mmu s movs ot m
    rw [spec.env, ecx_advance h spec.done_le]
    omega

theorem genRepBulk_of_not_emitted (h : bulkEmitted s = false) (mmu : Softmmu σ) (movs : Bool)
    (ot : MemOp) (m : Machine σ) :
    genRepBulk mmu s movs ot m = m := by
  simp [genRepBulk, h]

theorem ecx_genRepBulk_ne_zero (h₀ : ¬ecx s m.env = 0)
    (h₁ : ¬(bulkEmitted s ∧ ecx s (genRepBulk mmu s movs ot m).env = 0)) :
    ecx s (genRepBulk mmu s movs ot m).env ≠ 0 := by
  intro hzero
  cases hemit : bulkEmitted s with
  | true => exact h₁ ⟨hemit, hzero⟩
  | false =>
    rw [genRepBulk_of_not_emitted hemit] at hzero
    exact h₀ hzero

/-- `gen_repz` for the two operations: the instruction run to its end, or to a
fault. -/
def genRepz (mmu : Softmmu σ) (s : DisasContext) (movs : Bool) (ot : MemOp) (m : Machine σ) :
    Except (Machine σ) (Machine σ) :=
  if _h₀ : ecx s m.env = 0 then .ok m
  else if _h₁ : bulkEmitted s ∧ ecx s (genRepBulk mmu s movs ot m).env = 0 then
    .ok (genRepBulk mmu s movs ot m)
  else
    match _h₂ : iteration mmu s movs ot (genRepBulk mmu s movs ot m) with
    | .error m' => .error m'
    | .ok m' =>
      if s.repzOpt ∧ ecx s m'.env = 0 then .ok m'
      else genRepz mmu s movs ot m'
termination_by ecx s m.env
decreasing_by
  have hle := ecx_genRepBulk_le mmu s movs ot m
  have hne := ecx_genRepBulk_ne_zero _h₀ _h₁
  have hstep := ecx_iteration _h₂ hne
  omega

/-! ### The ordinary loop -/

def DisasContext.plain (s : DisasContext) : DisasContext := { s with repbulkOn := false }

theorem bulkEmitted_plain (s : DisasContext) : bulkEmitted s.plain = false := by
  simp [bulkEmitted, DisasContext.plain]

theorem iteration_plain (m : Machine σ) :
    iteration mmu s.plain movs ot m = iteration mmu s movs ot m := rfl

theorem genRepz_of_ecx_eq_zero (h : ecx s m.env = 0) :
    genRepz mmu s.plain movs ot m = .ok m := by
  rw [genRepz, dif_pos (show ecx s.plain m.env = 0 from h)]

theorem genRepz_plain_step (h : ecx s m.env ≠ 0) : genRepz mmu s.plain movs ot m =
    match iteration mmu s movs ot m with
    | .error m' => .error m'
    | .ok m' => genRepz mmu s.plain movs ot m' := by
  have hplain := genRepBulk_of_not_emitted (bulkEmitted_plain s) mmu movs ot m
  rw [genRepz, dif_neg (show ¬ecx s.plain m.env = 0 from h), dif_neg (by simp [bulkEmitted_plain])]
  split
  · rename_i m₁ h₁
    rw [hplain, iteration_plain] at h₁
    rw [h₁]
  · rename_i m₁ h₁
    rw [hplain, iteration_plain] at h₁
    rw [h₁]
    split
    · rename_i hend
      exact (genRepz_of_ecx_eq_zero hend.2).symm
    · rfl

theorem genRepz_plain_iterations {n : ℕ} (h : iterations mmu s movs ot n m = some m') :
    genRepz mmu s.plain movs ot m = genRepz mmu s.plain movs ot m' := by
  induction n generalizing m' with
  | zero =>
    cases h
    rfl
  | succ n ih =>
    obtain ⟨m₁, hfirst, hlast⟩ := Option.bind_eq_some_iff.mp h
    split at hlast
    · cases hlast
    · rename_i hcnt
      rw [ih hfirst]
      cases hstep : iteration mmu s movs ot m₁ with
      | error m₂ =>
        rw [hstep] at hlast
        cases hlast
      | ok m₂ =>
        rw [hstep] at hlast
        cases hlast
        rw [genRepz_plain_step hcnt, hstep]

theorem genRepz_plain_genRepBulk (m : Machine σ) :
    genRepz mmu s.plain movs ot m = genRepz mmu s.plain movs ot (genRepBulk mmu s movs ot m) := by
  obtain ⟨done, spec⟩ := genRepBulk_spec mmu s movs ot m
  exact genRepz_plain_iterations spec.steps

theorem genRepz_eq_plain (mmu : Softmmu σ) (s : DisasContext) (movs : Bool) (ot : MemOp)
    (m : Machine σ) : genRepz mmu s movs ot m = genRepz mmu s.plain movs ot m := by
  fun_induction genRepz mmu s movs ot m with
  | case1 m h₀ => exact (genRepz_of_ecx_eq_zero h₀).symm
  | case2 m h₀ h₁ =>
    rw [genRepz_plain_genRepBulk]
    exact (genRepz_of_ecx_eq_zero h₁.2).symm
  | case3 m h₀ h₁ m' h₂ =>
    rw [genRepz_plain_genRepBulk]
    rw [genRepz_plain_step (ecx_genRepBulk_ne_zero h₀ h₁), h₂]
  | case4 m h₀ h₁ m' h₂ h₃ =>
    rw [genRepz_plain_genRepBulk, genRepz_plain_step (ecx_genRepBulk_ne_zero h₀ h₁), h₂]
    exact (genRepz_of_ecx_eq_zero h₃.2).symm
  | case5 m h₀ h₁ m' h₂ h₃ ih =>
    rw [ih]
    symm
    rw [genRepz_plain_genRepBulk, genRepz_plain_step (ecx_genRepBulk_ne_zero h₀ h₁), h₂]

/-- The bulk path against the ordinary loop, for every register state, memory and
page mapping: each helper call is a number of single iterations on pages it can
take, and the instruction as a whole ends as the ordinary loop does. -/
theorem repBulk_refines_loop (mmu : Softmmu σ) (s : DisasContext) (movs : Bool) (ot : MemOp)
    (m : Machine σ) :
    (∃ done, BulkSpec mmu s movs ot m (genRepBulk mmu s movs ot m) done) ∧
      genRepz mmu s movs ot m = genRepz mmu s.plain movs ot m :=
  ⟨genRepBulk_spec mmu s movs ot m, genRepz_eq_plain mmu s movs ot m⟩

theorem env_of_fault (h : iteration mmu s movs ot m = .error m') : m'.env = m.env := by
  unfold iteration genMovs genStos at h
  grind [genOpLdV_env, genOpStV_env]

/-- The instruction runs as many single iterations as its count says, or those before one that
faults, and then the registers are as before that one; and started again after any number of
iterations, it ends as it would have. -/
theorem genRepz_restartable (mmu : Softmmu σ) (s : DisasContext) (movs : Bool) (ot : MemOp)
    (m : Machine σ) :
    ((∃ m', genRepz mmu s movs ot m = .ok m' ∧
      iterations mmu s movs ot (ecx s m.env) m = some m') ∨
    ∃ n < ecx s m.env, ∃ m₁ m', genRepz mmu s movs ot m = .error m' ∧ m'.env = m₁.env ∧
      iterations mmu s movs ot n m = some m₁ ∧ iteration mmu s movs ot m₁ = .error m') ∧
    ∀ n m₁, iterations mmu s movs ot n m = some m₁ →
      genRepz mmu s movs ot m₁ = genRepz mmu s movs ot m := by
  have hplain := genRepz_eq_plain mmu s movs ot
  refine ⟨?_, fun n m₁ h => by rw [hplain m₁, hplain m, genRepz_plain_iterations h]⟩
  rw [hplain]
  induction hn : ecx s m.env generalizing m with
  | zero => exact .inl ⟨m, genRepz_of_ecx_eq_zero hn, rfl⟩
  | succ n ih =>
    have hcnt : ecx s m.env ≠ 0 := by omega
    rw [genRepz_plain_step hcnt]
    cases hstep : iteration mmu s movs ot m with
    | error m' => exact .inr ⟨0, n.succ_pos, m, m', rfl, env_of_fault hstep, rfl, hstep⟩
    | ok m₁ =>
      have hfirst : ∀ k, iterations mmu s movs ot (k + 1) m = iterations mmu s movs ot k m₁ := by
        intro k
        rw [Nat.add_comm, iterations_add]
        simp [iterations, hcnt, hstep, Except.toOption]
      rcases ih m₁ (by rw [ecx_iteration hstep hcnt, hn]; rfl) with hend | ⟨k, hk, hfault⟩
      · exact .inl (hfirst n ▸ hend)
      · exact .inr ⟨k + 1, Nat.succ_lt_succ hk, hfirst k ▸ hfault⟩

end Bootbox.RepString
