import Mathlib.Tactic.Common

/-!
Computations that count their steps.

A computation is run with a number of steps that it may take. It returns a value and the
number of steps that are left, throws, or runs out of steps. `Within m c P` says that `m` needs
at most `c` steps, whatever it is given beyond these, and that its value has `P`; `Stuck m` that
no number of steps is enough. Both have a rule for sequencing and for a counted loop.
-/

namespace Bootbox.Lib

/-- A computation with a budget of steps. An error without a reason is the end of the budget. -/
def Budget (ε α : Type) : Type := ℕ → Except (Option ε) (α × ℕ)

namespace Budget

variable {ε α β σ : Type}

variable {c : ℕ}

instance : Monad (Budget ε) where
  pure a := fun n => .ok (a, n)
  bind m f := fun n =>
    match m n with
    | .ok (a, n') => f a n'
    | .error e => .error e

def tick : Budget ε Unit
  | 0 => .error none
  | n + 1 => .ok ((), n)

def throw (e : ε) : Budget ε α := fun _ => .error (some e)

/-- `for (let i = start; ...; i++)`, `count` times. -/
def loop (body : ℕ → σ → Budget ε σ) : ℕ → ℕ → σ → Budget ε σ
  | 0, _, s => pure s
  | count + 1, i, s => do
      tick
      let s ← body i s
      loop body count (i + 1) s

theorem bind_apply (m : Budget ε α) (f : α → Budget ε β) (n : ℕ) :
    (m >>= f) n = match m n with
      | .ok (a, n') => f a n'
      | .error e => .error e := rfl

/-! ### Enough steps -/

/-- `c` steps are enough, and a value that is returned has `P`. -/
def Within (m : Budget ε α) (c : ℕ) (P : α → Prop) : Prop :=
  ∀ n, c ≤ n → (∃ e, m n = .error (some e)) ∨ ∃ a n', m n = .ok (a, n') ∧ n ≤ n' + c ∧ P a

variable {P : α → Prop}

theorem Within.pure {a : α} (h : P a) : Within (Pure.pure a : Budget ε α) 0 P :=
  fun n _ => .inr ⟨a, n, rfl, Nat.le_refl _, h⟩

theorem Within.throw (e : ε) (P : α → Prop) : Within (Budget.throw e) 0 P :=
  fun _ _ => .inl ⟨e, rfl⟩

theorem Within.tick : Within (Budget.tick : Budget ε Unit) 1 fun _ => True := by
  intro n hn
  cases n with
  | zero => omega
  | succ n => exact .inr ⟨(), n, rfl, Nat.le_refl _, trivial⟩

variable {m : Budget ε α}

theorem Within.mono {c' : ℕ} {Q : α → Prop} (h : Within m c P) (hc : c ≤ c') (hP : ∀ a, P a → Q a) :
    Within m c' Q := by
  intro n hn
  rcases h n (Nat.le_trans hc hn) with herror | ⟨a, n', hrun, hle, ha⟩
  · exact .inl herror
  · exact .inr ⟨a, n', hrun, by omega, hP a ha⟩

variable {f : α → Budget ε β}

theorem Within.bind {d : ℕ} {Q : β → Prop} (h : Within m c P) (hf : ∀ a, P a → Within (f a) d Q) :
    Within (m >>= f) (c + d) Q := by
  intro n hn
  rw [bind_apply]
  rcases h n (by omega) with ⟨e, herror⟩ | ⟨a, n', hrun, hle, ha⟩
  · rw [herror]
    exact .inl ⟨e, rfl⟩
  · rw [hrun]
    rcases hf a ha n' (by omega) with herror | ⟨b, n'', hrun', hle', hb⟩
    · exact .inl herror
    · exact .inr ⟨b, n'', hrun', by omega, hb⟩

theorem Within.loop {body : ℕ → σ → Budget ε σ} (count i : ℕ) (s : σ)
    (h : ∀ j s, i ≤ j → j < i + count → Within (body j s) c fun _ => True) :
    Within (Budget.loop body count i s) (count * (c + 1)) fun _ => True := by
  induction count generalizing i s with
  | zero => exact (Within.pure trivial).mono (Nat.zero_le _) fun _ h => h
  | succ count ih =>
    have hbody : ∀ s', Within (Budget.loop body count (i + 1) s') (count * (c + 1))
        fun _ => True := by
      intro s'
      exact ih (i + 1) s' fun j s'' hij hj => h j s'' (by omega) (by omega)
    have hall := Within.tick (ε := ε).bind fun _ _ =>
      (h i s (Nat.le_refl i) (by omega)).bind fun s' _ => hbody s'
    exact hall.mono (by rw [Nat.succ_mul]; omega) fun _ h => h

theorem Within.ne_error (h : Within m c P) : m c ≠ .error none := by
  rcases h c (Nat.le_refl c) with ⟨e, herror⟩ | ⟨a, n', hrun, -⟩
  · rw [herror]
    simp
  · rw [hrun]
    simp

/-! ### Never enough steps -/

def Stuck (m : Budget ε α) : Prop := ∀ n, m n = .error none

/-- Nothing is thrown, and a value that is returned has `P`. -/
def NoThrow (m : Budget ε α) (P : α → Prop) : Prop :=
  ∀ n, m n = .error none ∨ ∃ a n', m n = .ok (a, n') ∧ P a

theorem Stuck.noThrow (h : Stuck m) (P : α → Prop) : NoThrow m P :=
  fun n => .inl (h n)

theorem NoThrow.pure {a : α} (h : P a) : NoThrow (Pure.pure a : Budget ε α) P :=
  fun n => .inr ⟨a, n, rfl, h⟩

theorem NoThrow.tick : NoThrow (Budget.tick : Budget ε Unit) fun _ => True := by
  intro n
  cases n with
  | zero => exact .inl rfl
  | succ n => exact .inr ⟨(), n, rfl, trivial⟩

theorem NoThrow.bind {Q : β → Prop} (h : NoThrow m P) (hf : ∀ a, P a → NoThrow (f a) Q) :
    NoThrow (m >>= f) Q := by
  intro n
  rw [bind_apply]
  rcases h n with herror | ⟨a, n', hrun, ha⟩
  · rw [herror]
    exact .inl rfl
  · rw [hrun]
    exact hf a ha n'

theorem NoThrow.stuck_bind (h : NoThrow m P) (hf : ∀ a, P a → Stuck (f a)) : Stuck (m >>= f) := by
  intro n
  rw [bind_apply]
  rcases h n with herror | ⟨a, n', hrun, ha⟩
  · rw [herror]
  · rw [hrun]
    exact hf a ha n'

theorem Stuck.bind (h : Stuck m) (f : α → Budget ε β) : Stuck (m >>= f) :=
  (h.noThrow fun _ => False).stuck_bind fun _ hfalse => hfalse.elim

theorem Stuck.loop {body : ℕ → σ → Budget ε σ} {k : ℕ} (count i : ℕ) (s : σ) (hik : i ≤ k)
    (hk : k < i + count) (hstuck : ∀ s, Stuck (body k s))
    (hbefore : ∀ j s, j < k → NoThrow (body j s) fun _ => True) :
    Stuck (Budget.loop body count i s) := by
  induction count generalizing i s with
  | zero => omega
  | succ count ih =>
    refine NoThrow.tick.stuck_bind fun _ _ => ?_
    by_cases heq : i = k
    · subst heq
      exact (hstuck s).bind _
    · refine (hbefore i s (by omega)).stuck_bind fun s' _ => ?_
      exact ih (i + 1) s' (by omega) (by omega)

end Budget

end Bootbox.Lib
