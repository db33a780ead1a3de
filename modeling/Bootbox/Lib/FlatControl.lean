import Bootbox.Lib.Machine

/-!
The structured control of a wasm function as its flat instruction stream has it:
`if` and `loop` open a scope, `end` closes the innermost one, `br d` leaves the
`d` innermost scopes and goes on where the next one says, behind the `end` of an
`if` or at the head of a `loop`. Everything else is a plain action, a test is
the operand of an `if`, and both are parameters.
-/

namespace Bootbox.Lib.FlatControl

open Bootbox.Lib.Machine

/-- An instruction, the conditions of its `if`s included. -/
inductive Tok (α τ ρ : Type)
  | act (a : α)
  | ifT (t : τ)
  | loop
  | fin
  | br (depth : ℕ)
  | ret (r : ρ)
  | unreachable
  deriving DecidableEq, Repr

variable {α τ ρ σ : Type}

/-- What follows the `end` that closes the scope `depth` levels out. -/
def skip : ℕ → List (Tok α τ ρ) → Option (List (Tok α τ ρ))
  | _, [] => none
  | depth, .ifT _ :: k => skip (depth + 1) k
  | depth, .loop :: k => skip (depth + 1) k
  | 0, .fin :: k => some k
  | depth + 1, .fin :: k => skip depth k
  | depth, .act _ :: k => skip depth k
  | depth, .br _ :: k => skip depth k
  | depth, .ret _ :: k => skip depth k
  | depth, .unreachable :: k => skip depth k

/-- Code that closes each scope it opens and no other. -/
def Balanced (l : List (Tok α τ ρ)) : Prop :=
  ∀ depth k, skip depth (l ++ k) = skip depth k

namespace Balanced

variable {l l' : List (Tok α τ ρ)}

theorem nil : Balanced ([] : List (Tok α τ ρ)) := fun _ _ => rfl

theorem act (a : α) (h : Balanced l) : Balanced (.act a :: l) := by
  intro depth k
  cases depth <;> exact h _ k

theorem br (d : ℕ) (h : Balanced l) : Balanced (.br d :: l) := by
  intro depth k
  cases depth <;> exact h _ k

theorem ret (r : ρ) (h : Balanced l) : Balanced (.ret r :: l) := by
  intro depth k
  cases depth <;> exact h _ k

theorem ifT (t : τ) (h : Balanced l) (h' : Balanced l') :
    Balanced (.ifT t :: (l ++ .fin :: l')) := by
  intro depth k
  have hopen : skip depth (.ifT t :: (l ++ .fin :: l') ++ k)
      = skip (depth + 1) (l ++ (.fin :: (l' ++ k))) := by
    cases depth <;> simp [skip]
  rw [hopen, h]
  exact h' depth k

end Balanced

structure Sem (α τ σ : Type) where
  act : α → σ → σ
  test : τ → σ → Bool

/-- The rest of the code, where a `br` out of each open scope goes on, and the state. -/
structure Cfg (α τ ρ σ : Type) where
  code : List (Tok α τ ρ)
  labels : List (List (Tok α τ ρ))
  st : σ

/-- One instruction. A function ends with a value or in a trap. -/
def step (S : Sem α τ σ) (c : Cfg α τ ρ σ) : Cfg α τ ρ σ ⊕ Option (ρ × σ) :=
  match c.code with
  | [] => .inr none
  | .act a :: k => .inl ⟨k, c.labels, S.act a c.st⟩
  | .ifT t :: k =>
    match skip 0 k with
    | none => .inr none
    | some after =>
      if S.test t c.st then .inl ⟨k, after :: c.labels, c.st⟩
      else .inl ⟨after, c.labels, c.st⟩
  | .loop :: k => .inl ⟨k, (.loop :: k) :: c.labels, c.st⟩
  | .fin :: k =>
    match c.labels with
    | [] => .inr none
    | _ :: ls => .inl ⟨k, ls, c.st⟩
  | .br d :: _ =>
    match c.labels[d]? with
    | none => .inr none
    | some k => .inl ⟨k, c.labels.drop (d + 1), c.st⟩
  | .ret r :: _ => .inr (some (r, c.st))
  | .unreachable :: _ => .inr none

section Steps

variable {S : Sem α τ σ} {k k' after l : List (Tok α τ ρ)} {ls : List (List (Tok α τ ρ))} {st : σ}

@[simp] theorem step_act (a : α) :
    step S ⟨.act a :: k, ls, st⟩ = .inl ⟨k, ls, S.act a st⟩ := rfl

theorem step_act_of_eq {a : α} {st' : σ} (h : S.act a st = st') :
    step S ⟨.act a :: k, ls, st⟩ = .inl ⟨k, ls, st'⟩ := by
  rw [step_act, h]

@[simp] theorem step_loop :
    step S ⟨.loop :: k, ls, st⟩ = .inl ⟨k, (.loop :: k) :: ls, st⟩ := rfl

@[simp] theorem step_fin : step S ⟨.fin :: k, l :: ls, st⟩ = .inl ⟨k, ls, st⟩ := rfl

@[simp] theorem step_ret (r : ρ) : step S ⟨.ret r :: k, ls, st⟩ = .inr (some (r, st)) := rfl

@[simp] theorem step_unreachable : step S ⟨.unreachable :: k, ls, st⟩ = .inr none := rfl

theorem step_br {d : ℕ} (h : ls[d]? = some k') :
    step S ⟨.br d :: k, ls, st⟩ = .inl ⟨k', ls.drop (d + 1), st⟩ := by
  simp [step, h]

theorem step_ifT_true {t : τ} (hskip : skip 0 k = some after) (ht : S.test t st = true) :
    step S ⟨.ifT t :: k, ls, st⟩ = .inl ⟨k, after :: ls, st⟩ := by
  simp [step, hskip, ht]

theorem step_ifT_false {t : τ} (hskip : skip 0 k = some after) (ht : S.test t st = false) :
    step S ⟨.ifT t :: k, ls, st⟩ = .inl ⟨after, ls, st⟩ := by
  simp [step, hskip, ht]

end Steps

end Bootbox.Lib.FlatControl
