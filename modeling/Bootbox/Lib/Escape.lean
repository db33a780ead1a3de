import Mathlib.Tactic.Common

/-!
Computations with state that may be left at any point, as by `longjmp`: the state they are
left in stays. `Holds P x Q E` says that `x`, started in a state with `P`, ends with `Q` or
is left with `E`; one rule for each way such a computation is put together.
-/

namespace Bootbox.Lib.Escape

variable {ε σ α β ι : Type}

/-- An outcome with `Q`, or with `E` when the computation was left. -/
def Outcome (Q : α → σ → Prop) (E : ε → σ → Prop) : EStateM.Result ε σ α → Prop
  | .ok a s => Q a s
  | .error e s => E e s

/-- Started with `P`, the computation ends with `Q` or is left with `E`. -/
structure Holds (P : σ → Prop) (x : EStateM ε σ α) (Q : α → σ → Prop) (E : ε → σ → Prop) :
    Prop where
  outcome : ∀ s, P s → Outcome Q E (x.run s)

variable {P P' : σ → Prop} {Q Q' : α → σ → Prop} {R : β → σ → Prop} {E E' : ε → σ → Prop}
  {x : EStateM ε σ α} {f : α → EStateM ε σ β}

theorem holds_pure {a : α} (h : ∀ s, P s → Q a s) : Holds P (pure a : EStateM ε σ α) Q E :=
  ⟨h⟩

theorem holds_throw {e : ε} (h : ∀ s, P s → E e s) : Holds P (throw e : EStateM ε σ α) Q E :=
  ⟨h⟩

theorem holds_modify {g : σ → σ} {Q : Unit → σ → Prop} (h : ∀ s, P s → Q () (g s)) :
    Holds P (modify g : EStateM ε σ Unit) Q E :=
  ⟨h⟩

theorem Holds.bind (hx : Holds P x Q E) (hf : ∀ a, Holds (Q a) (f a) R E) :
    Holds P (x >>= f) R E := by
  refine ⟨fun s hs => ?_⟩
  have h : Outcome Q E (x s) := hx.outcome s hs
  change Outcome R E (EStateM.bind x f s)
  rw [EStateM.bind]
  cases hr : x s with
  | ok a s' =>
    rw [hr] at h
    exact (hf a).outcome s' h
  | error e s' =>
    rw [hr] at h
    exact h

/-- What is read is the state. -/
theorem holds_get_bind {f : σ → EStateM ε σ β}
    (h : ∀ s₁, P s₁ → Holds (fun s => s = s₁) (f s₁) R E) : Holds P (get >>= f) R E :=
  ⟨fun s hs => (h s hs).outcome s rfl⟩

theorem Holds.mono (hx : Holds P x Q E) (hP : ∀ s, P' s → P s) (hQ : ∀ a s, Q a s → Q' a s)
    (hE : ∀ e s, E e s → E' e s) : Holds P' x Q' E' := by
  refine ⟨fun s hs => ?_⟩
  have h := hx.outcome s (hP s hs)
  cases hr : x.run s with
  | ok a s' =>
    rw [hr] at h
    exact hQ a s' h
  | error e s' =>
    rw [hr] at h
    exact hE e s' h

theorem Holds.pre (hx : Holds P x Q E) (hP : ∀ s, P' s → P s) : Holds P' x Q E :=
  hx.mono hP (fun _ _ h => h) fun _ _ h => h

theorem Holds.post (hx : Holds P x Q E) (hQ : ∀ a s, Q a s → Q' a s) : Holds P x Q' E :=
  hx.mono (fun _ h => h) hQ fun _ _ h => h

theorem holds_of_post (hQ : ∀ a s, Q a s) (hE : ∀ e s, E e s) : Holds P x Q E := by
  refine ⟨fun s _ => ?_⟩
  cases x.run s with
  | ok a s' => exact hQ a s'
  | error e s' => exact hE e s'

/-- A rule for one state at a time. -/
theorem holds_of_forall (h : ∀ s, P s → Holds (fun s' => s' = s) x Q E) : Holds P x Q E :=
  ⟨fun s hs => (h s hs).outcome s rfl⟩

theorem Holds.start {s : σ} (hx : Holds P x Q E) (hs : P s) : Holds (fun s' => s' = s) x Q E :=
  hx.pre fun _ h => h ▸ hs

/-- The rest, from each state that the first computation may end in. -/
theorem Holds.andThen {s : σ} (hx : Holds P x Q E) (hs : P s)
    (hf : ∀ a s₁, Q a s₁ → Holds (fun s' => s' = s₁) (f a) R E) :
    Holds (fun s' => s' = s) (x >>= f) R E :=
  (hx.start hs).bind fun a => holds_of_forall (hf a)

/-- Two facts about one computation. -/
theorem Holds.and (hx : Holds P x Q E) (hx' : Holds P' x Q' E') :
    Holds (fun s => P s ∧ P' s) x (fun a s => Q a s ∧ Q' a s) fun e s => E e s ∧ E' e s := by
  refine ⟨fun s hs => ?_⟩
  have h := hx.outcome s hs.1
  have h' := hx'.outcome s hs.2
  cases hr : x.run s with
  | ok a s' =>
    rw [hr] at h h'
    exact ⟨h, h'⟩
  | error e s' =>
    rw [hr] at h h'
    exact ⟨h, h'⟩

theorem holds_ite {c : Prop} [Decidable c] {y : EStateM ε σ α}
    (hx : c → Holds P x Q E) (hy : ¬ c → Holds P y Q E) :
    Holds P (if c then x else y) Q E := by
  split
  case isTrue h => exact hx h
  case isFalse h => exact hy h

/-- Running over a list: what each element adds to an invariant of those before it. -/
theorem holds_forM (g : ι → EStateM ε σ PUnit) (all : List ι) (I : List ι → σ → Prop)
    (h : ∀ done i rest, all = done ++ i :: rest →
      Holds (I done) (g i) (fun _ => I (done ++ [i])) E) :
    Holds (I []) (all.forM g) (fun _ => I all) E := by
  have hloop : ∀ is done, all = done ++ is →
      Holds (I done) (is.forM g) (fun _ => I all) E := by
    intro is
    induction is with
    | nil =>
      intro done hall
      rw [hall, List.append_nil]
      exact holds_pure fun s hs => hs
    | cons i is ih =>
      intro done hall
      exact (h done i is hall).bind fun _ => ih (done ++ [i]) (by simpa using hall)
  exact hloop all [] rfl

/-- What a computation that ended has established. -/
theorem Holds.of_ok {s s' : σ} {a : α} (hx : Holds P x Q E) (hs : P s)
    (h : x.run s = .ok a s') : Q a s' := by
  have := hx.outcome s hs
  rwa [h] at this

theorem Holds.of_error {s s' : σ} {e : ε} (hx : Holds P x Q E) (hs : P s)
    (h : x.run s = .error e s') : E e s' := by
  have := hx.outcome s hs
  rwa [h] at this

end Bootbox.Lib.Escape
