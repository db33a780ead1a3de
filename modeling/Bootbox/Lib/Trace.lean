import Mathlib.Order.Basic

/-!
Runs of a system that takes labelled steps. A step need not be possible in every
state, and it may leave several choices; a run is a list of labels, and what is
said about it is said about the states before and after.
-/

namespace Bootbox.Lib.Trace

variable {S E : Type*}

/-- The system gets from one state to another by the events of a list, in order. -/
inductive Run (step : S → E → S → Prop) : S → List E → S → Prop
  | nil (s : S) : Run step s [] s
  | cons {s s' s'' : S} {e : E} {es : List E} (h : step s e s') (hs : Run step s' es s'') :
      Run step s (e :: es) s''

namespace Run

variable {step : S → E → S → Prop} {s s' s'' : S} {e : E} {es es' : List E}

@[simp] theorem nil_iff : Run step s [] s' ↔ s = s' := by
  constructor
  · rintro ⟨⟩
    rfl
  · rintro rfl
    exact .nil s

@[simp] theorem cons_iff : Run step s (e :: es) s'' ↔ ∃ s', step s e s' ∧ Run step s' es s'' := by
  constructor
  · rintro (_ | ⟨h, hs⟩)
    exact ⟨_, h, hs⟩
  · rintro ⟨s', h, hs⟩
    exact .cons h hs

@[simp] theorem append_iff :
    Run step s (es ++ es') s'' ↔ ∃ s', Run step s es s' ∧ Run step s' es' s'' := by
  induction es generalizing s with
  | nil => simp
  | cons e es ih =>
    rw [List.cons_append, cons_iff]
    constructor
    · rintro ⟨s₁, h, hs⟩
      obtain ⟨s₂, hs₁, hs₂⟩ := ih.mp hs
      exact ⟨s₂, .cons h hs₁, hs₂⟩
    · rintro ⟨s₂, hs₁, hs₂⟩
      obtain ⟨s₁, h, hs⟩ := cons_iff.mp hs₁
      exact ⟨s₁, h, ih.mpr ⟨s₂, hs, hs₂⟩⟩

theorem mono {step' : S → E → S → Prop} (hrun : Run step s es s')
    (h : ∀ {s e s'}, step s e s' → step' s e s') : Run step' s es s' := by
  induction hrun with
  | nil s => exact .nil s
  | cons hstep _ ih => exact .cons (h hstep) ih

/-- A run is shown step by step, each step giving the state for the next. -/
theorem exists_cons {Q : S → Prop} (h : step s e s') (hs : ∃ s'', Run step s' es s'' ∧ Q s'') :
    ∃ s'', Run step s (e :: es) s'' ∧ Q s'' := by
  obtain ⟨s'', hrun, hq⟩ := hs
  exact ⟨s'', .cons h hrun, hq⟩

/-- What every step of a certain kind keeps, a run of such steps keeps. -/
theorem invariant_of {I : S → Prop} {P : E → Prop} (hrun : Run step s es s')
    (hes : ∀ e ∈ es, P e) (hstep : ∀ {s e s'}, I s → P e → step s e s' → I s') (hs : I s) :
    I s' := by
  induction hrun with
  | nil s => exact hs
  | cons h _ ih =>
    refine ih (fun e he => hes e (List.mem_cons_of_mem _ he)) ?_
    exact hstep hs (hes _ List.mem_cons_self) h

/-- What every step keeps, every run keeps. -/
theorem invariant {I : S → Prop} (hrun : Run step s es s')
    (hstep : ∀ {s e s'}, I s → step s e s' → I s') (hs : I s) : I s' :=
  hrun.invariant_of (P := fun _ => True) (fun _ _ => trivial) (fun h _ => hstep h) hs

/-- The same for what is said of a state and the events that have led to it. -/
theorem invariant_history {I : List E → S → Prop} (hrun : Run step s es s')
    (hstep : ∀ {es s e s'}, I es s → step s e s' → I (es ++ [e]) s') (hs : I [] s) : I es s' := by
  have hgen : ∀ past, I past s → I (past ++ es) s' := by
    clear hs
    induction hrun with
    | nil s =>
      intro past h
      rwa [List.append_nil]
    | @cons s s₁ s' e es h _ ih =>
      intro past hpast
      have hrest := ih (past ++ [e]) (hstep hpast h)
      rwa [List.append_assoc] at hrest
  exact hgen [] hs

end Run

end Bootbox.Lib.Trace
