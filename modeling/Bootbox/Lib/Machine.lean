import Mathlib.Tactic.Common

/-!
Deterministic machines, their runs, and simulations between them. A step goes on
in a new configuration or ends with a result. A machine simulates another if each
step of that one is matched by at least one of its own: the two then pass through
related configurations for as long as they run, and end alike.
-/

namespace Bootbox.Lib.Machine

variable {A C R : Type*}

variable {B O : Type*}

/-- Run for `n` steps, or to the end. -/
def run (step : C → C ⊕ R) : ℕ → C → C ⊕ R
  | 0, c => .inl c
  | n + 1, c =>
    match step c with
    | .inl c' => run step n c'
    | .inr r => .inr r

variable {step : C → C ⊕ R} {c c' c'' : C} {r r' : R} {m n : ℕ}

theorem run_succ_of_step (h : step c = .inl c') : run step (n + 1) c = run step n c' := by
  rw [run, h]

theorem run_add (h : run step n c = .inl c') : run step (n + m) c = run step m c' := by
  induction n generalizing c with
  | zero =>
    cases h
    rw [Nat.zero_add]
  | succ n ih =>
    rw [Nat.succ_add, run]
    rw [run] at h
    cases hs : step c with
    | inl d =>
      rw [hs] at h
      exact ih h
    | inr r =>
      rw [hs] at h
      cases h

theorem run_of_ended (h : run step n c = .inr r) (hle : n ≤ m) : run step m c = .inr r := by
  induction n generalizing c m with
  | zero => cases h
  | succ n ih =>
    obtain ⟨m, rfl⟩ : ∃ k, m = k + 1 := ⟨m - 1, by omega⟩
    rw [run] at h ⊢
    cases hs : step c with
    | inl d =>
      rw [hs] at h
      exact ih h (by omega)
    | inr r' =>
      rw [hs] at h
      exact h

/-- The machine gets from one configuration to another. -/
def Reaches (step : C → C ⊕ R) (c c' : C) : Prop := ∃ n, run step n c = .inl c'

def Ends (step : C → C ⊕ R) (c : C) (r : R) : Prop := ∃ n, run step n c = .inr r

theorem Reaches.refl (step : C → C ⊕ R) (c : C) : Reaches step c c := ⟨0, rfl⟩

theorem Reaches.of_step (h : step c = .inl c') (h' : Reaches step c' c'') :
    Reaches step c c'' := by
  obtain ⟨n, hn⟩ := h'
  exact ⟨n + 1, by rw [run_succ_of_step h, hn]⟩

theorem Reaches.trans (h : Reaches step c c') (h' : Reaches step c' c'') :
    Reaches step c c'' := by
  obtain ⟨n, hn⟩ := h
  obtain ⟨m, hm⟩ := h'
  exact ⟨n + m, by rw [run_add hn, hm]⟩

def ReachesPlus (step : C → C ⊕ R) (c c' : C) : Prop := ∃ d, step c = .inl d ∧ Reaches step d c'

theorem ReachesPlus.of_step (h : step c = .inl c') (h' : Reaches step c' c'') :
    ReachesPlus step c c'' := ⟨c', h, h'⟩

theorem ReachesPlus.reaches (h : ReachesPlus step c c') : Reaches step c c' := by
  obtain ⟨d, hd, hreach⟩ := h
  exact Reaches.of_step hd hreach

theorem Reaches.then_step (h : Reaches step c c') (h' : step c' = .inl c'') :
    ReachesPlus step c c'' := by
  obtain ⟨n, hn⟩ := h
  cases n with
  | zero =>
    cases hn
    exact ⟨c'', h', Reaches.refl _ _⟩
  | succ n =>
    rw [run] at hn
    cases hs : step c with
    | inl d =>
      rw [hs] at hn
      exact ⟨d, hs, Reaches.trans ⟨n, hn⟩ (Reaches.of_step h' (Reaches.refl _ _))⟩
    | inr r =>
      rw [hs] at hn
      cases hn

theorem Ends.of_step (h : step c = .inr r) : Ends step c r := ⟨1, by rw [run, h]⟩

theorem Reaches.ends (h : Reaches step c c') (h' : Ends step c' r) : Ends step c r := by
  obtain ⟨n, hn⟩ := h
  obtain ⟨m, hm⟩ := h'
  exact ⟨n + m, by rw [run_add hn, hm]⟩

theorem Ends.unique (h : Ends step c r) (h' : Ends step c r') : r = r' := by
  obtain ⟨n, hn⟩ := h
  obtain ⟨m, hm⟩ := h'
  have hn' := run_of_ended hn (Nat.le_max_left n m)
  have hm' := run_of_ended hm (Nat.le_max_right n m)
  rw [hn'] at hm'
  exact Sum.inr.inj hm'

/-- Of two configurations on one run, one comes first. -/
theorem Reaches.linear (h : Reaches step c c') (h' : Reaches step c c'') :
    Reaches step c' c'' ∨ Reaches step c'' c' := by
  obtain ⟨n, hn⟩ := h
  obtain ⟨m, hm⟩ := h'
  rcases Nat.le_total n m with hle | hle
  · obtain ⟨k, rfl⟩ := Nat.exists_eq_add_of_le hle
    rw [run_add hn] at hm
    exact .inl ⟨k, hm⟩
  · obtain ⟨k, rfl⟩ := Nat.exists_eq_add_of_le hle
    rw [run_add hm] at hn
    exact .inr ⟨k, hn⟩

theorem Reaches.ends_iff (h : Reaches step c c') : Ends step c r ↔ Ends step c' r := by
  refine ⟨fun hends => ?_, h.ends⟩
  obtain ⟨n, hn⟩ := h
  obtain ⟨m, hm⟩ := hends
  have hm' := run_of_ended hm (show m ≤ n + m by omega)
  rw [run_add hn] at hm'
  exact ⟨m, hm'⟩

/-- Each step of `stepA` is matched by one step of `stepC` and any number more, or
by none; `size` bounds how often in a row it may be none. -/
structure Simulates (stepA : A → A ⊕ R) (stepC : C → C ⊕ R) (Rel : A → C → Prop)
    (size : A → ℕ) : Prop where
  step : ∀ {a a' c}, Rel a c → stepA a = .inl a' →
    (∃ c', ReachesPlus stepC c c' ∧ Rel a' c') ∨ Rel a' c ∧ size a' < size a
  ends : ∀ {a c r}, Rel a c → stepA a = .inr r → Ends stepC c r

namespace Simulates

variable {stepA : A → A ⊕ R} {stepC : C → C ⊕ R} {Rel : A → C → Prop} {size : A → ℕ} {a a' : A}

theorem run_inl (sim : Simulates stepA stepC Rel size) (h : Rel a c)
    (hr : run stepA n a = .inl a') : ∃ c', Reaches stepC c c' ∧ Rel a' c' := by
  induction n generalizing a c with
  | zero =>
    cases hr
    exact ⟨c, Reaches.refl _ c, h⟩
  | succ n ih =>
    rw [run] at hr
    cases hs : stepA a with
    | inl b =>
      rw [hs] at hr
      rcases sim.step h hs with ⟨c₁, hreach, hrel⟩ | ⟨hrel, -⟩
      · obtain ⟨c₂, hreach', hrel'⟩ := ih hrel hr
        exact ⟨c₂, hreach.reaches.trans hreach', hrel'⟩
      · exact ih hrel hr
    | inr r =>
      rw [hs] at hr
      cases hr

theorem run_inr (sim : Simulates stepA stepC Rel size) (h : Rel a c)
    (hr : run stepA n a = .inr r) : Ends stepC c r := by
  induction n generalizing a c with
  | zero => cases hr
  | succ n ih =>
    rw [run] at hr
    cases hs : stepA a with
    | inl b =>
      rw [hs] at hr
      rcases sim.step h hs with ⟨c₁, hreach, hrel⟩ | ⟨hrel, -⟩
      · exact hreach.reaches.ends (ih hrel hr)
      · exact ih hrel hr
    | inr r' =>
      rw [hs] at hr
      cases hr
      exact sim.ends h hs

/-- The simulating machine gets one step further, or the simulated one ends. -/
theorem advance (sim : Simulates stepA stepC Rel size) (h : Rel a c) :
    (∃ a' c', Reaches stepA a a' ∧ ReachesPlus stepC c c' ∧ Rel a' c') ∨
      ∃ r, Ends stepA a r := by
  -- by induction on the steps in a row that may be matched by none
  induction hsize : size a using Nat.strongRecOn generalizing a with
  | ind k ih =>
    cases hs : stepA a with
    | inr r => exact .inr ⟨r, Ends.of_step hs⟩
    | inl b =>
      rcases sim.step h hs with ⟨c', hreach, hrel⟩ | ⟨hrel, hlt⟩
      · exact .inl ⟨b, c', Reaches.of_step hs (Reaches.refl _ b), hreach, hrel⟩
      · rcases ih _ (by omega) hrel rfl with ⟨a', c', ha, hreach, hrel'⟩ | ⟨r, hr⟩
        · exact .inl ⟨a', c', Reaches.of_step hs ha, hreach, hrel'⟩
        · exact .inr ⟨r, (Reaches.of_step hs (Reaches.refl _ b)).ends hr⟩

/-- The simulating machine gets as far as one likes, or the simulated one ends. -/
theorem progress (sim : Simulates stepA stepC Rel size) (h : Rel a c) (m : ℕ) :
    (∃ a' k c', Reaches stepA a a' ∧ m ≤ k ∧ run stepC k c = .inl c' ∧ Rel a' c') ∨
      ∃ r, Ends stepA a r := by
  induction m generalizing a c with
  | zero => exact .inl ⟨a, 0, c, Reaches.refl _ a, Nat.le_refl 0, rfl, h⟩
  | succ m ih =>
    rcases sim.advance h with ⟨a₁, c₁, ha, ⟨d, hd, j, hj⟩, hrel⟩ | hends
    · rcases ih hrel with ⟨a₂, k, c₂, ha', hle, hk, hrel'⟩ | ⟨r, hr⟩
      · refine .inl ⟨a₂, j + k + 1, c₂, ha.trans ha', by omega, ?_, hrel'⟩
        rw [run_succ_of_step hd, run_add hj, hk]
      · exact .inr ⟨r, ha.ends hr⟩
    · exact .inr hends

theorem ends_iff (sim : Simulates stepA stepC Rel size) (h : Rel a c) :
    Ends stepA a r ↔ Ends stepC c r := by
  constructor
  · rintro ⟨n, hn⟩
    exact sim.run_inr h hn
  · rintro ⟨m, hm⟩
    rcases sim.progress h m with ⟨-, k, c', -, hle, hk, -⟩ | ⟨r', n, hn⟩
    · rw [run_of_ended hm hle] at hk
      cases hk
    · have hends := sim.run_inr h hn
      rw [hends.unique ⟨m, hm⟩] at hn
      exact ⟨n, hn⟩

/-- However far the simulating machine has run, it goes on to a configuration
that is related to one of the other's. -/
theorem catches_up (sim : Simulates stepA stepC Rel size) (h : Rel a c)
    (hm : Reaches stepC c c') :
    (∃ a' c'', Reaches stepA a a' ∧ Reaches stepC c' c'' ∧ Rel a' c'') ∨
      ∃ r, Ends stepA a r ∧ Ends stepC c' r := by
  obtain ⟨m, hm⟩ := hm
  rcases sim.progress h m with ⟨a', k, c'', ha, hle, hk, hrel⟩ | ⟨r, n, hn⟩
  · left
    obtain ⟨j, rfl⟩ : ∃ j, k = m + j := ⟨k - m, by omega⟩
    rw [run_add hm] at hk
    exact ⟨a', c'', ha, ⟨j, hk⟩, hrel⟩
  · right
    obtain ⟨k, hk⟩ := sim.run_inr h hn
    refine ⟨r, ⟨n, hn⟩, k, ?_⟩
    have hk' := run_of_ended hk (show k ≤ m + k by omega)
    rwa [run_add hm] at hk'

end Simulates

/-- However far either machine has run, it goes on to where the other one shows the
same, or both end alike; and one ends with a result just if the other does. -/
structure Lockstep {A B O : Type*} (stepA : A → A ⊕ R) (stepB : B → B ⊕ R) (seeA : A → O)
    (seeB : B → O) (a : A) (b : B) : Prop where
  left : ∀ {a'}, Reaches stepA a a' →
    (∃ a'' b', Reaches stepA a' a'' ∧ Reaches stepB b b' ∧ seeA a'' = seeB b') ∨
      ∃ r, Ends stepA a' r ∧ Ends stepB b r
  right : ∀ {b'}, Reaches stepB b b' →
    (∃ a' b'', Reaches stepA a a' ∧ Reaches stepB b' b'' ∧ seeA a' = seeB b'') ∨
      ∃ r, Ends stepA a r ∧ Ends stepB b' r
  ends : ∀ r, Ends stepA a r ↔ Ends stepB b r

variable {stepA : A → A ⊕ R} {a : A}

theorem Simulates.lockstep {stepB : B → B ⊕ R} {stepC : C → C ⊕ R} {RelA : C → A → Prop}
    {RelB : C → B → Prop} {sizeA sizeB : C → ℕ} {seeA : A → O} {seeB : B → O} {see : C → O} {b : B}
    (simA : Simulates stepC stepA RelA sizeA) (simB : Simulates stepC stepB RelB sizeB)
    (hseeA : ∀ {c a}, RelA c a → seeA a = see c) (hseeB : ∀ {c b}, RelB c b → seeB b = see c)
    (ha : RelA c a) (hb : RelB c b) : Lockstep stepA stepB seeA seeB a b where
  left := by
    intro a' hreach
    rcases simA.catches_up ha hreach with ⟨c', a'', ⟨n, hn⟩, ha'', hrel⟩ | ⟨r, hc, ha'⟩
    · obtain ⟨b', hb', hrel'⟩ := simB.run_inl hb hn
      exact .inl ⟨a'', b', ha'', hb', (hseeA hrel).trans (hseeB hrel').symm⟩
    · exact .inr ⟨r, ha', (simB.ends_iff hb).mp hc⟩
  right := by
    intro b' hreach
    rcases simB.catches_up hb hreach with ⟨c', b'', ⟨n, hn⟩, hb'', hrel⟩ | ⟨r, hc, hb'⟩
    · obtain ⟨a', ha', hrel'⟩ := simA.run_inl ha hn
      exact .inl ⟨a', b'', ha', hb'', (hseeA hrel').trans (hseeB hrel).symm⟩
    · exact .inr ⟨r, (simA.ends_iff ha).mp hc, hb'⟩
  ends := fun r => (simA.ends_iff ha).symm.trans (simB.ends_iff hb)

theorem Lockstep.symm {stepB : B → B ⊕ R} {seeA : A → O} {seeB : B → O} {b : B}
    (h : Lockstep stepA stepB seeA seeB a b) :
    Lockstep stepB stepA seeB seeA b a where
  left := by
    intro b' hb'
    rcases h.right hb' with ⟨a', b'', ha', hb'', hsee⟩ | ⟨r, ha, hb'⟩
    · exact .inl ⟨b'', a', hb'', ha', hsee.symm⟩
    · exact .inr ⟨r, hb', ha⟩
  right := by
    intro a' ha'
    rcases h.left ha' with ⟨a'', b', ha'', hb', hsee⟩ | ⟨r, ha', hb⟩
    · exact .inl ⟨b', a'', hb', ha'', hsee.symm⟩
    · exact .inr ⟨r, hb, ha'⟩
  ends := fun r => (h.ends r).symm

theorem Lockstep.of_reaches {stepB : B → B ⊕ R} {seeA : A → O} {seeB : B → O} {b b₀ : B}
    (hb : Reaches stepB b₀ b) (h : Lockstep stepA stepB seeA seeB a b) :
    Lockstep stepA stepB seeA seeB a b₀ where
  left := by
    intro a' ha'
    rcases h.left ha' with ⟨a'', b', ha'', hb', hsee⟩ | ⟨r, ha', hr⟩
    · exact .inl ⟨a'', b', ha'', hb.trans hb', hsee⟩
    · exact .inr ⟨r, ha', hb.ends hr⟩
  right := by
    intro b' hb'
    rcases hb.linear hb' with hlater | hearlier
    · exact h.right hlater
    · rcases h.right (Reaches.refl _ b) with ⟨a', b'', ha', hb'', hsee⟩ | ⟨r, hr, hr'⟩
      · exact .inl ⟨a', b'', ha', hearlier.trans hb'', hsee⟩
      · exact .inr ⟨r, hr, hearlier.ends hr'⟩
  ends := fun r => (h.ends r).trans hb.ends_iff.symm

end Bootbox.Lib.Machine
