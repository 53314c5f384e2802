import Mathlib

/-! Runs of a partial step function: the state after a list of actions, each enabled in turn,
the states reachable from an initial one, and the rule that proves a property of every reachable
state from the initial state and one step. -/

namespace Run

variable {σ α : Type} (step : σ → α → Option σ)

/-- The state after the actions `as`, when each is enabled in turn. -/
def run (s : σ) : List α → Option σ
  | [] => some s
  | a :: as => (step s a).bind fun s' => run s' as

/-- A state that some list of actions reaches from `init`. -/
def Reachable (init s : σ) : Prop := ∃ as, run step init as = some s

variable {step}

/-- The invariant rule: a property of the initial state that every enabled step keeps holds of
every reachable state. -/
theorem Reachable.invariant {I : σ → Prop} {init : σ} (h0 : I init)
    (hstep : ∀ s a s', I s → step s a = some s' → I s') {s : σ} (hs : Reachable step init s) :
    I s := by
  obtain ⟨as, has⟩ := hs
  induction as generalizing init with
  | nil => cases has; exact h0
  | cons a as ih =>
    simp only [run] at has
    cases h : step init a with
    | none => simp [h] at has
    | some s' =>
      rw [h] at has
      exact ih (hstep init a s' h0 h) has

theorem run_append (s : σ) (as bs : List α) :
    run step s (as ++ bs) = (run step s as).bind fun s' => run step s' bs := by
  induction as generalizing s with
  | nil => rfl
  | cons a as ih =>
    simp only [List.cons_append, run]
    cases step s a with
    | none => rfl
    | some s' => exact ih s'

/-- One more enabled step from a reachable state reaches its result. -/
theorem Reachable.tail {init s s' : σ} {a : α} (hs : Reachable step init s)
    (h : step s a = some s') : Reachable step init s' := by
  obtain ⟨as, has⟩ := hs
  refine ⟨as ++ [a], ?_⟩
  rw [run_append, has]
  simp [run, h]

/-- The simulation rule: when an abstraction `f` of the states that keep `I` commutes with each
step, taking an enabled step to an enabled one and a disabled step to a disabled one, and every
step keeps `I`, the run of any actions from a state that keeps `I` is abstracted to the run of
the other step function from its abstraction. -/
theorem map_run {τ : Type} {step' : τ → α → Option τ} (f : σ → τ) {I : σ → Prop}
    (hstep : ∀ s a, I s → (step s a).map f = step' (f s) a)
    (hkeep : ∀ s a s', I s → step s a = some s' → I s') :
    ∀ (as : List α) {s : σ}, I s → (run step s as).map f = run step' (f s) as
  | [], _, _ => rfl
  | a :: as, s, hs => by
    simp only [run]
    cases h : step s a with
    | none =>
      -- the abstract step is disabled too
      rw [← hstep s a hs, h]
      rfl
    | some s' =>
      rw [← hstep s a hs, h]
      exact map_run f hstep hkeep as (hkeep s a s' hs h)

variable (step) in
/-- The states that the action `a`, taken some number of times in a row, leads to. -/
def Repeats (a : α) (s s' : σ) : Prop := ∃ k, run step s (List.replicate k a) = some s'

theorem Repeats.refl (a : α) (s : σ) : Repeats step a s s := ⟨0, rfl⟩

theorem Repeats.single {a : α} {s s' : σ} (h : step s a = some s') : Repeats step a s s' :=
  ⟨1, by simp [run, h]⟩

theorem Repeats.trans {a : α} {s s' s'' : σ} (h : Repeats step a s s')
    (h' : Repeats step a s' s'') : Repeats step a s s'' := by
  obtain ⟨k, hk⟩ := h
  obtain ⟨k', hk'⟩ := h'
  refine ⟨k + k', ?_⟩
  rw [List.replicate_add, run_append, hk]
  exact hk'

/-- A repeated action from a reachable state reaches its result. -/
theorem Reachable.repeats {init s s' : σ} {a : α} (hs : Reachable step init s)
    (h : Repeats step a s s') : Reachable step init s' := by
  obtain ⟨as, has⟩ := hs
  obtain ⟨k, hk⟩ := h
  refine ⟨as ++ List.replicate k a, ?_⟩
  rw [run_append, has]
  exact hk

end Run
