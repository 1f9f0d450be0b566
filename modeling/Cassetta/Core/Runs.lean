import Mathlib

/-!
# Runs of a step function

A run is a list of actions taken one after the other. Many properties hold only of runs
whose every action meets a condition in the state it is taken from; `Guarded` says so, and
`Guarded.invariant` carries a property through such a run.
-/

namespace Runs

variable {S A : Type} (step : S → A → S) (guard : S → A → Prop)

/-- The state a list of actions leads to. -/
def run (s : S) (acts : List A) : S := acts.foldl step s

/-- Nothing happens. -/
@[simp] theorem run_nil (s : S) : run step s [] = s := rfl

/-- One step, and then the others. -/
@[simp] theorem run_cons (s : S) (a : A) (acts : List A) :
    run step s (a :: acts) = run step (step s a) acts := rfl

/-- One run after the other. -/
theorem run_append (s : S) (acts rest : List A) :
    run step s (acts ++ rest) = run step (run step s acts) rest := by
  simp [run, List.foldl_append]

/-- Every action meets the guard in the state it is taken from. -/
def Guarded : S → List A → Prop
  | _, [] => True
  | s, a :: rest => guard s a ∧ Guarded (step s a) rest

instance decidableGuarded [∀ s a, Decidable (guard s a)] :
    ∀ s acts, Decidable (Guarded step guard s acts)
  | _, [] => .isTrue trivial
  | s, a :: rest =>
    have := decidableGuarded (step s a) rest
    inferInstanceAs (Decidable (_ ∧ _))

variable {step guard}

/-- A run is guarded if each of its parts is when its turn comes. -/
theorem guarded_append {s : S} {acts rest : List A} :
    Guarded step guard s (acts ++ rest) ↔
      Guarded step guard s acts ∧ Guarded step guard (run step s acts) rest := by
  induction acts generalizing s with
  | nil => simp [Guarded]
  | cons a acts ih => simp [Guarded, ih, and_assoc]

/-- What every guarded step preserves, a guarded run preserves. -/
theorem Guarded.invariant {I : S → Prop}
    (hstep : ∀ s a, I s → guard s a → I (step s a)) {s : S} (hs : I s) {acts : List A}
    (h : Guarded step guard s acts) : I (run step s acts) := by
  induction acts generalizing s with
  | nil => exact hs
  | cons a acts ih => exact ih (hstep s a hs h.1) h.2

/-- What every step preserves, a run preserves. -/
theorem run_invariant {I : S → Prop} (hstep : ∀ s a, I s → I (step s a)) {s : S} (hs : I s)
    (acts : List A) : I (run step s acts) := by
  induction acts generalizing s with
  | nil => exact hs
  | cons a acts ih => exact ih (hstep s a hs)

/-- A weaker guard is met wherever a stronger one is. -/
theorem Guarded.mono {guard' : S → A → Prop} (hg : ∀ s a, guard s a → guard' s a) {s : S}
    {acts : List A} (h : Guarded step guard s acts) : Guarded step guard' s acts := by
  induction acts generalizing s with
  | nil => trivial
  | cons a acts ih => exact ⟨hg s a h.1, ih h.2⟩

/-- In states that have an invariant one guard may stand for another. -/
theorem Guarded.transfer {guard' : S → A → Prop} {I : S → Prop}
    (hstep : ∀ s a, I s → guard s a → I (step s a)) (hg : ∀ s a, I s → guard s a → guard' s a)
    {s : S} (hs : I s) {acts : List A} (h : Guarded step guard s acts) :
    Guarded step guard' s acts := by
  induction acts generalizing s with
  | nil => trivial
  | cons a acts ih => exact ⟨hg s a hs h.1, ih (hstep s a hs h.1) h.2⟩

/-- Two systems that stay related through every action are related after every run. -/
theorem run_related {T : Type} {step' : T → A → T} {R : S → T → Prop}
    (hstep : ∀ s t a, R s t → R (step s a) (step' t a)) {s : S} {t : T} (h : R s t)
    (acts : List A) : R (run step s acts) (run step' t acts) := by
  induction acts generalizing s t with
  | nil => exact h
  | cons a acts ih => exact ih (hstep s t a h)

end Runs
