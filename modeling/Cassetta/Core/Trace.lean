import Cassetta.Core.Prog

/-!
# What a run has called

The trace of a run is the list of its calls with their answers. `Logs` says of a program that may
fail how its end goes with its trace, from every state the interpreter can be in; its rules follow
the program.
-/

namespace Prog

variable {C : Type} {A : C → Type} {α β ε S : Type}

/-- A call with the answer it got. -/
abbrev Answered (C : Type) (A : C → Type) : Type := (c : C) × A c

/-- The calls of a run, in order. -/
def trace (h : (c : C) → S → A c × S) : Prog C A α → S → List (Answered C A)
  | .pure _, _ => []
  | .call c k, s => ⟨c, (h c s).1⟩ :: (k (h c s).1).trace h (h c s).2

/-- The calls of a run of a program that may fail. -/
def traceE (h : (c : C) → S → A c × S) (x : ExceptT ε (Prog C A) α) (s : S) :
    List (Answered C A) := Prog.trace h x.run s

/-- From every state, the value and the trace are as `Q` says, or the exception and the trace as
`E` says. -/
def Logs (h : (c : C) → S → A c × S) (x : ExceptT ε (Prog C A) α)
    (Q : α → List (Answered C A) → Prop) (E : ε → List (Answered C A) → Prop) : Prop :=
  ∀ s, match (runE h x s).1 with
    | .ok a => Q a (traceE h x s)
    | .error e => E e (traceE h x s)

section Rules

variable {h : (c : C) → S → A c × S} {Q : α → List (Answered C A) → Prop}
  {E : ε → List (Answered C A) → Prop}

/-- The calls of one program followed by another. -/
theorem trace_bind (p : Prog C A α) (f : α → Prog C A β) (s : S) :
    (p >>= f).trace h s = p.trace h s ++ (f (p.run h s).1).trace h (p.run h s).2 := by
  induction p generalizing s with
  | pure a => rfl
  | call c k ih => exact congrArg (List.cons _) (ih (h c s).1 (h c s).2)

/-- A program and what it goes on with, by the value it ended in. -/
theorem traceE_bind (x : ExceptT ε (Prog C A) α) (f : α → ExceptT ε (Prog C A) β) (s : S) :
    traceE h (x >>= f) s = traceE h x s ++ match runE h x s with
      | (.ok a, s') => traceE h (f a) s'
      | (.error _, _) => [] := by
  rw [traceE, run_bindE, trace_bind]
  unfold runE
  rcases Prog.run h x.run s with ⟨r, s'⟩
  cases r <;> rfl

/-- The calls of a program whose failure is handled. -/
theorem traceE_tryCatch (x : ExceptT ε (Prog C A) α) (f : ε → ExceptT ε (Prog C A) α) (s : S) :
    traceE h (tryCatch x f) s = traceE h x s ++ match runE h x s with
      | (.ok _, _) => []
      | (.error e, s') => traceE h (f e) s' := by
  rw [traceE, run_tryCatchE, trace_bind]
  unfold runE
  rcases Prog.run h x.run s with ⟨r, s'⟩
  cases r <;> rfl

/-- Returning at once makes no calls. -/
theorem logs_pure {a : α} (hQ : Q a []) : Logs h (Pure.pure a) Q E := fun _ => hQ

/-- Failing at once makes no calls. -/
theorem logs_throw {e : ε} (hE : E e []) : Logs h (throw e : ExceptT ε (Prog C A) α) Q E :=
  fun _ => hE

/-- One call, whatever the interpreter answers from wherever it is. -/
theorem logs_performE {c : C} {Q : A c → List (Answered C A) → Prop}
    (hQ : ∀ s, Q (h c s).1 [⟨c, (h c s).1⟩]) : Logs h (performE c) Q E := fun s => hQ s

/-- One program after the other. -/
theorem logs_bind {x : ExceptT ε (Prog C A) α} {f : α → ExceptT ε (Prog C A) β}
    {Q : β → List (Answered C A) → Prop}
    (hx : Logs h x (fun a l => Logs h (f a) (fun b l' => Q b (l ++ l')) (fun e l' => E e (l ++ l')))
      E) : Logs h (x >>= f) Q E := by
  intro s
  have hs := hx s
  rw [runE_bind, traceE_bind]
  rcases hrun : runE h x s with ⟨r, s'⟩
  rw [hrun] at hs
  cases r with
  | ok a => exact hs s'
  | error e => simpa using hs

/-- Handling a failure. -/
theorem logs_tryCatch {x : ExceptT ε (Prog C A) α} {f : ε → ExceptT ε (Prog C A) α}
    (hx : Logs h x Q (fun e l => Logs h (f e) (fun a l' => Q a (l ++ l'))
      (fun e' l' => E e' (l ++ l')))) : Logs h (tryCatch x f) Q E := by
  intro s
  have hs := hx s
  rw [runE_tryCatch, traceE_tryCatch]
  rcases hrun : runE h x s with ⟨r, s'⟩
  rw [hrun] at hs
  cases r with
  | ok a => simpa using hs
  | error e => exact hs s'

/-- Weaker postconditions on the calls. -/
theorem Logs.mono {x : ExceptT ε (Prog C A) α} {Q' : α → List (Answered C A) → Prop}
    {E' : ε → List (Answered C A) → Prop} (hx : Logs h x Q E) (hQ : ∀ a l, Q a l → Q' a l)
    (hE : ∀ e l, E e l → E' e l) : Logs h x Q' E' := by
  intro s
  have hs := hx s
  split at hs
  · exact hQ _ _ hs
  · exact hE _ _ hs

/-- Two postconditions on the calls at once. -/
theorem Logs.and {x : ExceptT ε (Prog C A) α} {Q' : α → List (Answered C A) → Prop}
    {E' : ε → List (Answered C A) → Prop} (hx : Logs h x Q E) (hx' : Logs h x Q' E') :
    Logs h x (fun a l => Q a l ∧ Q' a l) (fun e l => E e l ∧ E' e l) := by
  intro s
  have hs := hx s
  have hs' := hx' s
  split at hs
  · rename_i hr
    rw [hr] at hs'
    exact ⟨hs, hs'⟩
  · rename_i hr
    rw [hr] at hs'
    exact ⟨hs, hs'⟩

/-- A program made of calls of one kind leaves a trace of that kind. -/
theorem Only.trace {P : C → Prop} {p : Prog C A α} (hp : p.Only P) (s : S) :
    ∀ e ∈ p.trace h s, P e.1 := by
  induction p generalizing s with
  | pure a => simp [Prog.trace]
  | call c k ih =>
    simp only [Prog.trace, List.forall_mem_cons]
    exact ⟨hp.1, ih _ (hp.2 _) _⟩

/-- A program that makes certain calls only has made no others. -/
theorem OnlyE.logs {P : C → Prop} {x : ExceptT ε (Prog C A) α} (hx : OnlyE P x) :
    Logs h x (fun _ l => ∀ e ∈ l, P e.1) (fun _ l => ∀ e ∈ l, P e.1) := by
  intro s
  split <;> exact Only.trace hx s

end Rules

end Prog
