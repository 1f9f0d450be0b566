import Mathlib
import Cassetta.Core.Prog

/-!
# Programs side by side

Several programs share one state and make their calls one at a time in any order. Each carries
a mode that follows its own calls. Between two calls of a program the others may change the
state, so what it finds is only known up to its mode: `swp` asks that from every state its mode
may meet, each call is one the mode may make and the rest goes on in the next mode.
-/

namespace Threads

variable {C : Type} {A : C → Type} {α β ε S M : Type}

/-- A program under way. -/
structure Thread (C : Type) (A : C → Type) (M α : Type) where
  mode : M
  prog : Prog C A α

/-- What a program has come back with. -/
def Thread.result (t : Thread C A M α) : Option α :=
  match t.prog with
  | .pure a => some a
  | .call .. => none

section Pool

variable (h : (c : C) → S → A c × S) (next : M → C → S → M)

/-- Let one thread make its next call. -/
def step (w : S × List (Thread C A M α)) (i : Nat) : S × List (Thread C A M α) :=
  match w.2[i]? with
  | some ⟨μ, .call c k⟩ => ((h c w.1).2, w.2.set i ⟨next μ c w.1, k (h c w.1).1⟩)
  | _ => w

variable {h next}

/-- A step changes nothing, or is one call of one thread. -/
theorem step_cases (w : S × List (Thread C A M α)) (i : Nat) :
    step h next w i = w ∨ ∃ μ c k, w.2[i]? = some ⟨μ, .call c k⟩ ∧
      step h next w i = ((h c w.1).2, w.2.set i ⟨next μ c w.1, k (h c w.1).1⟩) := by
  unfold step
  split
  · rename_i μ c k hi
    exact .inr ⟨μ, c, k, hi, rfl⟩
  · exact .inl rfl

end Pool

/-! ## What one program is sure of -/

section Swp

variable (h : (c : C) → S → A c × S) (next : M → C → S → M) (W : M → S → Prop)
  (G : M → S → C → Prop)

/-- From every state that a mode may meet, every call is one it may make, and the end is as
required. -/
def swp : Prog C A α → (M → α → Prop) → M → Prop
  | .pure a, Q, μ => Q μ a
  | .call c k, Q, μ => ∀ s, W μ s → G μ s c ∧ swp (k (h c s).1) Q (next μ c s)

variable {h next W G}

/-- One program after the other. -/
theorem swp_bind (p : Prog C A α) (f : α → Prog C A β) (Q : M → β → Prop) (μ : M) :
    swp h next W G (p >>= f) Q μ ↔ swp h next W G p (fun μ' a => swp h next W G (f a) Q μ') μ := by
  induction p generalizing μ with
  | pure a => rfl
  | call c k ih =>
    exact forall_congr' fun s => imp_congr_right fun _ => and_congr_right fun _ =>
      ih (h c s).1 (next μ c s)

/-- A weaker postcondition has a weaker precondition. -/
theorem swp_mono {p : Prog C A α} {Q Q' : M → α → Prop} (hQ : ∀ μ a, Q μ a → Q' μ a) {μ : M}
    (hp : swp h next W G p Q μ) : swp h next W G p Q' μ := by
  induction p generalizing μ with
  | pure a => exact hQ μ a hp
  | call c k ih =>
    intro s hs
    obtain ⟨hg, hk⟩ := hp s hs
    exact ⟨hg, ih _ hk⟩

variable {D : Type} {B : D → Type} {ι : C → D} {back : (c : C) → B (ι c) → A c}
  {h' : (d : D) → S → B d × S} {next' : M → D → S → M} {G' : M → S → D → Prop}

/-- The rule of a program among more calls. -/
theorem swp_embed (hh : Prog.Agree ι back h h') (p : Prog C A α) (Q : M → α → Prop) (μ : M) :
    swp h' next' W G' (p.embed ι back) Q μ ↔
      swp h (fun μ c s => next' μ (ι c) s) W (fun μ s c => G' μ s (ι c)) p Q μ := by
  induction p generalizing μ with
  | pure a => rfl
  | call c k ih =>
    refine forall_congr' fun s => imp_congr_right fun _ => and_congr_right fun _ => ?_
    rw [hh c s]
    exact ih _ _

end Swp

/-! ## Programs that may fail -/

section Failing

variable (h : (c : C) → S → A c × S) (next : M → C → S → M) (W : M → S → Prop)
  (G : M → S → C → Prop)

/-- `swp` of a program that may fail. -/
def swpE (x : ExceptT ε (Prog C A) α) (Q : M → α → Prop) (E : M → ε → Prop) (μ : M) : Prop :=
  swp h next W G x.run (fun μ' r => match r with
    | .ok a => Q μ' a
    | .error e => E μ' e) μ

variable {h next W G} {Q : M → α → Prop} {E : M → ε → Prop} {μ : M}

/-- Returning at once. -/
@[simp] theorem swpE_pure (a : α) :
    swpE h next W G (Pure.pure a : ExceptT ε (Prog C A) α) Q E μ ↔ Q μ a := Iff.rfl

/-- Failing at once. -/
@[simp] theorem swpE_throw (e : ε) :
    swpE h next W G (throw e : ExceptT ε (Prog C A) α) Q E μ ↔ E μ e := Iff.rfl

/-- Making one call, in any state that the others may leave. -/
theorem swpE_performE (c : C) (Q : M → A c → Prop) :
    swpE h next W G (Prog.performE c : ExceptT ε (Prog C A) (A c)) Q E μ ↔
      ∀ s, W μ s → G μ s c ∧ Q (next μ c s) (h c s).1 := Iff.rfl

/-- One program that may fail after the other. -/
@[simp] theorem swpE_bind (x : ExceptT ε (Prog C A) α) (f : α → ExceptT ε (Prog C A) β)
    (Q : M → β → Prop) :
    swpE h next W G (x >>= f) Q E μ ↔
      swpE h next W G x (fun μ' a => swpE h next W G (f a) Q E μ') E μ := by
  unfold swpE
  rw [Prog.run_bindE, swp_bind]
  constructor <;> refine swp_mono fun μ' r hr => ?_ <;> cases r <;> exact hr

variable {D : Type} {B : D → Type} {ι : C → D} {back : (c : C) → B (ι c) → A c}
  {h' : (d : D) → S → B d × S} {next' : M → D → S → M} {G' : M → S → D → Prop}

/-- The rule of a program that may fail, among more calls. -/
theorem swpE_embedE (hh : Prog.Agree ι back h h') (x : ExceptT ε (Prog C A) α) :
    swpE h' next' W G' (Prog.embedE ι back x) Q E μ ↔
      swpE h (fun μ c s => next' μ (ι c) s) W (fun μ s c => G' μ s (ι c)) x Q E μ :=
  swp_embed hh _ _ _

end Failing

end Threads
