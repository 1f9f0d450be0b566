import Mathlib

/-!
# Programs that call

A program is a tree of calls: it ends with a value, or makes a call and goes on with the
answer. What a call does is left to an interpreter, a function from a call and a state to an
answer and the next state, so that one program can be run against several worlds. `wp` is the
weakest precondition under an interpreter, with a guard that every call has to meet in the
state it is made from.

Programs that may fail are programs in `ExceptT`; `wpE` has one postcondition for the value
and one for the exception.
-/

/-- A program with calls `C`, answered by `A`. -/
inductive Prog (C : Type) (A : C → Type) (α : Type) where
  | pure (a : α)
  | call (c : C) (k : A c → Prog C A α)

namespace Prog

variable {C : Type} {A : C → Type} {α β ε S : Type}

/-- Go on with another program. -/
def bind : Prog C A α → (α → Prog C A β) → Prog C A β
  | .pure a, f => f a
  | .call c k, f => .call c fun x => (k x).bind f

instance : Monad (Prog C A) where
  pure := Prog.pure
  bind := Prog.bind

/-- One call. -/
def perform (c : C) : Prog C A (A c) := .call c .pure

/-- Run a program from a state. -/
def run (h : (c : C) → S → A c × S) : Prog C A α → S → α × S
  | .pure a, s => (a, s)
  | .call c k, s => (k (h c s).1).run h (h c s).2

/-- The weakest precondition: every call meets the guard, and the end is as required. -/
def wp (h : (c : C) → S → A c × S) (guard : S → C → Prop) :
    Prog C A α → (α → S → Prop) → S → Prop
  | .pure a, Q, s => Q a s
  | .call c k, Q, s => guard s c ∧ (k (h c s).1).wp h guard Q (h c s).2

instance decidableWp {h : (c : C) → S → A c × S} {guard : S → C → Prop}
    [∀ s c, Decidable (guard s c)] {Q : α → S → Prop} [∀ a s, Decidable (Q a s)] :
    ∀ (p : Prog C A α) (s : S), Decidable (p.wp h guard Q s)
  | .pure a, s => inferInstanceAs (Decidable (Q a s))
  | .call c k, s =>
    have : Decidable ((k (h c s).1).wp h guard Q (h c s).2) := decidableWp _ _
    inferInstanceAs (Decidable (_ ∧ _))

section Rules

variable {h : (c : C) → S → A c × S} {guard : S → C → Prop}

/-- A program followed by another runs one after the other. -/
theorem run_bind (p : Prog C A α) (f : α → Prog C A β) (s : S) :
    (p >>= f).run h s = (f (p.run h s).1).run h (p.run h s).2 := by
  induction p generalizing s with
  | pure a => rfl
  | call c k ih => exact ih (h c s).1 (h c s).2

/-- The weakest precondition of one program followed by another. -/
theorem wp_bind (p : Prog C A α) (f : α → Prog C A β) (Q : β → S → Prop) (s : S) :
    (p >>= f).wp h guard Q s ↔ p.wp h guard (fun a s' => (f a).wp h guard Q s') s := by
  induction p generalizing s with
  | pure a => rfl
  | call c k ih => exact and_congr_right fun _ => ih (h c s).1 (h c s).2

/-- A weaker postcondition has a weaker precondition. -/
theorem wp_mono {p : Prog C A α} {Q Q' : α → S → Prop} (hQ : ∀ a s, Q a s → Q' a s) {s : S}
    (hp : p.wp h guard Q s) : p.wp h guard Q' s := by
  induction p generalizing s with
  | pure a => exact hQ a s hp
  | call c k ih => exact ⟨hp.1, ih _ hp.2⟩

/-- Asking for nothing is granted. -/
theorem wp_trivial (p : Prog C A α) (s : S) :
    p.wp h (fun _ _ => True) (fun _ _ => True) s := by
  induction p generalizing s with
  | pure a => trivial
  | call c k ih => exact ⟨trivial, ih _ _⟩

/-- A weakest precondition speaks of the one run there is. -/
theorem wp_iff_run (p : Prog C A α) (Q : α → S → Prop) (s : S) :
    p.wp h guard Q s ↔
      p.wp h guard (fun _ _ => True) s ∧ Q (p.run h s).1 (p.run h s).2 := by
  induction p generalizing s with
  | pure a => simp [wp, run]
  | call c k ih =>
    simp only [wp, run]
    rw [ih]
    exact and_assoc.symm

/-- What every guarded call preserves, a guarded program preserves. -/
theorem run_invariant {I : S → Prop}
    (hcall : ∀ s c, I s → guard s c → I (h c s).2) {p : Prog C A α} {s : S}
    (hp : p.wp h guard (fun _ _ => True) s) (hs : I s) : I (p.run h s).2 := by
  induction p generalizing s with
  | pure a => exact hs
  | call c k ih => exact ih _ hp.2 (hcall s c hs hp.1)

/-- Two guards that are both met are met at once. -/
theorem wp_and {guard' : S → C → Prop} {p : Prog C A α} {Q Q' : α → S → Prop} {s : S}
    (hp : p.wp h guard Q s) (hp' : p.wp h guard' Q' s) :
    p.wp h (fun s c => guard s c ∧ guard' s c) (fun a s => Q a s ∧ Q' a s) s := by
  induction p generalizing s with
  | pure a => exact ⟨hp, hp'⟩
  | call c k ih => exact ⟨⟨hp.1, hp'.1⟩, ih _ hp.2 hp'.2⟩

/-- A call meets a weaker guard wherever it meets a stronger one, as long as an invariant
that the stronger one preserves holds. -/
theorem wp_guard_mono {guard' : S → C → Prop} {I : S → Prop}
    (hcall : ∀ s c, I s → guard s c → guard' s c ∧ I (h c s).2) {p : Prog C A α}
    {Q : α → S → Prop} {s : S} (hp : p.wp h guard Q s) (hs : I s) : p.wp h guard' Q s := by
  induction p generalizing s with
  | pure a => exact hp
  | call c k ih =>
    obtain ⟨hg, hi⟩ := hcall s c hs hp.1
    exact ⟨hg, ih _ hp.2 hi⟩

/-- Two handlers that answer every guarded call alike run a guarded program alike. -/
theorem run_eq_of_guarded {h' : (c : C) → S → A c × S} (hsame : ∀ s c, guard s c → h' c s = h c s)
    {p : Prog C A α} {Q : α → S → Prop} {s : S} (hp : p.wp h guard Q s) :
    p.run h' s = p.run h s := by
  induction p generalizing s with
  | pure a => rfl
  | call c k ih =>
    rw [run, run, hsame s c hp.1]
    exact ih _ hp.2

end Rules

/-! ## The calls a program is made of -/

/-- Every call a program may come to, whatever the answers, is of one kind. -/
def Only (P : C → Prop) : Prog C A α → Prop
  | .pure _ => True
  | .call c k => P c ∧ ∀ x, (k x).Only P

/-- Programs that make certain calls only do so one after the other. -/
theorem Only.bind {P : C → Prop} {p : Prog C A α} {f : α → Prog C A β} (hp : p.Only P)
    (hf : ∀ a, (f a).Only P) : (p >>= f).Only P := by
  induction p with
  | pure a => exact hf a
  | call c k ih => exact ⟨hp.1, fun x => ih x (hp.2 x)⟩

/-- A program that makes certain calls only makes only those of a larger set. -/
theorem Only.mono {P P' : C → Prop} {p : Prog C A α} (hp : p.Only P) (h : ∀ c, P c → P' c) :
    p.Only P' := by
  induction p with
  | pure a => trivial
  | call c k ih => exact ⟨h c hp.1, fun x => ih x (hp.2 x)⟩

/-- A program made of calls of one kind makes no other, wherever it is run. -/
theorem Only.wp {P : C → Prop} {p : Prog C A α} (hp : p.Only P) {h : (c : C) → S → A c × S}
    (s : S) :
    p.wp h (fun _ c => P c) (fun _ _ => True) s := by
  induction p generalizing s with
  | pure a => trivial
  | call c k ih => exact ⟨hp.1, ih _ (hp.2 _) _⟩

/-! ## A program among more calls -/

section Embedding

variable {D : Type} {B : D → Type} (ι : C → D) (back : (c : C) → B (ι c) → A c)

/-- Read a program as one that could have made further calls. -/
def embed : Prog C A α → Prog D B α
  | .pure a => .pure a
  | .call c k => .call (ι c) fun x => (k (back c x)).embed

variable {h : (c : C) → S → A c × S} {h' : (d : D) → S → B d × S}

/-- The two interpreters agree on the calls both have. -/
def Agree (h : (c : C) → S → A c × S) (h' : (d : D) → S → B d × S) : Prop :=
  ∀ c s, h c s = (back c (h' (ι c) s).1, (h' (ι c) s).2)

variable {ι back}

/-- A program runs alike among more calls. -/
theorem run_embed (hh : Agree ι back h h') (p : Prog C A α) (s : S) :
    (p.embed ι back).run h' s = p.run h s := by
  induction p generalizing s with
  | pure a => rfl
  | call c k ih =>
    simp only [embed, run, hh c s]
    exact ih _ _

/-- The weakest precondition of a program among more calls. -/
theorem wp_embed (hh : Agree ι back h h') {guard : S → D → Prop} (p : Prog C A α)
    (Q : α → S → Prop) (s : S) :
    (p.embed ι back).wp h' guard Q s ↔ p.wp h (fun s c => guard s (ι c)) Q s := by
  induction p generalizing s with
  | pure a => rfl
  | call c k ih =>
    simp only [embed, wp, hh c s]
    exact and_congr_right fun _ => ih _ _

/-- What calls a program makes, among more calls. -/
theorem Only.embed {P : D → Prop} {p : Prog C A α} (hp : p.Only fun c => P (ι c)) :
    (p.embed ι back).Only P := by
  induction p with
  | pure a => trivial
  | call c k ih => exact ⟨hp.1, fun x => ih _ (hp.2 _)⟩

end Embedding

/-! ## Programs that may fail -/

section Failing

variable (h : (c : C) → S → A c × S) (guard : S → C → Prop)

/-- The weakest precondition of a program that may fail. -/
def wpE (x : ExceptT ε (Prog C A) α) (Q : α → S → Prop) (E : ε → S → Prop) (s : S) : Prop :=
  Prog.wp h guard x.run (fun r s' => match r with
    | .ok a => Q a s'
    | .error e => E e s') s

instance {x : ExceptT ε (Prog C A) α} {Q : α → S → Prop} {E : ε → S → Prop} {s : S}
    [∀ s c, Decidable (guard s c)] [∀ a s, Decidable (Q a s)] [∀ e s, Decidable (E e s)] :
    Decidable (wpE h guard x Q E s) :=
  have (r : Except ε α) (s' : S) : Decidable (match r with
      | .ok a => Q a s'
      | .error e => E e s') :=
    match r with
    | .ok a => inferInstanceAs (Decidable (Q a s'))
    | .error e => inferInstanceAs (Decidable (E e s'))
  inferInstanceAs (Decidable (Prog.wp h guard x.run _ s))

/-- Run a program that may fail. -/
def runE (x : ExceptT ε (Prog C A) α) (s : S) : Except ε α × S := Prog.run h x.run s

/-- One call, in a program that may fail. -/
def performE (c : C) : ExceptT ε (Prog C A) (A c) := ExceptT.lift (perform c)

variable {h guard} {Q : α → S → Prop} {E : ε → S → Prop} {s : S}

/-- A program that may fail, followed by another. -/
theorem run_bindE (x : ExceptT ε (Prog C A) α) (f : α → ExceptT ε (Prog C A) β) :
    (x >>= f).run = x.run >>= fun r => match r with
      | .ok a => (f a).run
      | .error e => Prog.pure (.error e) := by
  show ExceptT.bind x f = _
  unfold ExceptT.bind ExceptT.mk
  congr 1
  funext r
  cases r <;> rfl

/-- A program that may fail, and what is done then. -/
theorem run_tryCatchE (x : ExceptT ε (Prog C A) α) (f : ε → ExceptT ε (Prog C A) α) :
    (tryCatch x f : ExceptT ε (Prog C A) α).run = x.run >>= fun r => match r with
      | .ok a => Prog.pure (.ok a)
      | .error e => (f e).run := by
  show (ExceptT.tryCatch x f : ExceptT ε (Prog C A) α) = _
  unfold ExceptT.tryCatch ExceptT.mk
  congr 1
  funext r
  cases r <;> rfl

/-- A program that returns at once. -/
@[simp] theorem runE_pure (a : α) :
    runE h (Pure.pure a : ExceptT ε (Prog C A) α) s = (.ok a, s) := rfl

/-- A program that fails at once. -/
@[simp] theorem runE_throw (e : ε) :
    runE h (throw e : ExceptT ε (Prog C A) α) s = (.error e, s) := rfl

/-- A program that makes one call. -/
@[simp] theorem runE_performE (c : C) :
    runE h (performE c : ExceptT ε (Prog C A) (A c)) s = (.ok (h c s).1, (h c s).2) := rfl

/-- The run of one program followed by another. -/
theorem runE_bind (x : ExceptT ε (Prog C A) α) (f : α → ExceptT ε (Prog C A) β) :
    runE h (x >>= f) s = match runE h x s with
      | (.ok a, s') => runE h (f a) s'
      | (.error e, s') => (.error e, s') := by
  rw [runE, run_bindE, run_bind]
  unfold runE
  rcases Prog.run h x.run s with ⟨r, s'⟩
  cases r <;> rfl

/-- Go on after a program that returns. -/
theorem runE_bind_ok {x : ExceptT ε (Prog C A) α} {f : α → ExceptT ε (Prog C A) β} {a : α} {s' : S}
    (hx : runE h x s = (.ok a, s')) : runE h (x >>= f) s = runE h (f a) s' := by
  rw [runE_bind, hx]

/-- The run of a program whose failure is handled. -/
theorem runE_tryCatch (x : ExceptT ε (Prog C A) α) (f : ε → ExceptT ε (Prog C A) α) :
    runE h (tryCatch x f) s = match runE h x s with
      | (.ok a, s') => (.ok a, s')
      | (.error e, s') => runE h (f e) s' := by
  rw [runE, run_tryCatchE, run_bind]
  unfold runE
  rcases Prog.run h x.run s with ⟨r, s'⟩
  cases r <;> rfl

/-- Returning at once. -/
@[simp] theorem wpE_pure (a : α) :
    wpE h guard (Pure.pure a : ExceptT ε (Prog C A) α) Q E s ↔ Q a s := Iff.rfl

/-- Failing at once. -/
@[simp] theorem wpE_throw (e : ε) :
    wpE h guard (throw e : ExceptT ε (Prog C A) α) Q E s ↔ E e s := Iff.rfl

/-- Making one call. -/
@[simp] theorem wpE_performE (c : C) (Q : A c → S → Prop) :
    wpE h guard (performE c : ExceptT ε (Prog C A) (A c)) Q E s ↔
      guard s c ∧ Q (h c s).1 (h c s).2 := Iff.rfl

/-- One program after the other. -/
@[simp] theorem wpE_bind (x : ExceptT ε (Prog C A) α) (f : α → ExceptT ε (Prog C A) β)
    (Q : β → S → Prop) :
    wpE h guard (x >>= f) Q E s ↔ wpE h guard x (fun a s' => wpE h guard (f a) Q E s') E s := by
  unfold wpE
  rw [run_bindE, wp_bind]
  constructor <;> refine wp_mono fun r s' hr => ?_ <;> cases r <;> exact hr

/-- Handling a failure. -/
@[simp] theorem wpE_tryCatch (x : ExceptT ε (Prog C A) α) (f : ε → ExceptT ε (Prog C A) α) :
    wpE h guard (tryCatch x f) Q E s ↔
      wpE h guard x Q (fun e s' => wpE h guard (f e) Q E s') s := by
  unfold wpE
  rw [run_tryCatchE, wp_bind]
  constructor <;> refine wp_mono fun r s' hr => ?_ <;> cases r <;> exact hr

/-- Either of two programs. -/
@[simp] theorem wpE_ite {p : Prop} [Decidable p] (x y : ExceptT ε (Prog C A) α) :
    wpE h guard (if p then x else y) Q E s ↔
      (p → wpE h guard x Q E s) ∧ (¬p → wpE h guard y Q E s) := by
  split <;> simp [*]

/-- Weaker postconditions have a weaker precondition. -/
theorem wpE_mono {x : ExceptT ε (Prog C A) α} {Q' : α → S → Prop} {E' : ε → S → Prop}
    (hQ : ∀ a s, Q a s → Q' a s) (hE : ∀ e s, E e s → E' e s) (hx : wpE h guard x Q E s) :
    wpE h guard x Q' E' s := by
  refine wp_mono (fun r s' hr => ?_) hx
  cases r with
  | ok a => exact hQ a s' hr
  | error e => exact hE e s' hr

/-- Nothing is asked of a program. -/
theorem wpE_trivial (x : ExceptT ε (Prog C A) α) :
    wpE h (fun _ _ => True) x (fun _ _ => True) (fun _ _ => True) s :=
  wp_mono (fun r _ _ => by cases r <;> trivial) (wp_trivial x.run s)

/-- Two guards that are both met are met at once. -/
theorem wpE_and {guard' : S → C → Prop} {x : ExceptT ε (Prog C A) α}
    (hx : wpE h guard x (fun _ _ => True) (fun _ _ => True) s)
    (hx' : wpE h guard' x (fun _ _ => True) (fun _ _ => True) s) :
    wpE h (fun s c => guard s c ∧ guard' s c) x (fun _ _ => True) (fun _ _ => True) s :=
  wp_mono (fun r _ _ => by cases r <;> trivial) (wp_and hx hx')

/-- What every guarded call preserves, a guarded program that may fail preserves. -/
theorem runE_invariant {I : S → Prop}
    (hcall : ∀ s c, I s → guard s c → I (h c s).2) {x : ExceptT ε (Prog C A) α}
    (hx : wpE h guard x (fun _ _ => True) (fun _ _ => True) s) (hs : I s) :
    I (runE h x s).2 :=
  run_invariant hcall (wp_mono (fun _ _ _ => trivial) hx) hs

/-- Two handlers that answer every guarded call alike run a guarded program alike. -/
theorem runE_eq_of_guarded {h' : (c : C) → S → A c × S}
    (hsame : ∀ s c, guard s c → h' c s = h c s) {x : ExceptT ε (Prog C A) α}
    (hx : wpE h guard x Q E s) : runE h' x s = runE h x s := run_eq_of_guarded hsame hx

/-- A weakest precondition asks something of the calls and of the end of the one run there is. -/
theorem wpE_iff_run (x : ExceptT ε (Prog C A) α) :
    wpE h guard x Q E s ↔ wpE h guard x (fun _ _ => True) (fun _ _ => True) s ∧
      match runE h x s with
      | (.ok a, s') => Q a s'
      | (.error e, s') => E e s' := by
  have htriv : wpE h guard x (fun _ _ => True) (fun _ _ => True) s ↔
      x.run.wp h guard (fun _ _ => True) s :=
    ⟨wp_mono fun _ _ _ => trivial, wp_mono fun r _ _ => by cases r <;> trivial⟩
  rw [htriv]
  refine (wp_iff_run _ _ _).trans (and_congr_right fun _ => ?_)
  unfold runE
  rcases Prog.run h x.run s with ⟨r, s'⟩
  cases r <;> rfl

/-- Programs with the same weakest preconditions have the same run. -/
theorem runE_congr {x y : ExceptT ε (Prog C A) α}
    (hxy : ∀ Q E, wpE h (fun _ _ => True) x Q E s ↔ wpE h (fun _ _ => True) y Q E s) :
    runE h x s = runE h y s := by
  have hy : wpE h (fun _ _ => True) y (fun a s' => runE h y s = (.ok a, s'))
      (fun e s' => runE h y s = (.error e, s')) s := by
    rw [wpE_iff_run]
    refine ⟨wp_mono (fun r _ _ => by cases r <;> trivial) (wp_trivial _ _), ?_⟩
    rcases runE h y s with ⟨e | a, s'⟩ <;> rfl
  have hx := ((wpE_iff_run _).mp ((hxy _ _).mpr hy)).2
  rcases hrun : runE h x s with ⟨e | a, s'⟩
  · rw [hrun] at hx
    exact hx.symm
  · rw [hrun] at hx
    exact hx.symm

/-- A guard may be replaced by one that asks for less. -/
theorem wpE_guard_mono {guard' : S → C → Prop} (hg : ∀ s c, guard s c → guard' s c)
    {x : ExceptT ε (Prog C A) α} (hx : wpE h guard x Q E s) : wpE h guard' x Q E s :=
  wp_guard_mono (I := fun _ => True) (fun s c _ hc => ⟨hg s c hc, trivial⟩) hx trivial

/-- Read the end of a run that returns off a weakest precondition. -/
theorem wpE_ok {x : ExceptT ε (Prog C A) α} (hx : wpE h guard x Q E s) {a : α} {s' : S}
    (hr : runE h x s = (.ok a, s')) : Q a s' := by
  have := ((wp_iff_run _ _ _).mp hx).2
  rw [show Prog.run h x.run s = (.ok a, s') from hr] at this
  exact this

/-- Read the end of a run that fails off a weakest precondition. -/
theorem wpE_error {x : ExceptT ε (Prog C A) α} (hx : wpE h guard x Q E s) {e : ε} {s' : S}
    (hr : runE h x s = (.error e, s')) : E e s' := by
  have := ((wp_iff_run _ _ _).mp hx).2
  rw [show Prog.run h x.run s = (.error e, s') from hr] at this
  exact this

/-- Every call a program that may fail may come to is of one kind. -/
def OnlyE (P : C → Prop) (x : ExceptT ε (Prog C A) α) : Prop := Only P x.run

/-- Returning at once makes no call. -/
@[simp] theorem onlyE_pure {P : C → Prop} (a : α) :
    OnlyE P (Pure.pure a : ExceptT ε (Prog C A) α) := trivial

/-- Failing at once makes no call. -/
@[simp] theorem onlyE_throw {P : C → Prop} (e : ε) :
    OnlyE P (throw e : ExceptT ε (Prog C A) α) := trivial

/-- Making one call of the set. -/
theorem onlyE_performE {P : C → Prop} {c : C} (hc : P c) :
    OnlyE P (performE c : ExceptT ε (Prog C A) (A c)) := ⟨hc, fun _ => trivial⟩

/-- One program after the other, each of which makes certain calls only. -/
theorem OnlyE.bind {P : C → Prop} {x : ExceptT ε (Prog C A) α} {f : α → ExceptT ε (Prog C A) β}
    (hx : OnlyE P x) (hf : ∀ a, OnlyE P (f a)) : OnlyE P (x >>= f) := by
  unfold OnlyE
  rw [run_bindE]
  refine Only.bind hx fun r => ?_
  cases r with
  | ok a => exact hf a
  | error e => trivial

/-- Handling a failure, with certain calls only. -/
theorem OnlyE.tryCatch {P : C → Prop} {x : ExceptT ε (Prog C A) α}
    {f : ε → ExceptT ε (Prog C A) α} (hx : OnlyE P x) (hf : ∀ e, OnlyE P (f e)) :
    OnlyE P (MonadExcept.tryCatch x f) := by
  unfold OnlyE
  rw [run_tryCatchE]
  refine Only.bind hx fun r => ?_
  cases r with
  | ok a => trivial
  | error e => exact hf e

/-- A program that makes certain calls only makes only those of a larger set. -/
theorem OnlyE.mono {P P' : C → Prop} {x : ExceptT ε (Prog C A) α} (hx : OnlyE P x)
    (h : ∀ c, P c → P' c) : OnlyE P' x := Only.mono hx h

/-- A program that makes certain calls only meets a guard that asks for them. -/
theorem OnlyE.wpE {P : C → Prop} {x : ExceptT ε (Prog C A) α} (hx : OnlyE P x) (s : S) :
    wpE h (fun _ c => P c) x (fun _ _ => True) (fun _ _ => True) s :=
  wp_mono (fun r _ _ => by cases r <;> trivial) (Only.wp hx s)

/-- Every call of a program that may fail is of one kind, from whatever state it is run. -/
def Always (h : (c : C) → S → A c × S) (P : C → Prop) (x : ExceptT ε (Prog C A) α) : Prop :=
  ∀ s, wpE h (fun _ c => P c) x (fun _ _ => True) (fun _ _ => True) s

/-- A program that makes certain calls only does so from every state. -/
theorem OnlyE.always {P : C → Prop} {x : ExceptT ε (Prog C A) α} (hx : OnlyE P x) : Always h P x :=
  fun s => hx.wpE s

/-- One program after the other, each of which makes certain calls only in every run. -/
theorem Always.bind {P : C → Prop} {x : ExceptT ε (Prog C A) α} {f : α → ExceptT ε (Prog C A) β}
    (hx : Always h P x) (hf : ∀ a, Always h P (f a)) : Always h P (x >>= f) := fun s =>
  (wpE_bind _ _ _).mpr (wpE_mono (fun a s' _ => hf a s') (fun _ _ h => h) (hx s))

/-- Handling a failure, with certain calls only in every run. -/
theorem Always.tryCatch {P : C → Prop} {x : ExceptT ε (Prog C A) α}
    {f : ε → ExceptT ε (Prog C A) α} (hx : Always h P x) (hf : ∀ e, Always h P (f e)) :
    Always h P (MonadExcept.tryCatch x f) := fun s =>
  (wpE_tryCatch _ _).mpr (wpE_mono (fun _ _ h => h) (fun e s' _ => hf e s') (hx s))

variable {D : Type} {B : D → Type}

/-- Read a program that may fail as one that could have made further calls. -/
def embedE (ι : C → D) (back : (c : C) → B (ι c) → A c) (x : ExceptT ε (Prog C A) α) :
    ExceptT ε (Prog D B) α := ExceptT.mk (x.run.embed ι back)

variable {ι : C → D} {back : (c : C) → B (ι c) → A c} {h' : (d : D) → S → B d × S}

/-- A program that may fail runs alike among more calls. -/
theorem runE_embedE (hh : Agree ι back h h') (x : ExceptT ε (Prog C A) α) :
    runE h' (embedE ι back x) s = runE h x s := run_embed hh _ _

/-- The weakest precondition of a program that may fail, among more calls. -/
theorem wpE_embedE (hh : Agree ι back h h') {guard : S → D → Prop}
    (x : ExceptT ε (Prog C A) α) :
    wpE h' guard (embedE ι back x) Q E s ↔ wpE h (fun s c => guard s (ι c)) x Q E s :=
  wp_embed hh _ _ _

/-- What calls a program that may fail makes, among more calls. -/
theorem OnlyE.embedE {P : D → Prop} {x : ExceptT ε (Prog C A) α} (hx : OnlyE (fun c => P (ι c)) x) :
    OnlyE P (Prog.embedE ι back x) := Only.embed hx

end Failing

end Prog
