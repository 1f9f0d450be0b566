import Cassetta.Core.Prog

/-!
# Calls made for the record

Some calls are made for the record only: their answers should decide nothing. `Instrumented p y`
says that `y` is `p` with further calls of this kind put in, whose answers decide nothing. Two
interpreters that differ in how they answer such calls take `p` and `y` to the same end, as long as
`p` itself makes none.
-/

namespace Prog

variable {C : Type} {A : C → Type} {α β ε S T : Type}

/-- The same program with further emissions, whose answers are not looked at. -/
inductive Instrumented (emission : C → Prop) : Prog C A α → Prog C A α → Prop
  | pure (a : α) : Instrumented emission (.pure a) (.pure a)
  | call (c : C) {k k' : A c → Prog C A α} (h : ∀ x, Instrumented emission (k x) (k' x)) :
    Instrumented emission (.call c k) (.call c k')
  | emit {p : Prog C A α} {c : C} (hc : emission c) {k : A c → Prog C A α}
    (h : ∀ x, Instrumented emission p (k x)) : Instrumented emission p (.call c k)

/-- One interpreter answers as another does, but for the emissions, which touch nothing that the
other sees. -/
structure Noisy (emission : C → Prop) (h : (c : C) → S → A c × S) (g : (c : C) → T → A c × T)
    (view : T → S) : Prop where
  answer : ∀ c t, ¬emission c → (g c t).1 = (h c (view t)).1
  state : ∀ c t, ¬emission c → view (g c t).2 = (h c (view t)).2
  emits : ∀ c t, emission c → view (g c t).2 = view t

section Rules

variable {emission : C → Prop} {h : (c : C) → S → A c × S} {g : (c : C) → T → A c × T}
  {view : T → S}

/-- A program with no emissions put in. -/
theorem Instrumented.refl (p : Prog C A α) : Instrumented emission p p := by
  induction p with
  | pure a => exact .pure a
  | call c k ih => exact .call c ih

/-- Emissions put into one program and into the next. -/
theorem Instrumented.bind {p y : Prog C A α} {f f' : α → Prog C A β}
    (hp : Instrumented emission p y) (hf : ∀ a, Instrumented emission (f a) (f' a)) :
    Instrumented emission (p >>= f) (y >>= f') := by
  induction hp with
  | pure a => exact hf a
  | call c _ ih => exact .call c ih
  | emit hc _ ih => exact .emit hc ih

/-- Emissions put in, among more calls. -/
theorem Instrumented.embed {D : Type} {B : D → Type} {ι : C → D} {back : (c : C) → B (ι c) → A c}
    {emission : D → Prop} {p y : Prog C A α} (hy : Instrumented (fun c => emission (ι c)) p y) :
    Instrumented emission (p.embed ι back) (y.embed ι back) := by
  induction hy with
  | pure a => exact .pure a
  | call c _ ih => exact .call (ι c) fun x => ih (back c x)
  | emit hc _ ih => exact .emit hc fun x => ih (back _ x)

/-- Emissions that are answered whatever the state is are as good as absent where their answers
are not looked at. -/
theorem Instrumented.run_eq {p y : Prog C A α} (hy : Instrumented emission p y)
    (hsilent : ∀ c s, emission c → (h c s).2 = s) (s : S) : y.run h s = p.run h s := by
  induction hy generalizing s with
  | pure a => rfl
  | call c _ ih => exact ih _ _
  | @emit p c hc k _ ih =>
    rw [Prog.run, hsilent c s hc]
    exact ih _ _

/-- A program that makes no emission of its own comes to the same end under both interpreters,
with whatever emissions are put in. -/
theorem Instrumented.run_noisy {p y : Prog C A α} (hy : Instrumented emission p y)
    (hn : Noisy emission h g view) {t : T}
    (hp : p.wp h (fun _ c => ¬emission c) (fun _ _ => True) (view t)) :
    (y.run g t).1 = (p.run h (view t)).1 ∧ view (y.run g t).2 = (p.run h (view t)).2 := by
  induction hy generalizing t with
  | pure a => exact ⟨rfl, rfl⟩
  | call c _ ih =>
    obtain ⟨hc, hrest⟩ := hp
    rw [← hn.answer c t hc, ← hn.state c t hc] at hrest
    simp only [Prog.run, ← hn.answer c t hc, ← hn.state c t hc]
    exact ih _ hrest
  | @emit p c hc k _ ih =>
    have hview := hn.emits c t hc
    rw [← hview] at hp
    have := ih (g c t).1 hp
    rw [hview] at this
    exact this

end Rules

/-! ## Emissions that go wrong -/

section Betrayal

variable (emission : C → Prop) (h₀ h₁ : (c : C) → S → A c × S)

/-- A run makes no emission. -/
def Silent (x : ExceptT ε (Prog C A) α) (s : S) : Prop :=
  wpE h₀ (fun _ c => ¬emission c) x (fun _ _ => True) (fun _ _ => True) s

/-- Wherever an emission is come to, the run ends in one exception under the one interpreter, and
not in that exception under the other. -/
def Betrays (bad : ε) (x : ExceptT ε (Prog C A) α) : Prop :=
  ∀ s, ¬Silent emission h₀ x s →
    (runE h₁ x s).1 = .error bad ∧ (runE h₀ x s).1 ≠ .error bad

variable {emission h₀ h₁} {bad : ε} {x : ExceptT ε (Prog C A) α}
  {f : α → ExceptT ε (Prog C A) β} {s : S}

/-- A program that makes no emission is silent. -/
theorem OnlyE.silent (hx : OnlyE (fun c => ¬emission c) x) (s : S) : Silent emission h₀ x s :=
  hx.wpE s

/-- A program that makes no emission has none that could go wrong. -/
theorem OnlyE.betrays (hx : OnlyE (fun c => ¬emission c) x) : Betrays emission h₀ h₁ bad x :=
  fun s hs => absurd (hx.silent s) hs

/-- After a part that makes no emission, it is the rest that is silent. -/
theorem silent_bind_iff (hx : OnlyE (fun c => ¬emission c) x) :
    Silent emission h₀ (x >>= f) s ↔
      ∀ a s', runE h₀ x s = (.ok a, s') → Silent emission h₀ (f a) s' := by
  unfold Silent
  rw [wpE_bind]
  constructor
  · intro hw a s' hr
    exact wpE_ok hw hr
  · intro hw
    refine (wp_iff_run _ _ _).mpr ⟨wp_mono (fun _ _ _ => trivial) (hx.wpE s), ?_⟩
    rcases hr : Prog.run h₀ x.run s with ⟨r, s'⟩
    cases r with
    | ok a => exact hw a s' hr
    | error e => trivial

/-- After a part that makes no emission and returns, it is the rest that is silent. -/
theorem silent_bind_ok (hx : OnlyE (fun c => ¬emission c) x) {a : α} {s' : S}
    (hr : runE h₀ x s = (.ok a, s')) :
    Silent emission h₀ (x >>= f) s ↔ Silent emission h₀ (f a) s' := by
  rw [silent_bind_iff hx, hr]
  refine ⟨fun h => h a s' rfl, fun h a' s'' heq => ?_⟩
  cases heq
  exact h

/-- After a part that makes no emission, it is the handling that is silent. -/
theorem silent_tryCatch_iff {f : ε → ExceptT ε (Prog C A) α}
    (hx : OnlyE (fun c => ¬emission c) x) :
    Silent emission h₀ (tryCatch x f) s ↔
      ∀ e s', runE h₀ x s = (.error e, s') → Silent emission h₀ (f e) s' := by
  unfold Silent
  rw [wpE_tryCatch]
  constructor
  · intro hw e s' hr
    exact wpE_error hw hr
  · intro hw
    refine (wp_iff_run _ _ _).mpr ⟨wp_mono (fun _ _ _ => trivial) (hx.wpE s), ?_⟩
    rcases hr : Prog.run h₀ x.run s with ⟨r, s'⟩
    cases r with
    | ok a => trivial
    | error e => exact hw e s' hr

variable (hn : Noisy emission h₀ h₁ id)
include hn

/-- Both interpreters take a program without emissions to the same end. -/
theorem OnlyE.runE_eq (hx : OnlyE (fun c => ¬emission c) x) : runE h₁ x s = runE h₀ x s := by
  obtain ⟨hans, hstate⟩ := (Instrumented.refl x.run).run_noisy hn (t := s)
    (wp_mono (fun _ _ _ => trivial) (hx.wpE s))
  exact Prod.ext hans hstate

/-- After a part that makes no emission, what goes wrong goes wrong in the rest. -/
theorem betrays_bind (hx : OnlyE (fun c => ¬emission c) x)
    (hf : ∀ a, Betrays emission h₀ h₁ bad (f a)) : Betrays emission h₀ h₁ bad (x >>= f) := by
  intro s hs
  rw [silent_bind_iff hx] at hs
  simp only [Classical.not_forall] at hs
  obtain ⟨a, s', hr, hs'⟩ := hs
  rw [runE_bind_ok hr, runE_bind_ok ((hx.runE_eq hn).trans hr)]
  exact hf a s' hs'

/-- After a part that makes no emission, what goes wrong goes wrong in the handling. -/
theorem betrays_tryCatch {f : ε → ExceptT ε (Prog C A) α} (hx : OnlyE (fun c => ¬emission c) x)
    (hf : ∀ e, Betrays emission h₀ h₁ bad (f e)) :
    Betrays emission h₀ h₁ bad (tryCatch x f) := by
  intro s hs
  rw [silent_tryCatch_iff hx] at hs
  simp only [Classical.not_forall] at hs
  obtain ⟨e, s', hr, hs'⟩ := hs
  rw [runE_tryCatch, runE_tryCatch, hx.runE_eq hn, hr]
  exact hf e s' hs'

end Betrayal

end Prog
