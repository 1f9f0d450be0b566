import Cassetta.Auth.KeyStore

/-!
# Calls that fail half way

Every operation of the key store changes the memory before it writes the file, and nothing is
taken back when the write fails. `setup` sets its flag before it looks for the label. This
module says exactly which calls leave memory and file as they were or in agreement.
-/

namespace Cassetta.FileKeyStore

open Runs

variable {hash : String → String}

/-! ## The property and the condition -/

/-- A store that started from the file now would be like this one. -/
def Store.Reloads (st : Store) : Prop := load st.file = some st.memory

instance (st : Store) : Decidable st.Reloads := inferInstanceAs (Decidable (_ = _))

/-- A call that raises leaves memory and file exactly as before, and after the call the file
agrees with the memory. -/
structure Atomic (hash : String → String) (st : Store) (op : KeyOp) (draw : Draw) : Prop where
  undone : ∀ e, (op.call hash draw st).1 = .error e → (op.call hash draw st).2 = st
  reloads : (op.call hash draw st).2.Reloads

/-- A call that comes to its write finds the write going through, and a first setup is for a
label that has no active key. -/
def Safe (c : Contents) (op : KeyOp) (draw : Draw) : Prop :=
  (c.Reaches op = true → draw.write = .succeeds) ∧ c.Clashes op = false

instance (c : Contents) (op : KeyOp) (draw : Draw) : Decidable (Safe c op draw) :=
  inferInstanceAs (Decidable (_ ∧ _))

/-- The condition, for an event of a run. -/
def Running.Safe (p : Running) : KeyEvent → Prop
  | .call op draw => ∀ st ∈ p.store, FileKeyStore.Safe st.memory op draw
  | .restart => True

instance (p : Running) : ∀ e, Decidable (p.Safe e)
  | .call op draw =>
    inferInstanceAs (Decidable (∀ st ∈ p.store, FileKeyStore.Safe st.memory op draw))
  | .restart => .isTrue trivial

/-! ## One call -/

/-- What a call hands to `_save` is never what was in memory before. -/
theorem changed_ne {c : Contents} {op : KeyOp} (hr : c.Reaches op = true) (draw : Draw) :
    c.changed hash op draw ≠ c := by
  intro heq
  have hkeys := congrArg Contents.keys heq
  have hlength := congrArg List.length hkeys
  cases op with
  | setup label => simp [Contents.changed] at hlength
  | createKey label => simp [Contents.changed] at hlength
  | rotateKey label => simp [Contents.changed] at hlength
  | revokeKey label =>
    have hgone := holds_map_retire c label c.setupDone
    have hsame : (⟨c.setupDone, c.keys.map (retire label)⟩ : Contents) = c := heq
    rw [hsame] at hgone
    simp only [Contents.Reaches] at hr
    rw [hgone] at hr
    cases hr

private theorem not_clashes_of_reaches {c : Contents} {op : KeyOp} (hr : c.Reaches op = true) :
    c.Clashes op = false := by
  cases op with
  | setup label =>
    simp only [Contents.Reaches, Bool.and_eq_true, Bool.not_eq_true'] at hr
    simp [Contents.Clashes, hr.2]
  | _ => rfl

private theorem save_cases (write : Write) (st : Store) :
    (write = .succeeds ∧ save write st = (.ok (), { st with file := some (.dumped st.memory) })) ∨
      write ≠ .succeeds ∧ ∃ file, save write st = (.error .osError, { st with file }) := by
  cases write with
  | succeeds => exact .inl ⟨rfl, rfl⟩
  | noDirectory => exact .inr ⟨by simp, st.file, rfl⟩
  | notOpened => exact .inr ⟨by simp, st.file, rfl⟩
  | cutShort => exact .inr ⟨by simp, some (.cut st.memory), rfl⟩
  | closeFailed => exact .inr ⟨by simp, some (.dumped st.memory), rfl⟩

/-- From a store that agrees with its file, a call is atomic exactly if it is safe. -/
theorem atomic_iff_safe {st : Store} (hone : st.memory.OneActive) (hload : st.Reloads) (op : KeyOp)
    (draw : Draw) : Atomic hash st op draw ↔ Safe st.memory op draw := by
  rcases call_spec hash hone op draw with ⟨hreach, heq⟩ | ⟨hreach, e, heq⟩
  · rcases save_cases draw.write { st with memory := st.memory.changed hash op draw } with
      ⟨hw, hsave⟩ | ⟨hw, file, hsave⟩
    · have hcall : op.call hash draw st = (.ok (op.returned draw),
          ⟨st.memory.changed hash op draw, some (.dumped (st.memory.changed hash op draw))⟩) := by
        rw [heq, hsave]
        rfl
      refine iff_of_true ⟨fun e he => ?_, ?_⟩ ⟨fun _ => hw, not_clashes_of_reaches hreach⟩
      · rw [hcall] at he
        cases he
      · rw [hcall]
        rfl
    · have hcall : op.call hash draw st = (.error .osError,
          ⟨st.memory.changed hash op draw, file⟩) := by
        rw [heq, hsave]
        rfl
      refine iff_of_false (fun h => ?_) fun h => hw (h.1 hreach)
      have hst := h.undone .osError (by rw [hcall])
      rw [hcall] at hst
      exact changed_ne hreach draw (congrArg Store.memory hst)
  · cases hclash : st.memory.Clashes op with
    | false =>
      have hcall : op.call hash draw st = (.error e, st) := by
        rw [heq, hclash]
        rfl
      refine iff_of_true ⟨fun _ _ => by rw [hcall], by rwa [hcall]⟩ ⟨fun h => ?_, hclash⟩
      rw [hreach] at h
      cases h
    | true =>
      have hcall : op.call hash draw st =
          (.error e, { st with memory := { st.memory with setupDone := true } }) := by
        rw [heq, hclash]
        rfl
      refine iff_of_false (fun h => ?_) fun h => Bool.false_ne_true (h.2.symm.trans hclash)
      have hst := h.undone e (by rw [hcall])
      rw [hcall] at hst
      have hdone : true = st.memory.setupDone :=
        congrArg (fun s : Store => s.memory.setupDone) hst
      cases op with
      | setup label => simp [Contents.Clashes, ← hdone] at hclash
      | _ => cases hclash

/-! ## Runs -/

/-- In every run whose calls are all safe the store stays up and agrees with its file; and from
a store that is up and agrees with its file, however it got there, the next call is atomic if
and only if it is safe. -/
theorem run_atomic_iff (hash : String → String) (events : List KeyEvent) :
    (Guarded (Running.step hash) Running.Safe {} events →
        ∃ st, (Running.run hash events).store = some st ∧ st.Reloads) ∧
      ∀ st, (Running.run hash events).store = some st → st.Reloads → ∀ op draw,
        Atomic hash st op draw ↔ Safe st.memory op draw := by
  refine ⟨fun h => ?_, fun st hst hload op draw =>
    atomic_iff_safe (run_sound hash events st hst).memory hload op draw⟩
  have hstep : ∀ (p : Running) (e : KeyEvent),
      (∃ st, p.store = some st ∧ st.Sound ∧ st.Reloads) → p.Safe e →
      ∃ st, (p.step hash e).store = some st ∧ st.Sound ∧ st.Reloads := by
    rintro p e ⟨st, hst, hsound, hload⟩ hsafe
    cases e with
    | call op draw =>
      have hatomic : Atomic hash st op draw :=
        (atomic_iff_safe hsound.memory hload op draw).mpr (hsafe st hst)
      exact ⟨(op.call hash draw st).2, by simp [Running.step, hst], hsound.call hash op draw,
        hatomic.reloads⟩
    | restart =>
      refine ⟨st, ?_, hsound, hload⟩
      simp [Running.step, hst, show load st.file = some st.memory from hload]
  obtain ⟨st, hst, -, hload⟩ := h.invariant hstep ⟨{}, rfl, sound_empty, rfl⟩
  exact ⟨st, hst, hload⟩

/-- A setup, a refused setup, and a revocation. -/
def setupTwice : List KeyEvent :=
  [.call (.setup "a") ⟨"1", 0, .succeeds⟩, .call (.setup "a") ⟨"2", 0, .cutShort⟩,
    .call (.revokeKey "a") ⟨"3", 0, .succeeds⟩]

/-- A store that was set up twice reloads. -/
theorem run_atomic_setupTwice :
    ∃ st, (Running.run id setupTwice).store = some st ∧ st.Reloads :=
  (run_atomic_iff id setupTwice).1 (by decide)

/-- A first setup whose write is cut short: the call raises, the memory says that setup is done
and keeps a key that nobody was told, and the file can no longer be read. -/
theorem setup_not_atomic :
    ((KeyOp.setup "a").call id ⟨"1", 0, .cutShort⟩ {}).1 = .error .osError ∧
      ((KeyOp.setup "a").call id ⟨"1", 0, .cutShort⟩ {}).2.memory.setupDone = true ∧
      load ((KeyOp.setup "a").call id ⟨"1", 0, .cutShort⟩ {}).2.file = none ∧
      ¬Atomic id {} (.setup "a") ⟨"1", 0, .cutShort⟩ := by
  refine ⟨by decide, by decide, by decide, fun h => ?_⟩
  have hst := h.undone .osError (by decide)
  revert hst
  decide

end Cassetta.FileKeyStore
