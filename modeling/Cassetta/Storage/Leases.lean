import Cassetta.Storage.PrefixFree

/-!
# Leases

`acquire_lease`, `renew_lease` and `release_lease` of `FilesystemBackend`. The pods of a
deployment are processes on one storage root; each remembers its own leases, and what they share
is the lock file of a key, which one open file at a time can hold. A descriptor stands for an open
file and is never used again, and an id is one that `uuid4` has not given out before. The
`ttl_seconds` of a lease is not looked at, so it is not an argument here.
-/

namespace Cassetta

open FileTree

/-! ## Data -/

/-- `_LeaseInfo`. -/
structure LeaseInfo where
  fd : Nat
  leaseId : Nat
  deriving DecidableEq, Repr

/-- The system call that fails with an `OSError`; a lock that is taken is no failure. -/
inductive LeaseFault where
  | mkdir
  | openFile
  | flock
  | unlock
  | close
  deriving DecidableEq, Repr

/-- The `_leases` of every pod, and the open file that holds each lock file. -/
structure Pods where
  leases : Nat → String → Option LeaseInfo
  flocks : List String → Option (Nat × Nat)
  nextFd : Nat
  nextId : Nat

/-- No pod has a lease. -/
def Pods.init : Pods := ⟨fun _ _ => none, fun _ => none, 0, 0⟩

/-- `self._locks_dir / key`. -/
def Backend.lockFile (b : Backend) (key : String) : List String :=
  normalize (joinPath (spell (b.root ++ ["locks"])) key)

namespace Pods

/-- A pod takes note of a lease, or drops it. -/
def setLease (w : Pods) (p : Nat) (key : String) (info : Option LeaseInfo) : Pods :=
  { w with leases := Function.update w.leases p (Function.update (w.leases p) key info) }

/-- Close an open file: its lock is free. -/
def unlock (w : Pods) (loc : List String) (p fd : Nat) : Pods :=
  { w with flocks := if w.flocks loc = some (p, fd) then Function.update w.flocks loc none
    else w.flocks }

variable (b : Backend) (p : Nat) (key : String)

/-- `acquire_lease`. The file is closed again when the lock is taken. -/
def acquireLease (fault : Option LeaseFault) (w : Pods) : Except LeaseFault (Option Nat) × Pods :=
  if (w.leases p key).isSome then (.ok none, w)
  else if fault = some .mkdir then (.error .mkdir, w)
  else if fault = some .openFile then (.ok none, w)
  else if fault = some .flock then (.error .flock, { w with nextFd := w.nextFd + 1 })
  else match w.flocks (b.lockFile key) with
    | some _ => (.ok none, { w with nextFd := w.nextFd + 1 })
    | none =>
      (.ok (some w.nextId),
        { w.setLease p key (some ⟨w.nextFd, w.nextId⟩) with
          flocks := Function.update w.flocks (b.lockFile key) (some (p, w.nextFd))
          nextFd := w.nextFd + 1
          nextId := w.nextId + 1 })

/-- `renew_lease`. -/
def renewLease (leaseId : Nat) (w : Pods) : Bool :=
  match w.leases p key with
  | some info => info.leaseId = leaseId
  | none => false

/-- `release_lease`. The lease is dropped even when the lock could not be freed. -/
def releaseLease (leaseId : Nat) (fault : Option LeaseFault) (w : Pods) : Bool × Pods :=
  match w.leases p key with
  | none => (false, w)
  | some info =>
    if info.leaseId ≠ leaseId then (false, w)
    else if fault = some .unlock then (true, w.setLease p key none)
    else (true, (w.unlock (b.lockFile key) p info.fd).setLease p key none)

/-- The process ends: the system closes its files. -/
def die (w : Pods) : Pods :=
  { w with
    leases := Function.update w.leases p fun _ => none
    flocks := fun loc => match w.flocks loc with
      | some (q, fd) => if q = p then none else some (q, fd)
      | none => none }

end Pods

/-! ## What each call does -/

namespace Pods

variable {b : Backend} {p q : Nat} {key : String} {w : Pods}

/-- The leases after one is set. -/
theorem setLease_leases (info : Option LeaseInfo) (q : Nat) (k : String) :
    (w.setLease p key info).leases q k = if q = p ∧ k = key then info else w.leases q k := by
  unfold setLease
  by_cases hq : q = p
  · subst hq
    by_cases hk : k = key
    · subst hk
      simp
    · simp [hk]
  · simp [hq]

@[simp] private theorem setLease_flocks (info : Option LeaseInfo) :
    (w.setLease p key info).flocks = w.flocks := rfl

/-- Giving up a lock leaves the leases. -/
@[simp] theorem unlock_leases (loc : List String) (fd : Nat) :
    (w.unlock loc p fd).leases = w.leases := rfl

/-- The locks after one is given up. -/
theorem unlock_flocks (loc : List String) (fd : Nat) (loc' : List String) :
    (w.unlock loc p fd).flocks loc' =
      if loc' = loc ∧ w.flocks loc = some (p, fd) then none else w.flocks loc' := by
  unfold unlock
  by_cases h : w.flocks loc = some (p, fd)
  · by_cases hl : loc' = loc
    · subst hl
      simp [h]
    · simp [h, hl]
  · simp [h]

/-- `acquire_lease` hands out nothing and changes no lease or lock, or it takes a lock that was
free. -/
theorem acquireLease_cases (b : Backend) (p : Nat) (key : String) (fault : Option LeaseFault)
    (w : Pods) :
    (∃ r n, acquireLease b p key fault w = (r, { w with nextFd := n }) ∧ (∀ id, r ≠ .ok (some id)) ∧
        w.nextFd ≤ n) ∨
      w.leases p key = none ∧ w.flocks (b.lockFile key) = none ∧
        acquireLease b p key fault w = (.ok (some w.nextId),
          { w.setLease p key (some ⟨w.nextFd, w.nextId⟩) with
            flocks := Function.update w.flocks (b.lockFile key) (some (p, w.nextFd))
            nextFd := w.nextFd + 1
            nextId := w.nextId + 1 }) := by
  unfold acquireLease
  split
  · exact .inl ⟨_, w.nextFd, rfl, by simp, le_rfl⟩
  rename_i hnone
  split
  · exact .inl ⟨_, w.nextFd, rfl, by simp, le_rfl⟩
  split
  · exact .inl ⟨_, w.nextFd, rfl, by simp, le_rfl⟩
  split
  · exact .inl ⟨_, w.nextFd + 1, rfl, by simp, by omega⟩
  split
  · exact .inl ⟨_, w.nextFd + 1, rfl, by simp, by omega⟩
  · rename_i hfree
    exact .inr ⟨by simpa using hnone, hfree, rfl⟩

/-- A renewal succeeds for the lease that is held. -/
theorem renewLease_iff {id : Nat} :
    w.renewLease p key id = true ↔ ∃ info, w.leases p key = some info ∧ info.leaseId = id := by
  unfold renewLease
  cases w.leases p key <;> simp

/-- `release_lease` does nothing, or it drops the lease of the given id; then the lock is free,
unless freeing it fails. -/
theorem releaseLease_cases (b : Backend) (p : Nat) (key : String) (id : Nat)
    (fault : Option LeaseFault) (w : Pods) :
    releaseLease b p key id fault w = (false, w) ∧
        (∀ info, w.leases p key = some info → info.leaseId ≠ id) ∨
      ∃ info, w.leases p key = some info ∧ info.leaseId = id ∧
        (fault = some .unlock ∧
            releaseLease b p key id fault w = (true, w.setLease p key none) ∨
          fault ≠ some .unlock ∧ releaseLease b p key id fault w =
            (true, (w.unlock (b.lockFile key) p info.fd).setLease p key none)) := by
  unfold releaseLease
  cases hl : w.leases p key with
  | none => exact .inl ⟨rfl, by simp⟩
  | some info =>
    by_cases hid : info.leaseId = id
    · right
      refine ⟨info, rfl, hid, ?_⟩
      by_cases hf : fault = some .unlock
      · exact .inl ⟨hf, by simp [hid, hf]⟩
      · exact .inr ⟨hf, by simp [hid, hf]⟩
    · exact .inl ⟨by simp [hid], fun i hi => Option.some.inj hi ▸ hid⟩

/-- The leases after a process has died. -/
theorem die_leases (p q : Nat) (w : Pods) (k : String) :
    (w.die p).leases q k = if q = p then none else w.leases q k := by
  by_cases hq : q = p
  · subst hq
    simp [die]
  · simp [die, hq]

/-- The locks after a process has died. -/
theorem die_flocks {loc : List String} {fd : Nat} :
    (w.die p).flocks loc = some (q, fd) ↔ w.flocks loc = some (q, fd) ∧ q ≠ p := by
  unfold die
  dsimp only
  cases hf : w.flocks loc with
  | none => simp
  | some h =>
    obtain ⟨q', fd'⟩ := h
    by_cases hq : q' = p
    · simp only [hq, if_true, reduceCtorEq, Option.some.injEq, Prod.mk.injEq, false_iff, not_and,
        not_not]
      rintro ⟨rfl, -⟩
      rfl
    · simp only [hq, if_false, Option.some.injEq, Prod.mk.injEq, iff_self_and]
      rintro ⟨rfl, -⟩
      exact hq

/-! ## The invariant -/

/-- Every lease holds its lock file, through a file and under an id that no other lease has. -/
structure Sound (b : Backend) (w : Pods) : Prop where
  locked : ∀ p key info, w.leases p key = some info →
    w.flocks (b.lockFile key) = some (p, info.fd)
  opened : ∀ p key info, w.leases p key = some info → info.fd < w.nextFd
  issued : ∀ p key info, w.leases p key = some info → info.leaseId < w.nextId
  distinct : ∀ p key info p' key' info', w.leases p key = some info →
    w.leases p' key' = some info' → info.fd = info'.fd ∨ info.leaseId = info'.leaseId →
    p = p' ∧ key = key'

/-- Pods without leases are sound. -/
theorem sound_init (b : Backend) : Sound b init := by
  refine ⟨?_, ?_, ?_, ?_⟩ <;> simp [init]

/-- One lock file has one lease, whichever pods and keys lead to it. -/
theorem Sound.exclusive (h : Sound b w) {p' : Nat} {key' : String} {info info' : LeaseInfo}
    (hl : w.leases p key = some info) (hl' : w.leases p' key' = some info')
    (hfile : b.lockFile key = b.lockFile key') : p = p' ∧ key = key' := by
  have hlock := h.locked p key info hl
  rw [hfile, h.locked p' key' info' hl', Option.some.injEq, Prod.mk.injEq] at hlock
  exact h.distinct p key info p' key' info' hl hl' (.inl hlock.2.symm)

/-- Dropping leases keeps the others sound when their locks stay. -/
theorem Sound.of_subset {w' : Pods} (h : Sound b w)
    (hsub : ∀ q k info, w'.leases q k = some info → w.leases q k = some info ∧
      w'.flocks (b.lockFile k) = w.flocks (b.lockFile k))
    (hfd : w.nextFd ≤ w'.nextFd) (hid : w.nextId ≤ w'.nextId) : Sound b w' where
  locked q k info hl := (hsub q k info hl).2.trans (h.locked q k info (hsub q k info hl).1)
  opened q k info hl := (h.opened q k info (hsub q k info hl).1).trans_le hfd
  issued q k info hl := (h.issued q k info (hsub q k info hl).1).trans_le hid
  distinct q k info q' k' info' hl hl' :=
    h.distinct q k info q' k' info' (hsub q k info hl).1 (hsub q' k' info' hl').1

/-- Acquiring keeps pods sound. -/
theorem Sound.acquireLease (h : Sound b w) (p : Nat) (key : String) (fault : Option LeaseFault) :
    Sound b (acquireLease b p key fault w).2 := by
  rcases acquireLease_cases b p key fault w with
    ⟨r, n, heq, -, hle⟩ | ⟨-, hfree, heq⟩
  · rw [heq]
    exact h.of_subset (fun _ _ _ hl => ⟨hl, rfl⟩) hle le_rfl
  · rw [heq]
    have hnew : ∀ q k info, (w.setLease p key (some ⟨w.nextFd, w.nextId⟩)).leases q k = some info →
        (q = p ∧ k = key ∧ info = ⟨w.nextFd, w.nextId⟩) ∨ w.leases q k = some info := by
      intro q k info hl
      rw [setLease_leases] at hl
      split at hl
      · rename_i hqk
        exact .inl ⟨hqk.1, hqk.2, (Option.some.inj hl).symm⟩
      · exact .inr hl
    refine ⟨?_, ?_, ?_, ?_⟩
    · intro q k info hl
      rcases hnew q k info hl with ⟨rfl, rfl, rfl⟩ | hold
      · simp
      · have hlock := h.locked q k info hold
        have hne : b.lockFile k ≠ b.lockFile key := by
          intro he
          rw [he, hfree] at hlock
          cases hlock
        simp [Function.update_of_ne hne, hlock]
    · intro q k info hl
      rcases hnew q k info hl with ⟨rfl, rfl, rfl⟩ | hold
      · exact Nat.lt_succ_self _
      · exact (h.opened q k info hold).trans (Nat.lt_succ_self _)
    · intro q k info hl
      rcases hnew q k info hl with ⟨rfl, rfl, rfl⟩ | hold
      · exact Nat.lt_succ_self _
      · exact (h.issued q k info hold).trans (Nat.lt_succ_self _)
    · intro q k info q' k' info' hl hl' hsame
      rcases hnew q k info hl with ⟨rfl, rfl, rfl⟩ | hold <;>
        rcases hnew q' k' info' hl' with ⟨rfl, rfl, rfl⟩ | hold'
      · exact ⟨rfl, rfl⟩
      · have h1 := h.opened q' k' info' hold'
        have h2 := h.issued q' k' info' hold'
        dsimp only at hsame
        omega
      · have h1 := h.opened q k info hold
        have h2 := h.issued q k info hold
        dsimp only at hsame
        omega
      · exact h.distinct q k info q' k' info' hold hold' hsame

/-- Releasing keeps pods sound. -/
theorem Sound.releaseLease (h : Sound b w) (p : Nat) (key : String) (id : Nat)
    (fault : Option LeaseFault) : Sound b (releaseLease b p key id fault w).2 := by
  have hdrop : ∀ q k info, (w.setLease p key none).leases q k = some info →
      ¬(q = p ∧ k = key) ∧ w.leases q k = some info := by
    intro q k info hl
    rw [setLease_leases] at hl
    split at hl
    · cases hl
    · exact ⟨‹_›, hl⟩
  rcases releaseLease_cases b p key id fault w with
    ⟨heq, -⟩ | ⟨info, hinfo, -, ⟨-, heq⟩ | ⟨-, heq⟩⟩
  · rw [heq]
    exact h
  · rw [heq]
    exact h.of_subset (fun q k i hl => ⟨(hdrop q k i hl).2, rfl⟩) le_rfl le_rfl
  · rw [heq]
    refine h.of_subset (fun q k i hl => ?_) le_rfl le_rfl
    have hl' : (w.setLease p key none).leases q k = some i := by
      rw [setLease_leases] at hl ⊢
      exact hl
    obtain ⟨hne, hold⟩ := hdrop q k i hl'
    refine ⟨hold, ?_⟩
    rw [setLease_flocks, unlock_flocks, if_neg]
    exact fun hq => hne (h.exclusive hold hinfo hq.1)

/-- Dying keeps pods sound. -/
theorem Sound.die (h : Sound b w) (p : Nat) : Sound b (w.die p) := by
  refine h.of_subset (fun q k info hl => ?_) le_rfl le_rfl
  rw [die_leases] at hl
  split at hl
  · cases hl
  · rename_i hq
    refine ⟨hl, ?_⟩
    rw [h.locked q k info hl]
    exact die_flocks.mpr ⟨h.locked q k info hl, hq⟩

end Pods

end Cassetta
