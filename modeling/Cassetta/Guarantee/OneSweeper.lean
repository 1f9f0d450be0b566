import Cassetta.Core.Runs
import Cassetta.Storage.Effects
import Cassetta.Storage.Leases

/-!
# One pod at a time

The TTL cleanup of a deployment of several pods. Each pod runs `_ttl_cleanup_loop`, which sweeps
only under the lease of one key and gives it back in its `finally`. Whatever the pods do, and
whichever of them are cancelled or die, at most one of them sweeps at a time.
-/

namespace Cassetta

/-! ## The loops -/

/-- `lease_key`. -/
def cleanupKey : String := "ttl-cleanup"

/-- Where a pod's `_ttl_cleanup_loop` is; while it sweeps, its `_lease_renewal_task` runs beside
it until a renewal fails. -/
inductive Cleanup where
  | sleeping
  | sweeping (leaseId : Nat) (renewing : Bool)
  | stopped
  deriving DecidableEq, Repr

/-- The pods of a deployment with their loops. -/
structure Fleet where
  pods : Pods
  loops : Nat → Cleanup

/-- What can happen next in one pod. -/
inductive FleetEvent where
  /-- The sleep of the loop is over. -/
  | wake (p : Nat) (fault : Option LeaseFault)
  /-- The renewal task has slept. -/
  | renew (p : Nat)
  /-- The sweep is over, by an exception perhaps; `stop` when the loop has been cancelled. -/
  | finish (p : Nat) (fault : Option LeaseFault) (stop : Bool)
  /-- The loop is cancelled in its sleep. -/
  | cancel (p : Nat)
  /-- The process dies, and starts again. -/
  | restart (p : Nat)

variable (b : Backend) (ttl : Nat → Int)

/-- `lifespan` starts the loop when `default_ttl` is positive. -/
def Cleanup.start (p : Nat) : Cleanup := if 0 < ttl p then .sleeping else .stopped

/-- Every pod has just started. -/
def Fleet.init : Fleet := ⟨Pods.init, Cleanup.start ttl⟩

/-- `_ttl_cleanup_loop` and `_lease_renewal_task`, one step. -/
def Fleet.step (f : Fleet) : FleetEvent → Fleet
  | .wake p fault =>
    match f.loops p with
    | .sleeping =>
      if ttl p ≤ 0 then f
      else match f.pods.acquireLease b p cleanupKey fault with
        | (.ok (some id), w) => ⟨w, Function.update f.loops p (.sweeping id true)⟩
        | (.ok none, w) => ⟨w, f.loops⟩
        | (.error _, w) => ⟨w, Function.update f.loops p .stopped⟩
    | _ => f
  | .renew p =>
    match f.loops p with
    | .sweeping id true =>
      if f.pods.renewLease p cleanupKey id then f
      else ⟨f.pods, Function.update f.loops p (.sweeping id false)⟩
    | _ => f
  | .finish p fault stop =>
    match f.loops p with
    | .sweeping id _ =>
      ⟨(f.pods.releaseLease b p cleanupKey id fault).2,
        Function.update f.loops p (if stop then .stopped else .sleeping)⟩
    | _ => f
  | .cancel p =>
    match f.loops p with
    | .sleeping => ⟨f.pods, Function.update f.loops p .stopped⟩
    | _ => f
  | .restart p => ⟨f.pods.die p, Function.update f.loops p (Cleanup.start ttl p)⟩

/-! ## The invariant -/

/-- A pod sweeps exactly while it has the lease, and its renewals go through. -/
structure Fleet.Sound (f : Fleet) : Prop where
  pods : f.pods.Sound b
  sweeps : ∀ p id r, f.loops p = .sweeping id r →
    r = true ∧ ∃ info, f.pods.leases p cleanupKey = some info ∧ info.leaseId = id
  leased : ∀ p key info, f.pods.leases p key = some info →
    key = cleanupKey ∧ ∃ r, f.loops p = .sweeping info.leaseId r

/-- The lock of the cleanup is held through a lease. -/
def Fleet.Tight (f : Fleet) : Prop :=
  ∀ p fd, f.pods.flocks (b.lockFile cleanupKey) = some (p, fd) →
    ∃ info, f.pods.leases p cleanupKey = some info

/-- The lock of the cleanup has stayed behind in a pod without the lease. -/
def Fleet.Stuck (f : Fleet) (p : Nat) : Prop :=
  ∃ fd, f.pods.flocks (b.lockFile cleanupKey) = some (p, fd) ∧
    f.pods.leases p cleanupKey = none

/-- The release at the end of a sweep fails to free the lock. -/
def FleetEvent.FailsUnlock : FleetEvent → Prop
  | .finish _ fault _ => fault = some .unlock
  | _ => False

variable {b ttl} {f : Fleet}

namespace Fleet.Sound

/-- A new fleet is sound. -/
theorem init (b : Backend) (ttl : Nat → Int) : (Fleet.init ttl).Sound b where
  pods := Pods.sound_init b
  sweeps p id r h := by
    simp only [Fleet.init, Cleanup.start] at h
    split at h <;> cases h
  leased p key info h := by cases h

/-- One pod's loop moves on while it has no lease before or after. -/
theorem of_idle (h : f.Sound b) {w : Pods} {p : Nat} {c : Cleanup} (hw : w.Sound b)
    (hl : w.leases = f.pods.leases) (hidle : ∀ id r, f.loops p ≠ .sweeping id r)
    (hc : ∀ id r, c ≠ .sweeping id r) : Sound b ⟨w, Function.update f.loops p c⟩ where
  pods := hw
  sweeps q id r hq := by
    dsimp only at hq ⊢
    by_cases he : q = p
    · subst he
      rw [Function.update_self] at hq
      exact absurd hq (hc id r)
    · rw [Function.update_of_ne he] at hq
      simpa only [hl] using h.sweeps q id r hq
  leased q key info hq := by
    dsimp only at hq ⊢
    rw [hl] at hq
    obtain ⟨hkey, r, hr⟩ := h.leased q key info hq
    have he : q ≠ p := by
      rintro rfl
      exact hidle _ _ hr
    exact ⟨hkey, r, by rw [Function.update_of_ne he, hr]⟩

/-- One pod's loop gives up its lease. -/
theorem of_dropped (h : f.Sound b) {w : Pods} {p : Nat} {c : Cleanup} (hw : w.Sound b)
    (hl : ∀ q k, w.leases q k = if q = p ∧ k = cleanupKey then none else f.pods.leases q k)
    (hc : ∀ id r, c ≠ .sweeping id r) : Sound b ⟨w, Function.update f.loops p c⟩ where
  pods := hw
  sweeps q id r hq := by
    dsimp only at hq ⊢
    by_cases he : q = p
    · subst he
      rw [Function.update_self] at hq
      exact absurd hq (hc id r)
    · rw [Function.update_of_ne he] at hq
      obtain ⟨hr, info, hinfo, hid⟩ := h.sweeps q id r hq
      exact ⟨hr, info, by rw [hl, if_neg (fun hqk => he hqk.1), hinfo], hid⟩
  leased q key info hq := by
    dsimp only at hq ⊢
    rw [hl] at hq
    split at hq
    · cases hq
    · rename_i hne
      obtain ⟨rfl, r, hr⟩ := h.leased q key info hq
      have he : q ≠ p := fun he => hne ⟨he, rfl⟩
      exact ⟨rfl, r, by rw [Function.update_of_ne he, hr]⟩

private theorem wake (h : f.Sound b) (p : Nat) (fault : Option LeaseFault) :
    (f.step b ttl (.wake p fault)).Sound b := by
  simp only [Fleet.step]
  split
  · rename_i hsleep
    have hidle : ∀ id r, f.loops p ≠ .sweeping id r := by simp [hsleep]
    split
    · exact h
    have hsound := h.pods.acquireLease p cleanupKey fault
    rcases Pods.acquireLease_cases b p cleanupKey fault f.pods with
      ⟨r, n, heq, hno, -⟩ | ⟨hnone, hfree, heq⟩
    · rw [heq] at hsound ⊢
      cases r with
      | error e => exact h.of_idle hsound rfl hidle (by simp)
      | ok o =>
        cases o with
        | none => exact ⟨hsound, h.sweeps, h.leased⟩
        | some id => exact absurd rfl (hno id)
    · rw [heq] at hsound ⊢
      refine ⟨hsound, fun q id r hq => ?_, fun q key info hq => ?_⟩
      · dsimp only at hq ⊢
        rw [Pods.setLease_leases]
        by_cases he : q = p
        · subst he
          rw [Function.update_self] at hq
          cases hq
          exact ⟨rfl, _, if_pos ⟨rfl, rfl⟩, rfl⟩
        · rw [Function.update_of_ne he] at hq
          obtain ⟨hr, info, hinfo, hid⟩ := h.sweeps q id r hq
          exact ⟨hr, info, by rw [if_neg (fun hqk => he hqk.1), hinfo], hid⟩
      · dsimp only at hq ⊢
        rw [Pods.setLease_leases] at hq
        split at hq
        · rename_i hqk
          obtain ⟨rfl, rfl⟩ := hqk
          obtain rfl := Option.some.inj hq
          exact ⟨rfl, true, Function.update_self ..⟩
        · obtain ⟨hkey, r, hr⟩ := h.leased q key info hq
          have he : q ≠ p := by
            rintro rfl
            exact hidle _ _ hr
          exact ⟨hkey, r, by rw [Function.update_of_ne he, hr]⟩
  · exact h

private theorem renew (h : f.Sound b) (p : Nat) : f.step b ttl (.renew p) = f := by
  simp only [Fleet.step]
  split
  · rename_i id hsweep
    obtain ⟨-, info, hinfo, hid⟩ := h.sweeps p id true hsweep
    rw [if_pos (Pods.renewLease_iff.mpr ⟨info, hinfo, hid⟩)]
  · rfl

/-- The end of a sweep keeps a fleet sound. -/
theorem finish (h : f.Sound b) (p : Nat) (fault : Option LeaseFault) (stop : Bool) :
    (f.step b ttl (.finish p fault stop)).Sound b := by
  simp only [Fleet.step]
  split
  · rename_i id r hsweep
    obtain ⟨-, info, hinfo, hid⟩ := h.sweeps p id r hsweep
    refine h.of_dropped (h.pods.releaseLease p cleanupKey id fault) (fun q k => ?_) ?_
    · rcases Pods.releaseLease_cases b p cleanupKey id fault f.pods with
        ⟨-, hno⟩ | ⟨info', -, -, ⟨-, heq⟩ | ⟨-, heq⟩⟩
      · exact absurd hid (hno info hinfo)
      · rw [heq, Pods.setLease_leases]
      · rw [heq, Pods.setLease_leases, Pods.unlock_leases]
    · cases stop <;> simp
  · exact h

/-- An event keeps a fleet sound. -/
theorem step (h : f.Sound b) (ttl : Nat → Int) (e : FleetEvent) : (f.step b ttl e).Sound b := by
  cases e with
  | wake p fault => exact h.wake p fault
  | renew p => rwa [h.renew p]
  | finish p fault stop => exact h.finish p fault stop
  | cancel p =>
    simp only [Fleet.step]
    split
    · rename_i hsleep
      exact h.of_idle h.pods rfl (by simp [hsleep]) (by simp)
    · exact h
  | restart p =>
    simp only [Fleet.step]
    refine ⟨h.pods.die p, fun q id r hq => ?_, fun q key info hq => ?_⟩ <;> dsimp only at hq ⊢
    · by_cases he : q = p
      · subst he
        simp only [Function.update_self, Cleanup.start] at hq
        split at hq <;> cases hq
      · rw [Function.update_of_ne he] at hq
        obtain ⟨hr, info, hinfo, hid⟩ := h.sweeps q id r hq
        exact ⟨hr, info, by rw [Pods.die_leases, if_neg he, hinfo], hid⟩
    · rw [Pods.die_leases] at hq
      split at hq
      · cases hq
      · rename_i he
        obtain ⟨hkey, r, hr⟩ := h.leased q key info hq
        exact ⟨hkey, r, by rw [Function.update_of_ne he, hr]⟩

/-- A run keeps a fleet sound. -/
theorem run (b : Backend) (ttl : Nat → Int) (events : List FleetEvent) :
    (Runs.run (Fleet.step b ttl) (Fleet.init ttl) events).Sound b :=
  Runs.run_invariant (fun _ e h => h.step ttl e) (Fleet.Sound.init b ttl) events

/-- The pod that sweeps holds the lock. -/
theorem locked (h : f.Sound b) {p id : Nat} {r : Bool} (hp : f.loops p = .sweeping id r) :
    ∃ info, f.pods.leases p cleanupKey = some info ∧ info.leaseId = id ∧
      f.pods.flocks (b.lockFile cleanupKey) = some (p, info.fd) := by
  obtain ⟨-, info, hinfo, hid⟩ := h.sweeps p id r hp
  exact ⟨info, hinfo, hid, h.pods.locked p cleanupKey info hinfo⟩

/-- Of a sound fleet at most one is sweeping. -/
theorem exclusive (h : f.Sound b) {p q id id' : Nat} {r r' : Bool}
    (hp : f.loops p = .sweeping id r) (hq : f.loops q = .sweeping id' r') : p = q := by
  obtain ⟨info, hinfo, -, -⟩ := h.locked hp
  obtain ⟨info', hinfo', -, -⟩ := h.locked hq
  exact (h.pods.exclusive hinfo hinfo' rfl).1

/-! ## The lock of the cleanup -/

/-- What one step does to the lock: nothing, or it is taken by a loop that wakes, or it is given
back at the end of a sweep, or a process dies. -/
theorem step_lock (h : f.Sound b) (ttl : Nat → Int) (e : FleetEvent) :
    ((f.step b ttl e).pods.leases = f.pods.leases ∧ (f.step b ttl e).pods.flocks = f.pods.flocks) ∨
      (f.pods.flocks (b.lockFile cleanupKey) = none ∧ ∃ p fd info,
        (f.step b ttl e).pods.leases p cleanupKey = some info ∧
          (f.step b ttl e).pods.flocks (b.lockFile cleanupKey) = some (p, fd)) ∨
      (∃ p fault stop info, e = .finish p fault stop ∧ f.pods.leases p cleanupKey = some info ∧
        f.pods.flocks (b.lockFile cleanupKey) = some (p, info.fd) ∧
          (f.step b ttl e).pods.leases p cleanupKey = none ∧
          (f.step b ttl e).pods.flocks (b.lockFile cleanupKey) =
            if fault = some .unlock then some (p, info.fd) else none) ∨
      ∃ p, e = .restart p ∧ (f.step b ttl e).pods = f.pods.die p := by
  cases e with
  | wake p fault =>
    simp only [Fleet.step]
    split
    · split
      · exact .inl ⟨rfl, rfl⟩
      rcases Pods.acquireLease_cases b p cleanupKey fault f.pods with
        ⟨r, n, heq, hno, -⟩ | ⟨hnone, hfree, heq⟩
      · left
        rw [heq]
        cases r with
        | error e => exact ⟨rfl, rfl⟩
        | ok o =>
          cases o with
          | none => exact ⟨rfl, rfl⟩
          | some id => exact absurd rfl (hno id)
      · refine .inr (.inl ⟨hfree, p, f.pods.nextFd, ⟨f.pods.nextFd, f.pods.nextId⟩, ?_, ?_⟩)
        · rw [heq]
          simp [Pods.setLease_leases]
        · rw [heq]
          simp
    · exact .inl ⟨rfl, rfl⟩
  | renew p =>
    rw [h.renew p]
    exact .inl ⟨rfl, rfl⟩
  | finish p fault stop =>
    simp only [Fleet.step]
    split
    · rename_i id r hsweep
      obtain ⟨info, hinfo, hid, hlock⟩ := h.locked hsweep
      refine .inr (.inr (.inl ⟨p, fault, stop, info, rfl, hinfo, hlock, ?_⟩))
      rcases Pods.releaseLease_cases b p cleanupKey id fault f.pods with
        ⟨-, hno⟩ | ⟨info', hinfo', -, ⟨hf, heq⟩ | ⟨hf, heq⟩⟩
      · exact absurd hid (hno info hinfo)
      · rw [heq]
        simp [hf, Pods.setLease_leases, hlock]
      · obtain rfl : info = info' := Option.some.inj (hinfo.symm.trans hinfo')
        rw [heq]
        simp [hf, Pods.setLease_leases, Pods.unlock_flocks, hlock]
    · exact .inl ⟨rfl, rfl⟩
  | cancel p =>
    simp only [Fleet.step]
    split <;> exact .inl ⟨rfl, rfl⟩
  | restart p => exact .inr (.inr (.inr ⟨p, rfl, rfl⟩))

private theorem tight_step (h : f.Sound b) (ht : f.Tight b) {e : FleetEvent} (he : ¬e.FailsUnlock) :
    (f.step b ttl e).Tight b := by
  intro q fd hq
  rcases h.step_lock ttl e with ⟨hl, hf⟩ | ⟨-, p, fd', info, hinfo, hlock⟩ |
    ⟨p, fault, stop, info, rfl, -, -, -, hlock⟩ | ⟨p, rfl, hpods⟩
  · rw [hf] at hq
    rw [hl]
    exact ht q fd hq
  · rw [hlock] at hq
    obtain ⟨rfl, -⟩ := Prod.mk.inj (Option.some.inj hq)
    exact ⟨info, hinfo⟩
  · have hne : fault ≠ some .unlock := he
    rw [hlock, if_neg hne] at hq
    cases hq
  · rw [hpods] at hq ⊢
    obtain ⟨hold, hne⟩ := Pods.die_flocks.mp hq
    obtain ⟨info, hinfo⟩ := ht q fd hold
    exact ⟨info, by rw [Pods.die_leases, if_neg hne, hinfo]⟩

/-- A loop that wakes while the lock is free sweeps. -/
theorem wake_free (h : f.Sound b) (ht : f.Tight b) (hidle : ∀ p id r, f.loops p ≠ .sweeping id r)
    {q : Nat} (hq : f.loops q = .sleeping) (hpos : 0 < ttl q) :
    ∃ id, (f.step b ttl (.wake q none)).loops q = .sweeping id true := by
  have hnone : ∀ p, f.pods.leases p cleanupKey = none := by
    intro p
    cases hl : f.pods.leases p cleanupKey with
    | none => rfl
    | some info =>
      obtain ⟨-, r, hr⟩ := h.leased p cleanupKey info hl
      exact absurd hr (hidle p _ _)
  have hfree : f.pods.flocks (b.lockFile cleanupKey) = none := by
    cases hf : f.pods.flocks (b.lockFile cleanupKey) with
    | none => rfl
    | some holder =>
      obtain ⟨info, hinfo⟩ := ht holder.1 holder.2 hf
      rw [hnone] at hinfo
      cases hinfo
  refine ⟨f.pods.nextId, ?_⟩
  simp [Fleet.step, hq, not_le.mpr hpos, Pods.acquireLease, hnone, hfree]

/-- A lock that has stayed behind keeps every loop from sweeping. -/
theorem not_sweeping_of_stuck (h : f.Sound b) {p : Nat} (hs : f.Stuck b p) (q id : Nat) (r : Bool) :
    f.loops q ≠ .sweeping id r := by
  intro hq
  obtain ⟨fd, hlock, hnone⟩ := hs
  obtain ⟨info, hinfo, -, hlock'⟩ := h.locked hq
  rw [hlock] at hlock'
  obtain ⟨rfl, -⟩ := Prod.mk.inj (Option.some.inj hlock')
  rw [hnone] at hinfo
  cases hinfo

private theorem stuck_step (h : f.Sound b) {p : Nat} (hs : f.Stuck b p) {e : FleetEvent}
    (he : e ≠ .restart p) : (f.step b ttl e).Stuck b p := by
  obtain ⟨fd, hlock, hnone⟩ := hs
  rcases h.step_lock ttl e with ⟨hl, hf⟩ | ⟨hfree, -⟩ |
    ⟨q, fault, stop, info, rfl, hinfo, hlock', -⟩ | ⟨q, rfl, hpods⟩
  · exact ⟨fd, by rw [hf, hlock], by rw [hl, hnone]⟩
  · rw [hlock] at hfree
    cases hfree
  · rw [hlock] at hlock'
    obtain ⟨rfl, -⟩ := Prod.mk.inj (Option.some.inj hlock')
    rw [hnone] at hinfo
    cases hinfo
  · have hne : p ≠ q := fun hpq => he (by rw [hpq])
    refine ⟨fd, ?_, ?_⟩
    · rw [hpods]
      exact Pods.die_flocks.mpr ⟨hlock, hne⟩
    · rw [hpods, Pods.die_leases, if_neg hne, hnone]

private theorem stuck_run (h : f.Sound b) {p : Nat} (hs : f.Stuck b p) {rest : List FleetEvent}
    (halive : .restart p ∉ rest) :
    (Runs.run (Fleet.step b ttl) f rest).Sound b ∧
      (Runs.run (Fleet.step b ttl) f rest).Stuck b p := by
  induction rest generalizing f with
  | nil => exact ⟨h, hs⟩
  | cons e rest ih =>
    rw [List.mem_cons, not_or] at halive
    exact ih (h.step ttl e) (h.stuck_step hs (Ne.symm halive.1)) halive.2

end Fleet.Sound

/-! ## Runs -/

private theorem Fleet.tight_run (b : Backend) (ttl : Nat → Int) {events : List FleetEvent}
    (hok : ∀ e ∈ events, ¬e.FailsUnlock) :
    (Runs.run (Fleet.step b ttl) (Fleet.init ttl) events).Tight b := by
  suffices h : ∀ f : Fleet, f.Sound b → f.Tight b →
      (Runs.run (Fleet.step b ttl) f events).Tight b from
    h _ (Fleet.Sound.init b ttl) fun p fd hq => by cases hq
  intro f h ht
  induction events generalizing f with
  | nil => exact ht
  | cons e rest ih =>
    rw [List.forall_mem_cons] at hok
    exact ih hok.2 _ (h.step ttl e) (h.tight_step ht hok.1)

/-- However the pods' loops, renewals, cancellations and restarts interleave and whichever system
calls fail, at most one pod sweeps at a time, every renewal and the release of the pod that sweeps
go through, and while no release has failed to free the lock, a loop that wakes when nobody sweeps
does so. -/
theorem run_one_sweeper (b : Backend) (ttl : Nat → Int) (events : List FleetEvent) :
    (∀ p q id id' r r',
      (Runs.run (Fleet.step b ttl) (Fleet.init ttl) events).loops p = .sweeping id r →
      (Runs.run (Fleet.step b ttl) (Fleet.init ttl) events).loops q = .sweeping id' r' →
      p = q) ∧
      (∀ p id r, (Runs.run (Fleet.step b ttl) (Fleet.init ttl) events).loops p = .sweeping id r →
        (Runs.run (Fleet.step b ttl) (Fleet.init ttl) events).pods.renewLease p cleanupKey id =
            true ∧
          ∀ fault, ((Runs.run (Fleet.step b ttl) (Fleet.init ttl) events).pods.releaseLease b p
            cleanupKey id fault).1 = true) ∧
      ((∀ e ∈ events, ¬e.FailsUnlock) →
        (∀ p id r, (Runs.run (Fleet.step b ttl) (Fleet.init ttl) events).loops p ≠
          .sweeping id r) →
        ∀ q, (Runs.run (Fleet.step b ttl) (Fleet.init ttl) events).loops q = .sleeping → 0 < ttl q →
          ∃ id, (Runs.run (Fleet.step b ttl) (Fleet.init ttl) (events ++ [.wake q none])).loops q =
            .sweeping id true) := by
  have h := Fleet.Sound.run b ttl events
  refine ⟨fun p q id id' r r' hp hq => h.exclusive hp hq, fun p id r hp => ?_,
    fun hok hidle q hq hpos => ?_⟩
  · obtain ⟨info, hinfo, hid, -⟩ := h.locked hp
    refine ⟨Pods.renewLease_iff.mpr ⟨info, hinfo, hid⟩, fun fault => ?_⟩
    rcases Pods.releaseLease_cases b p cleanupKey id fault _ with
      ⟨-, hno⟩ | ⟨info', -, -, ⟨-, heq⟩ | ⟨-, heq⟩⟩
    · exact absurd hid (hno info hinfo)
    · rw [heq]
    · rw [heq]
  · rw [Runs.run_append]
    exact h.wake_free (Fleet.tight_run b ttl hok) hidle hq hpos

/-- Two pods: the second wakes in vain while the first sweeps, and sweeps once that is done. -/
theorem run_one_sweeper_pair :
    ∃ id, (Runs.run (Fleet.step srvBackend fun _ => 60) (Fleet.init fun _ => 60)
      ([.wake 0 none, .wake 1 none, .finish 0 none false] ++ [.wake 1 none])).loops 1 =
        .sweeping id true := by
  refine (run_one_sweeper srvBackend (fun _ => 60)
    [.wake 0 none, .wake 1 none, .finish 0 none false]).2.2 (by simp [FleetEvent.FailsUnlock])
    (fun p id r => ?_) 1 (by decide) (by decide)
  show Function.update (Function.update (Cleanup.start fun _ => 60) 0 (.sweeping 0 true)) 0
    .sleeping p ≠ _
  by_cases hp : p = 0
  · simp [hp]
  · simp [hp, Cleanup.start]

/-- When the release at the end of a sweep fails to free the lock, no pod sweeps again, whatever
happens and however long it takes, until the process of that pod has ended. -/
theorem run_stuck_lock (b : Backend) (ttl : Nat → Int) (events rest : List FleetEvent) {p id : Nat}
    {r : Bool} (hp : (Runs.run (Fleet.step b ttl) (Fleet.init ttl) events).loops p = .sweeping id r)
    (stop : Bool) (halive : .restart p ∉ rest) (q id' : Nat) (r' : Bool) :
    (Runs.run (Fleet.step b ttl) (Fleet.init ttl)
      (events ++ .finish p (some .unlock) stop :: rest)).loops q ≠ .sweeping id' r' := by
  have h := Fleet.Sound.run b ttl events
  rw [Runs.run_append, Runs.run_cons]
  have hs : (Fleet.step b ttl (Runs.run (Fleet.step b ttl) (Fleet.init ttl) events)
      (.finish p (some .unlock) stop)).Stuck b p := by
    obtain ⟨info, hinfo, hid, hlock⟩ := h.locked hp
    rcases Pods.releaseLease_cases b p cleanupKey id (some .unlock) _ with
      ⟨-, hno⟩ | ⟨info', -, -, ⟨-, heq⟩ | ⟨hf, -⟩⟩
    · exact absurd hid (hno info hinfo)
    · refine ⟨info.fd, ?_, ?_⟩
      · simp only [Fleet.step, hp, heq]
        exact hlock
      · simp [Fleet.step, hp, heq, Pods.setLease_leases]
    · exact absurd rfl hf
  obtain ⟨hrun, hstuck⟩ := (h.step ttl _).stuck_run hs halive
  exact hrun.not_sweeping_of_stuck hstuck q id' r'

/-- Two pods: the first sweeps and fails to free its lock, and the second then wakes in vain. -/
theorem run_stuck_lock_pair :
    (Runs.run (Fleet.step srvBackend fun _ => 60) (Fleet.init fun _ => 60)
      ([.wake 0 none] ++ .finish 0 (some .unlock) false :: [.wake 1 none, .wake 0 none])).loops 1 ≠
      .sweeping 1 true :=
  run_stuck_lock srvBackend (fun _ => 60) [.wake 0 none] [.wake 1 none, .wake 0 none]
    (show _ = Cleanup.sweeping 0 true by decide) false (by simp) 1 1 true

end Cassetta
