import Cassetta.Claims.Races

/-!
# Claim-store calls that fail

One filesystem call of `issue` or `mark_fetched` raises an `OSError`, and the operation undoes
what it has done, each step in its own way. `issue` does not undo the lock when the sidecar
cannot be opened for another reason than that it is there, and the lock stays without a claim.
-/

namespace Cassetta

open ClaimDir

/-! ## Faults -/

/-- The classes of an `OSError` that the claim store tells apart. -/
inductive OsError where
  | fileExists
  | fileNotFound
  | other
  deriving DecidableEq, Repr

/-- The file a call is on. -/
inductive CallTarget where
  | lock
  | sidecar
  | tmp
  deriving DecidableEq, Repr

inductive FileCall where
  | osOpen
  | write
  | flush
  | fsync
  | readBytes
  | replace
  deriving DecidableEq, Repr

/-- One call raises. -/
structure CallFault where
  target : CallTarget
  call : FileCall
  err : OsError
  /-- What an interrupted write leaves in the file. -/
  left : ClaimBody
  deriving DecidableEq, Repr

/-- What `issue` and `mark_fetched` raise. -/
inductive ClaimRaised where
  /-- `BundleClaimedError`. -/
  | bundleClaimed
  | osError (err : OsError)
  /-- `ValueError`, of a sidecar that does not parse. -/
  | malformed
  deriving DecidableEq, Repr

namespace ClaimPhase

/-- The filesystem calls that a step stands for; those that only undo are left out. -/
def calls : ClaimPhase → List (CallTarget × FileCall)
  | .issueOpenLock _ => [(.lock, .osOpen)]
  | .issueWriteLock .. => [(.lock, .write), (.lock, .flush), (.lock, .fsync)]
  | .issueOpen .. => [(.sidecar, .osOpen)]
  | .issueWrite .. => [(.sidecar, .write), (.sidecar, .flush), (.sidecar, .fsync)]
  | .markRead .. => [(.sidecar, .readBytes)]
  | .markOpenTmp .. => [(.tmp, .osOpen)]
  | .markWriteTmp .. => [(.tmp, .write), (.tmp, .flush), (.tmp, .fsync)]
  | .markReplace .. => [(.tmp, .replace)]
  | _ => []

variable (fmt : ClaimFormat)

/-- What the `except` clauses do when a call of this step raises. -/
def raising (f : CallFault) : ClaimPhase → ClaimDir → ClaimRaised × ClaimDir
  | .issueOpenLock _, d =>
    (if f.err = .fileExists then .bundleClaimed else .osError f.err, d)
  | .issueWriteLock claim lockFd, d =>
    (.osError f.err, (d.put lockFd f.left).unlink (lockPath fmt claim.bundlePath))
  | .issueOpen claim _, d =>
    if f.err = .fileExists then (.bundleClaimed, d.unlink (lockPath fmt claim.bundlePath))
    else (.osError f.err, d)
  | .issueWrite claim _ fd, d =>
    (.osError f.err, ((d.put fd f.left).unlink (.sidecar claim.jti)).unlink
      (lockPath fmt claim.bundlePath))
  | .markWriteTmp _ updated fd, d =>
    (.osError f.err, (d.put fd f.left).unlink (.sidecarTmp updated.jti))
  | .markReplace _ updated, d => (.osError f.err, d.unlink (.sidecarTmp updated.jti))
  | _, d => (.osError f.err, d)

/-- What an operation that has come to its end returns or raises. -/
def outcome : ClaimPhase → Except ClaimRaised Unit
  | .bundleClaimed _ => .error .bundleClaimed
  | .markNotFound _ => .error (.osError .fileNotFound)
  | .markMalformed _ => .error .malformed
  | _ => .ok ()

/-- Make up to so many steps, in the first of which a call of the fault's kind raises. -/
def attempt (fault : Option CallFault) : Nat → ClaimPhase → ClaimDir →
    Except ClaimRaised Unit × ClaimDir
  | 0, ph, d => (ph.outcome, d)
  | n + 1, ph, d =>
    match fault.filter fun f => (f.target, f.call) ∈ ph.calls with
    | some f => (.error (ph.raising fmt f d).1, (ph.raising fmt f d).2)
    | none => attempt fault n (ph.step fmt d).1 (ph.step fmt d).2

end ClaimPhase

/-- A call of `issue` or `mark_fetched`. -/
inductive ClaimWrite where
  | issue (claim : ClaimRecord)
  | markFetched (jti : Id) (name : String)
  deriving DecidableEq, Repr

namespace ClaimWrite

def start : ClaimWrite → ClaimPhase
  | .issue claim => .issueOpenLock claim
  | .markFetched jti name => .markRead jti name

/-- The call, with at most one of its filesystem calls failing. -/
def run (fmt : ClaimFormat) (fault : Option CallFault) (w : ClaimWrite) (d : ClaimDir) :
    Except ClaimRaised Unit × ClaimDir :=
  w.start.attempt fmt fault 5 d

end ClaimWrite

/-- The temporary file of a sidecar; neither a lock nor a sidecar. -/
def ClaimFile.isTmp : ClaimFile → Bool
  | .sidecarTmp _ => true
  | _ => false

namespace ClaimDir

/-- The same locks and sidecars, with the same contents. -/
def SameClaims (d d' : ClaimDir) : Prop := ∀ k : ClaimFile, k.isTmp = false → d'.read k = d.read k

/-- No lock stands in the way of a claim on this path. -/
def Claimable (fmt : ClaimFormat) (d : ClaimDir) (path : String) : Prop :=
  d.read (lockPath fmt path) = none

/-- A directory has its own claims. -/
theorem SameClaims.refl (d : ClaimDir) : SameClaims d d := fun _ _ => rfl

private theorem SameClaims.claimable {fmt : ClaimFormat} {d d' : ClaimDir} (h : SameClaims d d')
    (path : String) : d'.Claimable fmt path ↔ d.Claimable fmt path := by
  unfold Claimable
  rw [h _ rfl]

end ClaimDir

/-- A call that raises leaves the locks and sidecars as they were, and each path is claimable if
and only if it was. -/
def ClaimWrite.Atomic (fmt : ClaimFormat) (fault : Option CallFault) (w : ClaimWrite)
    (d : ClaimDir) : Prop :=
  ∀ e d', w.run fmt fault d = (.error e, d') →
    d.SameClaims d' ∧ ∀ path, d'.Claimable fmt path ↔ d.Claimable fmt path

/-- The sidecar of a new claim cannot be opened, for another reason than that it is there. -/
def ClaimWrite.Leaks (fmt : ClaimFormat) (fault : Option CallFault) (w : ClaimWrite)
    (d : ClaimDir) : Prop :=
  ∃ claim f, w = .issue claim ∧ fault = some f ∧ (f.target, f.call) = (.sidecar, .osOpen) ∧
    f.err ≠ .fileExists ∧ d.Claimable fmt claim.bundlePath

/-! ## What is taken so far -/

namespace ClaimPhase

variable (fmt : ClaimFormat)

/-- The locks and sidecars an operation has created and would have to give back. -/
def taken : ClaimPhase → List ClaimFile
  | .issueWriteLock claim _ | .issueOpen claim _ | .issueUnlinkLock claim =>
    [lockPath fmt claim.bundlePath]
  | .issueWrite claim _ _ => [lockPath fmt claim.bundlePath, .sidecar claim.jti]
  | _ => []

/-- The inode an operation is about to write. -/
def target : ClaimPhase → Option Nat
  | .issueWriteLock _ fd | .issueWrite _ _ fd | .markWriteTmp _ _ fd => some fd
  | _ => none

/-- The operation has put its result in place. -/
def settled : ClaimPhase → Bool
  | .issued .. | .marked .. => true
  | _ => false

end ClaimPhase

open ClaimPhase

variable {fmt : ClaimFormat} {d₀ d d' : ClaimDir} {ph ph' : ClaimPhase}

/-- Up to what it has taken, an operation has changed no lock and no sidecar, and what it has
taken was not there before. -/
structure Undoable (fmt : ClaimFormat) (d₀ : ClaimDir) (ph : ClaimPhase) (d : ClaimDir) :
    Prop where
  same : ∀ k : ClaimFile, k.isTmp = false → k ∉ ph.taken fmt → d.read k = d₀.read k
  fresh : ∀ k ∈ ph.taken fmt, d₀.read k = none
  there : ∀ k ∈ ph.taken fmt, d.read k ≠ none
  target : ∀ fd, ph.target = some fd → ∀ k : ClaimFile, d.ino k = some fd →
    k.isTmp = true ∨ k ∈ ph.taken fmt

/-- Nothing is taken. -/
theorem Undoable.of_same (h : d₀.SameClaims d) (htaken : ph.taken fmt = [])
    (htarget : ph.target = none) : Undoable fmt d₀ ph d where
  same k hk _ := h k hk
  fresh k hk := by
    rw [htaken] at hk
    cases hk
  there k hk := by
    rw [htaken] at hk
    cases hk
  target fd hfd := by
    rw [htarget] at hfd
    cases hfd

private theorem Undoable.sameClaims (h : Undoable fmt d₀ ph d) (htaken : ph.taken fmt = []) :
    d₀.SameClaims d := fun k hk => h.same k hk (by simp [htaken])

/-- What is taken is given back. -/
theorem Undoable.undone (h : Undoable fmt d₀ ph d)
    (hkept : ∀ k : ClaimFile, k.isTmp = false → k ∉ ph.taken fmt → d'.read k = d.read k)
    (hgone : ∀ k ∈ ph.taken fmt, d'.read k = none) : d₀.SameClaims d' := by
  intro k hk
  by_cases htaken : k ∈ ph.taken fmt
  · rw [hgone k htaken, h.fresh k htaken]
  · rw [hkept k hk htaken, h.same k hk htaken]

/-- A write goes into a file that is taken, or a temporary one. -/
theorem Undoable.read_put (h : Undoable fmt d₀ ph d) {fd : Nat} (hfd : ph.target = some fd)
    (b : ClaimBody) {k : ClaimFile} (hk : k.isTmp = false) (htaken : k ∉ ph.taken fmt) :
    (d.put fd b).read k = d.read k := by
  rw [Folder.read_put, if_neg]
  intro hino
  rcases h.target fd hfd k hino with htmp | hmem
  · rw [hk] at htmp
    cases htmp
  · exact htaken hmem

private theorem read_put_ne_none {k : ClaimFile} {fd : Nat} {b : ClaimBody} (h : d.read k ≠ none) :
    (d.put fd b).read k ≠ none := by
  rw [Folder.read_put]
  split
  · simp
  · exact h

/-- A step that has not settled the operation only takes more, or gives back. -/
theorem Undoable.move (h : Undoable fmt d₀ ph d) (hm : Move fmt ph d ph' d')
    (hkind : ph.kind ≠ .delete) (hsettled : ph'.settled = false) : Undoable fmt d₀ ph' d' := by
  cases hm with
  | @lock claim _ hl =>
    have hread := Folder.read_create d (.text 0) hl
    refine ⟨fun k hk htaken => ?_, fun k hk => ?_, fun k hk => ?_, fun fd hfd k hino => ?_⟩
    · rw [hread, if_neg (by simpa [taken] using htaken)]
      exact h.same k hk (by simp [taken])
    · rw [List.mem_singleton.mp hk, ← h.same _ rfl (by simp [taken])]
      exact Folder.read_eq_none.mpr hl
    · rw [List.mem_singleton.mp hk, hread, if_pos rfl]
      exact Option.some_ne_none _
    · cases hfd
      rw [Folder.ino_create] at hino
      split at hino
      · next he => exact .inr (List.mem_singleton.mpr he)
      · exact absurd (Folder.ino_lt hino) (Nat.lt_irrefl _)
  | locked => exact .of_same (h.sameClaims rfl) rfl rfl
  | @writeLock claim l _ =>
    exact ⟨fun k hk htaken => (h.read_put rfl _ hk htaken).trans (h.same k hk htaken), h.fresh,
      fun k hk => read_put_ne_none (h.there k hk), by rintro _ ⟨⟩⟩
  | @create claim l _ hs =>
    have hread := Folder.read_create d (.text 0) hs
    refine ⟨fun k hk htaken => ?_, fun k hk => ?_, fun k hk => ?_, fun fd hfd k hino => ?_⟩
    · simp only [taken, List.mem_cons, List.not_mem_nil, or_false, not_or] at htaken
      rw [hread, if_neg htaken.2]
      exact h.same k hk (by simpa [taken] using htaken.1)
    · rcases List.mem_pair.mp hk with rfl | rfl
      · exact h.fresh _ (.head _)
      · rw [← h.same _ rfl (by simp [taken, lockPath])]
        exact Folder.read_eq_none.mpr hs
    · rcases List.mem_pair.mp hk with rfl | rfl
      · rw [hread, if_neg (by simp [lockPath])]
        exact h.there _ (.head _)
      · rw [hread, if_pos rfl]
        exact Option.some_ne_none _
    · cases hfd
      rw [Folder.ino_create] at hino
      split at hino
      · next he => exact .inr (List.mem_pair.mpr (.inr he))
      · exact absurd (Folder.ino_lt hino) (Nat.lt_irrefl _)
  | clash hs => exact ⟨h.same, h.fresh, h.there, by rintro _ ⟨⟩⟩
  | @undo claim _ =>
    have hread := Folder.read_unlink d (lockPath fmt claim.bundlePath)
    refine .of_same (h.undone (fun k _ htaken => ?_) fun k hk => ?_) rfl rfl
    · rw [hread, if_neg (by simpa [taken] using htaken)]
    · rw [List.mem_singleton.mp hk, hread, if_pos rfl]
  | noSidecar => exact .of_same (h.sameClaims rfl) rfl rfl
  | badSidecar => exact .of_same (h.sameClaims rfl) rfl rfl
  | draft hg => exact .of_same (h.sameClaims rfl) rfl rfl
  | @newTmp jti updated _ ht =>
    refine ⟨fun k hk _ => ?_, by rintro _ ⟨⟩, by rintro _ ⟨⟩, fun fd hfd k hino => ?_⟩
    · rw [Folder.read_create, if_neg (by rintro rfl; cases hk)]
      exact h.same k hk (by simp [taken])
    · cases hfd
      rw [Folder.ino_create] at hino
      split at hino
      · next he => exact .inl (by rw [he]; rfl)
      · exact absurd (Folder.ino_lt hino) (Nat.lt_irrefl _)
  | @oldTmp jti updated i _ ht =>
    refine ⟨fun k hk _ => ?_, by rintro _ ⟨⟩, by rintro _ ⟨⟩, fun fd hfd k hino => ?_⟩
    · rw [Folder.read_put, if_neg]
      · exact h.same k hk (by simp [taken])
      · intro hino
        cases Folder.ino_inj hino ht
        cases hk
    · cases hfd
      cases Folder.ino_inj hino ht
      exact .inl rfl
  | writeTmp =>
    exact .of_same (fun k hk => (h.read_put rfl _ hk (by simp [taken])).trans
      (h.same k hk (by simp [taken]))) rfl rfl
  | noTmp => exact .of_same (h.sameClaims rfl) rfl rfl
  | dropTmp =>
    refine .of_same (fun k hk => ?_) rfl rfl
    rw [Folder.read_unlink, if_neg (by rintro rfl; cases hk)]
    exact h.same k hk (by simp [taken])
  | write => cases hsettled
  | already => cases hsettled
  | replaced => cases hsettled
  | _ => exact absurd rfl hkind

/-! ## The undo -/

/-- What is undone when a call raises, the sidecar of a new claim apart. -/
theorem Undoable.raising {f : CallFault} (h : Undoable fmt d₀ ph d)
    (hcall : (f.target, f.call) ∈ ph.calls)
    (hopen : ∀ claim l, ph = .issueOpen claim l → f.err = .fileExists) :
    d₀.SameClaims (ph.raising fmt f d).2 := by
  cases ph with
  | issueOpenLock claim => exact h.sameClaims rfl
  | issueWriteLock claim l =>
    refine h.undone (fun k hk htaken => ?_) fun k hk => ?_
    · exact (Folder.read_unlink ..).trans
        ((if_neg (by simpa [taken] using htaken)).trans (h.read_put rfl _ hk htaken))
    · exact (Folder.read_unlink ..).trans (if_pos (List.mem_singleton.mp hk))
  | issueOpen claim l =>
    rw [ClaimPhase.raising, if_pos (hopen claim l rfl)]
    refine h.undone (fun k hk htaken => ?_) fun k hk => ?_
    · exact (Folder.read_unlink ..).trans (if_neg (by simpa [taken] using htaken))
    · exact (Folder.read_unlink ..).trans (if_pos (List.mem_singleton.mp hk))
  | issueWrite claim l fd =>
    have hread : ∀ k, (ClaimPhase.raising fmt f (.issueWrite claim l fd) d).2.read k =
        if k = lockPath fmt claim.bundlePath then none
        else if k = .sidecar claim.jti then none else (d.put fd f.left).read k :=
      fun k => by rw [ClaimPhase.raising, Folder.read_unlink, Folder.read_unlink]
    refine h.undone (fun k hk htaken => ?_) fun k hk => ?_
    · have hnot := htaken
      simp only [taken, List.mem_cons, List.not_mem_nil, or_false, not_or] at hnot
      rw [hread, if_neg hnot.1, if_neg hnot.2, h.read_put rfl _ hk htaken]
    · rw [hread]
      rcases List.mem_pair.mp hk with rfl | rfl
      · rw [if_pos rfl]
      · rw [if_neg (by simp [lockPath]), if_pos rfl]
  | markRead jti name => exact h.sameClaims rfl
  | markOpenTmp jti updated => exact h.sameClaims rfl
  | markWriteTmp jti updated fd =>
    refine h.undone (fun k hk htaken => ?_) (by rintro _ ⟨⟩)
    exact (Folder.read_unlink ..).trans
      ((if_neg (by rintro rfl; cases hk)).trans (h.read_put rfl _ hk htaken))
  | markReplace jti updated =>
    refine h.undone (fun k hk htaken => ?_) (by rintro _ ⟨⟩)
    exact (Folder.read_unlink ..).trans (if_neg (by rintro rfl; cases hk))
  | _ => cases hcall

private theorem taken_of_raised {e : ClaimRaised} (h : ph.outcome = .error e) :
    ph.taken fmt = [] := by
  cases ph <;> first | rfl | cases h

private theorem attempt_settled (fault : Option CallFault) (h : ph.settled = true) (n : Nat)
    (d : ClaimDir) : ph.attempt fmt fault n d = (.ok (), d) := by
  induction n with
  | zero => cases ph <;> first | rfl | cases h
  | succ n ih =>
    have hcalls : ph.calls = [] := by
      cases ph <;> first | rfl | cases h
    have hfault : (fault.filter fun f => (f.target, f.call) ∈ ph.calls) = none := by
      cases fault <;> simp [hcalls]
    have hfinished : ph.finished = true := by
      cases ph <;> first | rfl | cases h
    rw [attempt, hfault]
    dsimp only
    rw [step_finished fmt hfinished]
    exact ih

/-- An operation that raises undoes what it has taken, unless its fault is the one that leaks. -/
theorem Undoable.attempt {fault : Option CallFault} {n : Nat} {e : ClaimRaised}
    (h : Undoable fmt d₀ ph d) (hkind : ph.kind ≠ .delete)
    (hopen : ∀ f, fault = some f → (f.target, f.call) = (.sidecar, .osOpen) →
      ∀ claim, ph.claimOf = some claim → d₀.Claimable fmt claim.bundlePath →
        f.err = .fileExists)
    (hrun : ph.attempt fmt fault n d = (.error e, d')) : d₀.SameClaims d' := by
  induction n generalizing ph d with
  | zero =>
    rw [ClaimPhase.attempt, Prod.mk.injEq] at hrun
    obtain ⟨hout, rfl⟩ := hrun
    exact h.sameClaims (taken_of_raised hout)
  | succ n ih =>
    rw [ClaimPhase.attempt] at hrun
    cases hfault : fault.filter fun f => (f.target, f.call) ∈ ph.calls with
    | some f =>
      rw [hfault, Prod.mk.injEq] at hrun
      obtain ⟨-, rfl⟩ := hrun
      rw [Option.filter_eq_some_iff, decide_eq_true_iff] at hfault
      refine h.raising hfault.2 fun claim l hph => ?_
      subst hph
      have hcall : (f.target, f.call) = (.sidecar, .osOpen) := List.mem_singleton.mp hfault.2
      exact hopen f hfault.1 hcall claim rfl (h.fresh _ (.head _))
    | none =>
      rw [hfault] at hrun
      dsimp only at hrun
      cases hfin : ph.finished with
      | true =>
        rw [step_finished fmt hfin] at hrun
        exact ih h hkind hopen hrun
      | false =>
        have hm := step_move fmt hfin d
        cases hsettled : (ph.step fmt d).1.settled with
        | true =>
          rw [attempt_settled fault hsettled] at hrun
          cases hrun
        | false =>
          refine ih (h.move hm hkind hsettled) ?_ ?_ hrun
          · rw [hm.kind_eq]
            exact hkind
          · rw [hm.claimOf_eq]
            exact hopen

private theorem ClaimWrite.kind_start (w : ClaimWrite) : w.start.kind ≠ .delete := by
  cases w <;> nofun

private theorem ClaimWrite.undoable_start (w : ClaimWrite) (d : ClaimDir) :
    Undoable fmt d w.start d :=
  .of_same (.refl d) (by cases w <;> rfl) (by cases w <;> rfl)

/-- A new claim whose sidecar cannot be opened keeps its lock. -/
theorem ClaimWrite.run_leaks {fault : Option CallFault} {w : ClaimWrite}
    (h : w.Leaks fmt fault d) : ∃ e d' path, w.run fmt fault d = (.error e, d') ∧
      d.Claimable fmt path ∧ ¬d'.Claimable fmt path := by
  obtain ⟨claim, f, rfl, rfl, hcall, herr, hfree⟩ := h
  obtain ⟨ht, hc⟩ := Prod.mk.inj hcall
  have hl : d.ino (lockPath fmt claim.bundlePath) = none := Folder.read_eq_none.mp hfree
  have hrun : ClaimWrite.run fmt (some f) (.issue claim) d = (.error (.osError f.err),
      write fmt d.next (.jti claim.jti)
        (d.create (lockPath fmt claim.bundlePath) (.text 0) hl)) := by
    unfold ClaimWrite.run ClaimWrite.start
    have h₁ : step fmt (.issueOpenLock claim) d = (.issueWriteLock claim d.next,
        d.create (lockPath fmt claim.bundlePath) (.text 0) hl) := by
      simp only [step, Folder.openExcl_of_none hl]
    rw [ClaimPhase.attempt, show (some f).filter _ = none by simp [ht, hc, calls], h₁,
      ClaimPhase.attempt, show (some f).filter _ = none by simp [ht, hc, calls],
      step_issueWriteLock, ClaimPhase.attempt,
      show (some f).filter _ = some f by simp [ht, hc, calls]]
    dsimp only
    rw [ClaimPhase.raising, if_neg herr]
  refine ⟨_, _, claim.bundlePath, hrun, hfree, ?_⟩
  refine read_put_ne_none ?_
  rw [Folder.read_create, if_pos rfl]
  exact Option.some_ne_none _

/-- `issue` and `mark_fetched` that raise leave the claims as they were exactly when the fault is
not the one that leaks the lock. -/
theorem claimWrite_atomic_iff (fmt : ClaimFormat) (fault : Option CallFault) (w : ClaimWrite)
    (d : ClaimDir) : w.Atomic fmt fault d ↔ ¬w.Leaks fmt fault d := by
  constructor
  · intro hatomic hleaks
    obtain ⟨e, d', path, hrun, hfree, htaken⟩ := ClaimWrite.run_leaks hleaks
    exact htaken (((hatomic e d' hrun).2 path).mpr hfree)
  · intro hleaks e d' hrun
    have hsame : d.SameClaims d' := by
      refine (w.undoable_start d).attempt w.kind_start
        (fun f hf hcall claim hclaim hfree => ?_) hrun
      by_contra herr
      cases w with
      | issue c =>
        obtain rfl := Option.some.inj hclaim
        exact hleaks ⟨c, f, rfl, hf, hcall, herr, hfree⟩
      | markFetched jti name => cases hclaim
    exact ⟨hsame, hsame.claimable⟩

/-- No file handles are left when the sidecar is opened. -/
def outOfHandles : CallFault := ⟨.sidecar, .osOpen, .other, .text 0⟩

/-- The lock of the claim that failed stays, and the next claim on the bundle is refused. -/
theorem issue_leaves_lock :
    ClaimDir.empty.Claimable .sample (sampleClaim 1).bundlePath ∧
    (ClaimWrite.run .sample (some outOfHandles) (.issue (sampleClaim 1)) ClaimDir.empty).1 =
      .error (.osError .other) ∧
    ¬ClaimWrite.Atomic .sample (some outOfHandles) (.issue (sampleClaim 1)) ClaimDir.empty ∧
    (ClaimWrite.run .sample none (.issue (sampleClaim 2))
      (ClaimWrite.run .sample (some outOfHandles) (.issue (sampleClaim 1)) ClaimDir.empty).2).1 =
        .error .bundleClaimed := by
  refine ⟨rfl, by decide +kernel, fun h => ?_, by decide +kernel⟩
  have hleaks : ClaimWrite.Leaks .sample (some outOfHandles) (.issue (sampleClaim 1))
      ClaimDir.empty := ⟨sampleClaim 1, outOfHandles, rfl, rfl, rfl, nofun, rfl⟩
  obtain ⟨e, d', path, hrun, hfree, htaken⟩ := ClaimWrite.run_leaks hleaks
  exact htaken (((h e d' hrun).2 path).mpr hfree)

end Cassetta
