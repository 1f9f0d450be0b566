import Cassetta.Claims.Contract
import Cassetta.Server.Reading

/-!
# Claims after a crash

A claim-store operation stops between two filesystem calls, or with part of a write done; what
it leaves in the directory is all there is to go by. `sweep_claims`, the same program as on the
running server, is run against that directory later. It finds its work by reading sidecars, so
what decides is whether a lock that was left has a sidecar that parses. A claim on a path whose
manifest cannot be read stays where it is.
-/

namespace Cassetta

open ClaimDir

/-! ## Stopping in the middle -/

namespace ClaimPhase

variable (fmt : ClaimFormat)

/-- Part of the text that would be written next. -/
def tear (length : Nat) : ClaimPhase → ClaimDir → ClaimDir
  | .issueWriteLock _ fd, d | .issueWrite _ _ fd, d | .markWriteTmp _ _ fd, d =>
    write fmt fd (.text length) d
  | _, d => d

/-- The process stops after so many calls, or part of the way through the write after them. -/
def crash (ph : ClaimPhase) (calls : Nat) (part : Option Nat) (d : ClaimDir) : ClaimDir :=
  match part with
  | none => (ph.steps fmt calls d).2
  | some length => (ph.steps fmt calls d).1.tear fmt length (ph.steps fmt calls d).2

end ClaimPhase

/-- What an operation cut short leaves; the others only read. -/
def ClaimCall.crash (fmt : ClaimFormat) (calls : Nat) (part : Option Nat) :
    ClaimCall → ClaimDir → ClaimDir
  | .issue claim, d => (ClaimPhase.issueOpenLock claim).crash fmt calls part d
  | .markFetched jti name, d => (ClaimPhase.markRead jti name).crash fmt calls part d
  | .delete jti, d => (ClaimPhase.deleteRead jti).crash fmt calls part d
  | .get _, d | .iterAll, d => d

/-! ## The server on a directory -/

section World

variable (fmt : ClaimFormat) (cfg : Config) (env : Environment) (g : Garble cfg.backend)

/-- Answer a call that does not reach the claim store. -/
def execPlain (c : Call) (w : Server × ClaimDir) : c.Answer × Server × ClaimDir :=
  ((execReading cfg env g c w.1).1, (execReading cfg env g c w.1).2, w.2)

/-- Answer a call on the claim store from the directory. `get` of a sidecar that does not parse
raises; the programs that are run here do not call it. -/
def execDir : (c : AnyCall) → Server × ClaimDir → c.Answer × Server × ClaimDir
  | .plain c, w => execPlain cfg env g c w
  | .claim (.issue claim), w =>
    match call fmt (.issue claim) w.2 with
    | (.done, d) => (.ok (), w.1, d)
    | (_, d) => (.error .bundleClaimed, w.1, d)
  | .claim (.get jti), w => ((w.2.get jti).join, w)
  | .claim (.markFetched jti name), w =>
    match call fmt (.markFetched jti name) w.2 with
    | (.claim claim, d) => (.ok claim, w.1, d)
    | (_, d) => (.error .fileNotFound, w.1, d)
  | .claim (.delete jti), w => ((), w.1, (call fmt (.delete jti) w.2).2)
  | .claim .iterAll, w => (w.2.iterAll, w)

private theorem agree_execDir :
    Prog.Agree AnyCall.plain (fun _ a => a) (execPlain cfg env g) (execDir fmt cfg env g) :=
  fun _ _ => rfl

/-- One pass of `sweep_claims`. -/
def sweptDir (w : Server × ClaimDir) : Server × ClaimDir :=
  (Prog.runE (execDir fmt cfg env g) (Background.sweepClaims cfg) w).2

/-- A bundle at this path can be listed and picked again. -/
structure Recovered (w : Server × ClaimDir) (path : String) : Prop where
  unlocked : w.2.ino (lockPath fmt path) = none
  listed : ∃ hidden w', Prog.runE (execDir fmt cfg env g) (Inbox.hiddenPaths cfg) w =
    (.ok hidden, w') ∧ path ∉ hidden
  pickable : ∀ claim : ClaimRecord, claim.bundlePath = path → w.2.ino (.sidecar claim.jti) = none →
    (call fmt (.issue claim) w.2).1 = .done

end World

/-! ## Deleting what the pass found -/

section Drop

variable {fmt : ClaimFormat} {d : ClaimDir}

private theorem ClaimPhase.finish_delete_malformed {jti : Id} (hg : d.get jti = some none) :
    finish fmt (.deleteRead jti) d = (.deleted jti, d.unlink (.sidecar jti)) := by
  have h₁ : step fmt (.deleteRead jti) d = (.deleteUnlink jti, d) := by
    simp only [step, hg]
  rw [finish, steps_of_step h₁, steps_of_step (step_deleteUnlink ..), steps_finished fmt rfl]

private theorem get_unlink_sidecar (d : ClaimDir) (jti k : Id) :
    ClaimDir.get (d.unlink (.sidecar jti)) k = if k = jti then none else d.get k := by
  rw [ClaimDir.get, Folder.read_unlink]
  by_cases hk : k = jti
  · simp [hk]
  · rw [if_neg (by simpa using hk), if_neg hk]
    rfl

private theorem get_unlink_lock (d : ClaimDir) (path : String) (k : Id) :
    ClaimDir.get (d.unlink (lockPath fmt path)) k = d.get k := by
  rw [ClaimDir.get, Folder.read_unlink, if_neg (by simp [lockPath])]
  rfl

/-- What `delete` does to any directory. -/
theorem get_delete (jti k : Id) :
    (call fmt (.delete jti) d).2.get k = if k = jti then none else d.get k := by
  rw [call_delete]
  rcases hg : d.get jti with _ | _ | claim
  · rw [ClaimPhase.finish_delete_absent hg]
    split
    · rename_i hk
      rw [hk, hg]
    · rfl
  · rw [ClaimPhase.finish_delete_malformed hg, get_unlink_sidecar]
  · rw [ClaimPhase.finish_delete hg, get_unlink_sidecar, get_unlink_lock]

private theorem lock_delete (jti : Id) (path : String) :
    (call fmt (.delete jti) d).2.ino (lockPath fmt path) = none ↔
      d.ino (lockPath fmt path) = none ∨ ∃ c, d.get jti = some (some c) ∧
        lockPath fmt c.bundlePath = lockPath fmt path := by
  rw [call_delete]
  rcases hg : d.get jti with _ | _ | claim
  · rw [ClaimPhase.finish_delete_absent hg]
    simp
  · rw [ClaimPhase.finish_delete_malformed hg, Folder.ino_unlink, if_neg (by simp [lockPath])]
    simp
  · rw [ClaimPhase.finish_delete hg, Folder.ino_unlink, if_neg (by simp [lockPath]),
      Folder.ino_unlink]
    by_cases hp : lockPath fmt path = lockPath fmt claim.bundlePath
    · simp [hp]
    · simp [hp, Ne.symm hp]

/-- Delete one claim after another. -/
def dropAll (fmt : ClaimFormat) (jtis : List Id) (d : ClaimDir) : ClaimDir :=
  jtis.foldl (fun d jti => (call fmt (.delete jti) d).2) d

private theorem dropAll_cons (jti : Id) (rest : List Id) (d : ClaimDir) :
    dropAll fmt (jti :: rest) d = dropAll fmt rest (call fmt (.delete jti) d).2 := rfl

private theorem get_dropAll (jtis : List Id) (k : Id) :
    (dropAll fmt jtis d).get k = if k ∈ jtis then none else d.get k := by
  induction jtis generalizing d with
  | nil => simp [dropAll]
  | cons jti rest ih =>
    rw [dropAll_cons, ih, get_delete]
    by_cases hr : k ∈ rest
    · simp [hr]
    · simp [hr]

private theorem lock_dropAll (jtis : List Id) (path : String) :
    (dropAll fmt jtis d).ino (lockPath fmt path) = none ↔
      d.ino (lockPath fmt path) = none ∨ ∃ jti ∈ jtis, ∃ c, d.get jti = some (some c) ∧
        lockPath fmt c.bundlePath = lockPath fmt path := by
  induction jtis generalizing d with
  | nil => simp [dropAll]
  | cons jti rest ih =>
    rw [dropAll_cons, ih, lock_delete, or_assoc]
    refine or_congr_right ?_
    constructor
    · rintro (⟨c, hg, hp⟩ | ⟨k, hk, c, hg, hp⟩)
      · exact ⟨jti, by simp, c, hg, hp⟩
      · rw [get_delete] at hg
        split at hg
        · cases hg
        · exact ⟨k, by simp [hk], c, hg, hp⟩
    · rintro ⟨k, hk, c, hg, hp⟩
      by_cases hkj : k = jti
      · subst hkj
        exact .inl ⟨c, hg, hp⟩
      · refine .inr ⟨k, (List.mem_cons.mp hk).resolve_left hkj, c, ?_, hp⟩
        rw [get_delete, if_neg hkj, hg]

end Drop

/-! ## One pass -/

section Sweep

variable {fmt : ClaimFormat} {cfg : Config} {env : Environment} {g : Garble cfg.backend}

private theorem runE_plain {α : Type} (x : Handler α) (w : Server × ClaimDir) :
    Prog.runE (execDir fmt cfg env g) (plain x) w = Prog.runE (execPlain cfg env g) x w :=
  Prog.runE_embedE (agree_execDir fmt cfg env g) x

private theorem runE_readBundleMeta {path : String} {w : Server × ClaimDir}
    (h : cfg.backend.garbled g w.1.disk.tree path = false) :
    Prog.runE (execPlain cfg env g) (readBundleMeta path) w =
      (.ok (match cfg.backend.readBundleMeta w.1.disk.tree path with
        | some m => .ok m
        | none => .error .fileNotFound), w) := by
  have hread : execReading cfg env g (.readBundleMeta path) w.1 =
      exec cfg env (.readBundleMeta path) w.1 := execReading_of_legible _ _ h
  show (Except.ok (execReading cfg env g (.readBundleMeta path) w.1).1,
    (execReading cfg env g (.readBundleMeta path) w.1).2, w.2) = _
  rw [hread]
  rfl

/-- A path whose manifest can be read, or is missing, stays one. -/
def StaysLegible (g : Garble cfg.backend) (s s' : Server) : Prop :=
  ∀ path, cfg.backend.garbled g s.disk.tree path = false →
    cfg.backend.garbled g s'.disk.tree path = false

private theorem runE_deleteBundle (path : String) (w : Server × ClaimDir) :
    ∃ r s', Prog.runE (execPlain cfg env g) (deleteBundle path) w = (.ok r, s', w.2) ∧
      StaysLegible g w.1 s' := by
  refine ⟨_, _, rfl, fun p hp => ?_⟩
  rw [← Bool.not_eq_true] at hp ⊢
  exact fun h => hp (Backend.garbled_of_deleteBundle h)

private theorem runE_deleteClaim (jti : Id) (w : Server × ClaimDir) :
    Prog.runE (execDir fmt cfg env g) (deleteClaim jti) w =
      (.ok (), w.1, (call fmt (.delete jti) w.2).2) := rfl

/-- An old claim is dropped whatever is found at its path, if that can be read. -/
theorem runE_sweepClaim {t : Nat} {claim : ClaimRecord}
    (hold : ¬t < claim.createdAt + secondsToMicros cfg.limits.downloadClaimTtl)
    {w : Server × ClaimDir} (hread : cfg.backend.garbled g w.1.disk.tree claim.bundlePath = false) :
    ∃ s', Prog.runE (execDir fmt cfg env g) (Background.sweepClaim cfg t claim) w =
      (.ok (), s', (call fmt (.delete claim.jti) w.2).2) ∧ StaysLegible g w.1 s' := by
  unfold Background.sweepClaim
  generalize claim.createdAt + secondsToMicros cfg.limits.downloadClaimTtl = limit at hold ⊢
  rw [if_neg hold, Prog.runE_bind, runE_plain, runE_readBundleMeta hread]
  cases cfg.backend.readBundleMeta w.1.disk.tree claim.bundlePath with
  | none => exact ⟨_, runE_deleteClaim claim.jti w, fun _ h => h⟩
  | some m =>
    simp only
    split
    · obtain ⟨r, s', he, hstays⟩ := @runE_deleteBundle cfg env g claim.bundlePath w
      rw [Prog.runE_bind, runE_plain, he]
      exact ⟨s', runE_deleteClaim claim.jti (s', w.2), hstays⟩
    · exact ⟨_, runE_deleteClaim claim.jti w, fun _ h => h⟩

private theorem runE_sweepEach {t : Nat} {claims : List ClaimRecord}
    (hold : ∀ c ∈ claims, ¬t < c.createdAt + secondsToMicros cfg.limits.downloadClaimTtl)
    {w : Server × ClaimDir}
    (hread : ∀ c ∈ claims, cfg.backend.garbled g w.1.disk.tree c.bundlePath = false) :
    ∃ s', Prog.runE (execDir fmt cfg env g) (Background.sweepEach cfg t claims) w =
      (.ok (), s', dropAll fmt (claims.map (·.jti)) w.2) := by
  induction claims generalizing w with
  | nil => exact ⟨w.1, rfl⟩
  | cons claim rest ih =>
    obtain ⟨s₁, h₁, hstays⟩ := @runE_sweepClaim fmt cfg env g t claim (hold claim (by simp)) w
      (hread claim (by simp))
    obtain ⟨s₂, h₂⟩ := ih (fun c hc => hold c (by simp [hc]))
      (w := (s₁, (call fmt (.delete claim.jti) w.2).2))
      fun c hc => hstays _ (hread c (by simp [hc]))
    refine ⟨s₂, ?_⟩
    rw [List.map_cons, dropAll_cons, Background.sweepEach, Prog.runE_bind_ok h₁, h₂]

/-- The pass reads the clock after the listing. -/
theorem runE_now (w : Server × ClaimDir) :
    ∃ t s', Prog.runE (execPlain cfg env g) now w = (.ok t, s', w.2) ∧ w.1.wall ≤ t ∧
      s'.disk = w.1.disk :=
  ⟨_, _, rfl, Nat.le_add_right _ _, rfl⟩

private theorem runE_iterClaims (w : Server × ClaimDir) :
    Prog.runE (execDir fmt cfg env g) iterClaims w = (.ok w.2.iterAll, w) := rfl

/-- When every sidecar that parses is old, and no claimed manifest is unreadable, the pass deletes
those claims. -/
theorem sweptDir_eq {w : Server × ClaimDir} (hold : ∀ c ∈ w.2.iterAll,
      c.createdAt + secondsToMicros cfg.limits.downloadClaimTtl ≤ w.1.wall)
    (hread : ∀ c ∈ w.2.iterAll, cfg.backend.garbled g w.1.disk.tree c.bundlePath = false) :
    (sweptDir fmt cfg env g w).2 = dropAll fmt (w.2.iterAll.map (·.jti)) w.2 := by
  obtain ⟨t, s₁, h₁, ht, hdisk⟩ := @runE_now cfg env g w
  obtain ⟨s₂, h₂⟩ := @runE_sweepEach fmt cfg env g t w.2.iterAll
    (fun c hc => not_lt.mpr ((hold c hc).trans ht)) (s₁, w.2) fun c hc => by
      rw [show (s₁, w.2).1.disk = w.1.disk from hdisk]
      exact hread c hc
  unfold sweptDir Background.sweepClaims
  rw [Prog.runE_bind, runE_iterClaims]
  simp only
  rw [Prog.runE_bind, runE_plain, h₁]
  simp only [h₂]

private theorem mem_iterAll {d : ClaimDir} {c : ClaimRecord} :
    c ∈ d.iterAll ↔ ∃ jti, d.get jti = some (some c) := by
  rw [iterAll, List.mem_filterMap]
  constructor
  · rintro ⟨k, -, hk⟩
    cases k with
    | sidecar jti => exact ⟨jti, by simpa [entryClaim, Option.join_eq_some_iff] using hk⟩
    | sidecarTmp jti => cases hk
    | lock digest => cases hk
  · rintro ⟨jti, hg⟩
    refine ⟨.sidecar jti, ?_, by simp [entryClaim, hg]⟩
    by_contra hn
    exact ino_ne_none_of_get hg (Folder.ino_eq_none.mpr hn)

/-- A lock that is there has a sidecar that parses. -/
def Settled (fmt : ClaimFormat) (d : ClaimDir) (path : String) : Prop :=
  d.ino (lockPath fmt path) = none ∨
    ∃ jti c, d.get jti = some (some c) ∧ lockPath fmt c.bundlePath = lockPath fmt path

/-- Every sidecar that parses is its own claim's and is old, and the manifest at its path can be
read or is missing. -/
def Aged (cfg : Config) (g : Garble cfg.backend) (s : Server) (d : ClaimDir) : Prop :=
  ∀ jti c, d.get jti = some (some c) →
    c.jti = jti ∧ c.createdAt + secondsToMicros cfg.limits.downloadClaimTtl ≤ s.wall ∧
      cfg.backend.garbled g s.disk.tree c.bundlePath = false

private theorem recovered_iff_settled {w : Server × ClaimDir} (h : Aged cfg g w.1 w.2)
    (path : String) : Recovered fmt cfg env g (sweptDir fmt cfg env g w) path ↔
      Settled fmt w.2 path := by
  have hold : ∀ c ∈ w.2.iterAll,
      c.createdAt + secondsToMicros cfg.limits.downloadClaimTtl ≤ w.1.wall := by
    intro c hc
    obtain ⟨jti, hg⟩ := mem_iterAll.mp hc
    exact (h jti c hg).2.1
  have hread : ∀ c ∈ w.2.iterAll, cfg.backend.garbled g w.1.disk.tree c.bundlePath = false := by
    intro c hc
    obtain ⟨jti, hg⟩ := mem_iterAll.mp hc
    exact (h jti c hg).2.2
  have hjtis : ∀ jti c, w.2.get jti = some (some c) → jti ∈ w.2.iterAll.map (·.jti) := by
    intro jti c hg
    exact List.mem_map.mpr ⟨c, mem_iterAll.mpr ⟨jti, hg⟩, (h jti c hg).1⟩
  have hlock : (sweptDir fmt cfg env g w).2.ino (lockPath fmt path) = none ↔
      Settled fmt w.2 path := by
    rw [sweptDir_eq hold hread, lock_dropAll]
    refine or_congr_right ?_
    constructor
    · rintro ⟨jti, -, c, hg, hp⟩
      exact ⟨jti, c, hg, hp⟩
    · rintro ⟨jti, c, hg, hp⟩
      exact ⟨jti, hjtis jti c hg, c, hg, hp⟩
  refine ⟨fun hr => hlock.mp hr.unlocked, fun hs => ⟨hlock.mpr hs, ?_, ?_⟩⟩
  · have hnil : (sweptDir fmt cfg env g w).2.iterAll = [] := by
      rw [List.eq_nil_iff_forall_not_mem]
      intro c hc
      obtain ⟨jti, hg⟩ := mem_iterAll.mp hc
      rw [sweptDir_eq hold hread, get_dropAll] at hg
      split at hg
      · cases hg
      · rename_i hn
        exact hn (hjtis jti c hg)
    obtain ⟨t, s', ht, -⟩ := @runE_now cfg env g (sweptDir fmt cfg env g w)
    refine ⟨[], (s', (sweptDir fmt cfg env g w).2), ?_, by simp⟩
    unfold Inbox.hiddenPaths
    rw [Prog.runE_bind, runE_plain, ht]
    simp only
    rw [Prog.runE_bind, runE_iterClaims]
    simp [hnil]
  · intro claim hp hn
    subst hp
    obtain ⟨d', he, -⟩ := ClaimPhase.finish_issue_free (hlock.mpr hs) hn
    simp only [call, he]

end Sweep

/-! ## Where a crash can leave the directory -/

namespace ClaimPhase

variable {fmt : ClaimFormat} {d : ClaimDir}

private theorem crash_finished {ph ph' : ClaimPhase} {n : Nat} {d' : ClaimDir}
    (h : ph.steps fmt n d = (ph', d')) (hf : ph'.finished = true) (part : Option Nat) :
    ph.crash fmt n part d = d' := by
  unfold crash
  rw [h]
  cases part with
  | none => rfl
  | some length => cases ph' <;> first | rfl | cases hf

private theorem steps_of_finished {ph ph' : ClaimPhase} {n m : Nat} {d' : ClaimDir} (hnm : n ≤ m)
    (h : ph.steps fmt n d = (ph', d')) (hf : ph'.finished = true) :
    ph.steps fmt m d = (ph', d') := by
  induction n generalizing ph d m with
  | zero =>
    obtain ⟨rfl, rfl⟩ := Prod.mk.inj h
    exact steps_finished fmt hf m d
  | succ n ih =>
    obtain ⟨m, rfl⟩ : ∃ k, m = k + 1 := ⟨m - 1, by omega⟩
    rw [steps_succ] at h ⊢
    exact ih (by omega) h

private theorem crash_issue_locked {claim : ClaimRecord}
    (hl : d.ino (lockPath fmt claim.bundlePath) ≠ none) (n : Nat) (part : Option Nat) :
    crash fmt (.issueOpenLock claim) n part d = d := by
  have h₁ : steps fmt 1 (.issueOpenLock claim) d = (.bundleClaimed claim, d) := by
    have hs : step fmt (.issueOpenLock claim) d = (.bundleClaimed claim, d) := by
      simp only [step, Folder.openExcl_of_ne hl]
    rw [steps_of_step hs]
    rfl
  cases n with
  | zero => cases part <;> rfl
  | succ n => exact crash_finished (steps_of_finished (by omega) h₁ rfl) rfl part

/-- A lock with some text, and at most a sidecar that does not parse. -/
def Stranded (fmt : ClaimFormat) (d : ClaimDir) (claim : ClaimRecord) (d' : ClaimDir) : Prop :=
  ∃ (b : ClaimBody) (o : Option ClaimBody), o.bind ClaimDir.parse = none ∧ ∀ k, d'.read k =
    if k = .sidecar claim.jti then o
    else if k = lockPath fmt claim.bundlePath then some b else d.read k

/-- A claim that is stranded keeps its lock. -/
theorem Stranded.lock {claim : ClaimRecord} {d' : ClaimDir} (h : Stranded fmt d claim d') :
    d'.ino (lockPath fmt claim.bundlePath) ≠ none := by
  obtain ⟨b, o, -, hread⟩ := h
  intro hn
  have hb := hread (lockPath fmt claim.bundlePath)
  rw [Folder.read_eq_none.mpr hn, if_neg (by simp [lockPath]), if_pos rfl] at hb
  cases hb

/-- What is read beside a stranded claim was there. -/
theorem Stranded.get {claim : ClaimRecord} {d' : ClaimDir} (h : Stranded fmt d claim d') {jti : Id}
    {c : ClaimRecord} (hg : d'.get jti = some (some c)) : d.get jti = some (some c) := by
  obtain ⟨b, o, ho, hread⟩ := h
  rw [ClaimDir.get, hread] at hg
  split at hg
  · obtain ⟨b', rfl, hc⟩ := Option.map_eq_some_iff.mp hg
    rw [Option.bind_some, hc] at ho
    cases ho
  · rwa [if_neg (by simp [lockPath])] at hg

/-- Once `issue` has its lock and until its sidecar is whole, a crash strands the lock. -/
theorem crash_issue_stranded {claim : ClaimRecord}
    (hl : d.ino (lockPath fmt claim.bundlePath) = none) (hs : d.ino (.sidecar claim.jti) = none)
    {n : Nat} (hn : 1 ≤ n) (hn' : n ≤ 3) (part : Option Nat) :
    Stranded fmt d claim (crash fmt (.issueOpenLock claim) n part d) := by
  have hsr : d.read (.sidecar claim.jti) = none := Folder.read_eq_none.mpr hs
  have h₁ : step fmt (.issueOpenLock claim) d = (.issueWriteLock claim d.next,
      d.create (lockPath fmt claim.bundlePath) (.text 0) hl) := by
    simp only [step, Folder.openExcl_of_none hl]
  have hone : steps fmt 1 (.issueOpenLock claim) d = (.issueWriteLock claim d.next,
      d.create (lockPath fmt claim.bundlePath) (.text 0) hl) := by
    rw [steps_of_step h₁]
    rfl
  have htwo := steps_take_lock hl 0
  have hthree := steps_take_lock hl 1
  generalize hd₁ : write fmt d.next (.jti claim.jti)
    (d.create (lockPath fmt claim.bundlePath) (.text 0) hl) = d₁ at htwo hthree
  have hread : ∀ k, d₁.read k =
      if k = lockPath fmt claim.bundlePath then some (.jti claim.jti) else d.read k := by
    intro k
    rw [← hd₁, read_create_write]
  have hs₁ : d₁.ino (.sidecar claim.jti) = none := by
    rw [← Folder.read_eq_none, hread, if_neg (by simp [lockPath]), hsr]
  have h₃ : step fmt (.issueOpen claim d.next) d₁ = (.issueWrite claim d.next d₁.next,
      d₁.create (.sidecar claim.jti) (.text 0) hs₁) := by
    simp only [step, Folder.openExcl_of_none hs₁]
  rw [steps_of_step h₃] at hthree
  have hnone : ∀ (b : ClaimBody) (d' : ClaimDir), (∀ k, d'.read k =
      if k = lockPath fmt claim.bundlePath then some b else d.read k) →
      Stranded fmt d claim d' := by
    intro b d' hr
    refine ⟨b, none, rfl, fun k => ?_⟩
    rw [hr]
    by_cases hk : k = .sidecar claim.jti
    · rw [if_pos hk, if_neg (by simp [hk, lockPath]), hk, hsr]
    · rw [if_neg hk]
  obtain rfl | rfl | rfl : n = 1 ∨ n = 2 ∨ n = 3 := by omega
  · unfold crash
    rw [hone]
    cases part with
    | none => exact hnone (.text 0) _ fun k => by rw [Folder.read_create]
    | some length => exact hnone (.text length) _ fun k => read_create_write hl _ k
  · unfold crash
    rw [htwo]
    cases part with
    | none => exact hnone _ _ hread
    | some length => exact hnone _ _ hread
  · unfold crash
    rw [hthree]
    cases part with
    | none =>
      refine ⟨.jti claim.jti, some (.text 0), rfl, fun k => ?_⟩
      show (d₁.create (.sidecar claim.jti) (.text 0) hs₁).read k = _
      rw [Folder.read_create, hread]
    | some length =>
      refine ⟨.jti claim.jti, some (.text length), rfl, fun k => ?_⟩
      show
        (write fmt d₁.next (.text length) (d₁.create (.sidecar claim.jti) (.text 0) hs₁)).read k = _
      rw [read_create_write, hread]

/-- From the fourth call on, `issue` has done all it does. -/
theorem crash_issue_done {claim : ClaimRecord}
    (hl : d.ino (lockPath fmt claim.bundlePath) = none) (hs : d.ino (.sidecar claim.jti) = none)
    {n : Nat} (hn : 4 ≤ n) (part : Option Nat) : ∀ k,
    (crash fmt (.issueOpenLock claim) n part d).read k =
      if k = .sidecar claim.jti then some (.record claim)
      else if k = lockPath fmt claim.bundlePath then some (.jti claim.jti) else d.read k := by
  obtain ⟨m, rfl⟩ : ∃ m, n = m + 4 := ⟨n - 4, by omega⟩
  obtain ⟨d', he, hread⟩ := steps_issue_free hl hs m
  rw [crash_finished he rfl part]
  exact hread

/-- `mark_fetched` leaves the locks, and a record of the same claim under every `jti`. -/
theorem crash_mark {jti : Id} {name : String} {claim : ClaimRecord}
    (hg : d.get jti = some (some claim)) (hj : claim.jti = jti)
    (ht : d.ino (.sidecarTmp jti) = none) (n : Nat) (part : Option Nat) :
    (∀ path, (crash fmt (.markRead jti name) n part d).read (lockPath fmt path) =
      d.read (lockPath fmt path)) ∧
    ∀ k, (crash fmt (.markRead jti name) n part d).get k = d.get k ∨
      k = jti ∧ (crash fmt (.markRead jti name) n part d).get k =
        some (some (claim.fetch name)) := by
  subst hj
  have hsame : ∀ d' : ClaimDir, (∀ k, k ≠ .sidecarTmp claim.jti → d'.read k = d.read k) →
      (∀ path, d'.read (lockPath fmt path) = d.read (lockPath fmt path)) ∧
        ∀ k, d'.get k = d.get k ∨ k = claim.jti ∧ d'.get k = some (some (claim.fetch name)) := by
    intro d' hd
    refine ⟨fun path => hd _ (by simp [lockPath]), fun k => .inl ?_⟩
    rw [ClaimDir.get, hd _ (by simp)]
    rfl
  by_cases hn : name ∈ claim.filesFetched
  · have h₁ : step fmt (.markRead claim.jti name) d = (.marked claim.jti claim, d) := by
      simp only [step, hg, if_pos hn]
    cases n with
    | zero => cases part <;> exact hsame d fun _ _ => rfl
    | succ n =>
      have hs := (steps_of_step (n := n) h₁).trans (steps_finished fmt rfl n d)
      rw [crash_finished hs rfl part]
      exact hsame d fun _ _ => rfl
  · have h₁ :
      step fmt (.markRead claim.jti name) d = (.markOpenTmp claim.jti (claim.fetch name), d) := by
      simp only [step, hg, if_neg hn, ClaimRecord.fetch]
    obtain rfl | rfl | rfl | rfl | ⟨m, rfl⟩ :
        n = 0 ∨ n = 1 ∨ n = 2 ∨ n = 3 ∨ ∃ m, n = m + 4 := by
      rcases Nat.lt_or_ge n 4 with hlt | hge
      · omega
      · exact .inr (.inr (.inr (.inr ⟨n - 4, by omega⟩)))
    · cases part <;> exact hsame d fun _ _ => rfl
    · unfold crash
      rw [steps_of_step (n := 0) h₁]
      cases part <;> exact hsame d fun _ _ => rfl
    · unfold crash
      rw [steps_draft hg hn ht 0]
      cases part with
      | none => exact hsame _ fun k hk => (Folder.read_create _ _ ht k).trans (if_neg hk)
      | some length => exact hsame _ fun k hk => (read_create_write ht _ k).trans (if_neg hk)
    · unfold crash
      rw [steps_draft hg hn ht 1, steps_of_step (n := 0) (step_markWriteTmp ..)]
      cases part <;> exact hsame _ fun k hk => (read_create_write ht _ k).trans (if_neg hk)
    · obtain ⟨d', he, hread⟩ := @steps_mark_new fmt _ _ _ _ hg hn ht m
      rw [crash_finished he rfl part]
      refine ⟨fun path => ?_, fun k => ?_⟩
      · rw [hread, if_neg (by simp [lockPath])]
      · by_cases hk : k = claim.jti
        · refine .inr ⟨hk, ?_⟩
          rw [ClaimDir.get, hread, if_pos (by rw [hk])]
          rfl
        · refine .inl ?_
          rw [ClaimDir.get, hread, if_neg (by simpa using hk)]
          rfl

/-- `delete` takes its lock away before its sidecar. -/
theorem crash_delete {jti : Id} {claim : ClaimRecord} (hg : d.get jti = some (some claim))
    (n : Nat) (part : Option Nat) :
    crash fmt (.deleteRead jti) n part d = d ∨
      (crash fmt (.deleteRead jti) n part d).ino (lockPath fmt claim.bundlePath) = none ∧
        ∀ k c, (crash fmt (.deleteRead jti) n part d).get k = some (some c) →
          d.get k = some (some c) := by
  have h₁ : step fmt (.deleteRead jti) d = (.deleteUnlinkLock jti claim.bundlePath, d) := by
    simp only [step, hg]
  obtain rfl | rfl | rfl | ⟨m, rfl⟩ : n = 0 ∨ n = 1 ∨ n = 2 ∨ ∃ m, n = m + 3 := by
    rcases Nat.lt_or_ge n 3 with hlt | hge
    · omega
    · exact .inr (.inr (.inr ⟨n - 3, by omega⟩))
  · cases part <;> exact .inl rfl
  · unfold crash
    rw [steps_of_step (n := 0) h₁]
    cases part <;> exact .inl rfl
  · unfold crash
    rw [steps_of_step (n := 1) h₁, steps_of_step (n := 0) (step_deleteUnlinkLock ..)]
    have hd : (d.unlink (lockPath fmt claim.bundlePath)).ino (lockPath fmt claim.bundlePath) =
        none ∧ ∀ k c, ClaimDir.get (d.unlink (lockPath fmt claim.bundlePath)) k = some (some c) →
          d.get k = some (some c) := by
      refine ⟨by rw [Folder.ino_unlink, if_pos rfl], fun k c hk => ?_⟩
      rwa [get_unlink_lock] at hk
    cases part <;> exact .inr hd
  · have hs : steps fmt (m + 3) (.deleteRead jti) d = (.deleted jti,
        (d.unlink (lockPath fmt claim.bundlePath)).unlink (.sidecar jti)) := by
      rw [steps_of_step h₁, steps_of_step (step_deleteUnlinkLock ..),
        steps_of_step (step_deleteUnlink ..), steps_finished fmt rfl]
    rw [crash_finished hs rfl part]
    refine .inr ⟨?_, fun k c hk => ?_⟩
    · rw [Folder.ino_unlink, if_neg (by simp [lockPath]), Folder.ino_unlink, if_pos rfl]
    · rw [get_unlink_sidecar, get_unlink_lock] at hk
      split at hk
      · cases hk
      · exact hk

end ClaimPhase

/-! ## Recovery -/

/-- The path an operation is about; a `jti` without a claim has none. -/
def Affects (fmt : ClaimFormat) (calls : List ClaimCall) (op : ClaimCall) (path : String) : Prop :=
  match op with
  | .issue claim => claim.bundlePath = path
  | .markFetched jti _ | .delete jti =>
    ∃ claim, Live fmt calls claim ∧ claim.jti = jti ∧ claim.bundlePath = path
  | .get _ | .iterAll => False

/-- An `issue` on a path that has no claim stops after it has created its lock and before the
text of its sidecar is complete. -/
def Strands (fmt : ClaimFormat) (calls : List ClaimCall) (op : ClaimCall) (n : Nat) : Prop :=
  ∃ claim, op = .issue claim ∧ (∀ c, Live fmt calls c → c.bundlePath ≠ claim.bundlePath) ∧
    1 ≤ n ∧ n ≤ 3

section Recovery

variable {fmt : ClaimFormat} {cfg : Config} {U : Set String} {cs : ClaimStore} {d : ClaimDir}

/-- A directory that models a store is settled. -/
theorem Models.settled (h : Models fmt U d cs) {path : String} (hp : path ∈ U) :
    Settled fmt d path := by
  by_cases hn : d.ino (lockPath fmt path) = none
  · exact .inl hn
  · obtain ⟨c, hc, rfl⟩ := (h.lock_ne_none hp).mp hn
    exact .inr ⟨c.jti, c, h.get_eq_some hc rfl, rfl⟩

private theorem Models.mem_of_get (h : Models fmt U d cs) {jti : Id} {c : ClaimRecord}
    (hg : d.get jti = some (some c)) : c ∈ cs.sidecars ∧ c.jti = jti := by
  have he : d.entryClaim (.sidecar jti) = some c := by simp [entryClaim, hg]
  obtain ⟨hk, hc⟩ := h.entryClaim_eq_some.mp he
  exact ⟨hc, (ClaimFile.sidecar.inj hk).symm⟩

/-- A sidecar keeps the time its claim was issued at. -/
theorem createdAt_le_of_mem (hinj : Set.InjOn fmt.digest U) {calls : List ClaimCall}
    (hU : Uses U calls) {crashed : Nat}
    (hborn : ∀ claim, .issue claim ∈ calls → claim.createdAt ≤ crashed) {c : ClaimRecord}
    (hc : c ∈ (ClaimStore.after calls).sidecars) : c.createdAt ≤ crashed := by
  obtain ⟨before, issued, later, rfl, -, -, rfl⟩ := (live_iff_mem hinj hU).mpr hc
  exact hborn issued (by simp)

/-- Records that are those of a run, or of one more claim, are old once the time to live has
passed since the crash. -/
theorem aged_of {g : Garble cfg.backend} {s : Server} {crashed : Nat}
    (hlater : crashed + secondsToMicros cfg.limits.downloadClaimTtl ≤ s.wall)
    (h : ∀ jti c, d.get jti = some (some c) → c.jti = jti ∧ c.createdAt ≤ crashed ∧
      cfg.backend.garbled g s.disk.tree c.bundlePath = false) :
    Aged cfg g s d := by
  intro jti c hg
  obtain ⟨hj, hc, hread⟩ := h jti c hg
  exact ⟨hj, (Nat.add_le_add_right hc _).trans hlater, hread⟩

end Recovery

/-- One pass of `sweep_claims`, a time to live after the crash, frees the path an operation was
on, unless an `issue` was cut short between its lock and the end of its sidecar. The manifests at
the claimed paths can be read or are missing. -/
theorem claims_recover_iff (fmt : ClaimFormat) (cfg : Config) (env : Environment)
    (g : Garble cfg.backend) (U : Set String)
    (hinj : Set.InjOn fmt.digest U) (calls : List ClaimCall)
    (hU : ∀ claim, .issue claim ∈ calls → claim.bundlePath ∈ U) (op : ClaimCall)
    (hop : ∀ claim, op = .issue claim → claim.bundlePath ∈ U ∧ Unissued calls claim.jti)
    (n : Nat) (part : Option Nat) (crashed : Nat)
    (hborn : ∀ claim, .issue claim ∈ op :: calls → claim.createdAt ≤ crashed) (s : Server)
    (hlater : crashed + secondsToMicros cfg.limits.downloadClaimTtl ≤ s.wall)
    (hlegible : ∀ claim, Live fmt calls claim ∨ op = .issue claim →
      cfg.backend.garbled g s.disk.tree claim.bundlePath = false) (path : String)
    (haff : Affects fmt calls op path) :
    Recovered fmt cfg env g
      (sweptDir fmt cfg env g (s, op.crash fmt n part (after fmt calls))) path ↔
      ¬Strands fmt calls op n := by
  have hm := models_after hinj hU
  have hp := ClaimStore.paired_after calls
  have hlive : ∀ c, Live fmt calls c ↔ c ∈ (ClaimStore.after calls).sidecars :=
    fun _ => live_iff_mem hinj hU
  have hborn' : ∀ jti c, (after fmt calls).get jti = some (some c) →
      c.jti = jti ∧ c.createdAt ≤ crashed ∧
        cfg.backend.garbled g s.disk.tree c.bundlePath = false := by
    intro jti c hg
    obtain ⟨hc, hj⟩ := hm.mem_of_get hg
    exact ⟨hj, createdAt_le_of_mem hinj hU (fun claim h => hborn claim (by simp [h])) hc,
      hlegible c (.inl ((hlive c).mpr hc))⟩
  have haged : Aged cfg g s (after fmt calls) := aged_of hlater hborn'
  cases op with
  | issue claim =>
    obtain ⟨hpU, hnew⟩ := hop claim rfl
    obtain rfl : claim.bundlePath = path := haff
    simp only [ClaimCall.crash]
    by_cases hl : (after fmt calls).ino (lockPath fmt claim.bundlePath) = none
    · have hfree : ∀ c, Live fmt calls c → c.bundlePath ≠ claim.bundlePath := by
        intro c hc he
        exact (hm.lock_ne_none hpU).mpr ⟨c, (hlive c).mp hc, he⟩ hl
      have hs : (after fmt calls).ino (.sidecar claim.jti) = none := by
        by_contra hn
        obtain ⟨c, hc, hj⟩ := hm.sidecar_ne_none.mp hn
        exact jti_ne_of_unissued hnew c hc hj
      obtain rfl | ⟨hn, hn'⟩ | hn : n = 0 ∨ (1 ≤ n ∧ n ≤ 3) ∨ 4 ≤ n := by omega
      · have he : (ClaimPhase.issueOpenLock claim).crash fmt 0 part (after fmt calls) =
            after fmt calls := by
          cases part <;> rfl
        rw [he, recovered_iff_settled haged]
        refine iff_of_true (hm.settled hpU) ?_
        rintro ⟨-, -, -, h, -⟩
        omega
      · have hstr := ClaimPhase.crash_issue_stranded hl hs hn hn' part
        rw [recovered_iff_settled (aged_of hlater fun jti c hg => hborn' jti c (hstr.get hg))]
        refine iff_of_false ?_ (not_not.mpr ⟨claim, rfl, hfree, hn, hn'⟩)
        rintro (hnone | ⟨jti, c, hg, he⟩)
        · exact hstr.lock hnone
        · obtain ⟨hc, -⟩ := hm.mem_of_get (hstr.get hg)
          exact hfree c ((hlive c).mpr hc) (Models.lockPath_inj hinj (hm.used c hc) hpU he)
      · have hread := ClaimPhase.crash_issue_done hl hs hn part
        have hmine : ((ClaimPhase.issueOpenLock claim).crash fmt n part (after fmt calls)).get
            claim.jti = some (some claim) := by
          rw [ClaimDir.get, hread, if_pos rfl]
          rfl
        have haged' : Aged cfg g s
            ((ClaimPhase.issueOpenLock claim).crash fmt n part (after fmt calls)) := by
          refine aged_of hlater fun jti c hg => ?_
          by_cases hj : jti = claim.jti
          · subst hj
            obtain rfl : claim = c := by simpa using hmine.symm.trans hg
            exact ⟨rfl, hborn claim (by simp), hlegible claim (.inr rfl)⟩
          · rw [ClaimDir.get, hread, if_neg (by simpa using hj), if_neg (by simp [lockPath])] at hg
            exact hborn' jti c hg
        rw [recovered_iff_settled haged']
        refine iff_of_true (.inr ⟨claim.jti, claim, hmine, rfl⟩) ?_
        rintro ⟨-, -, -, -, h⟩
        omega
    · rw [ClaimPhase.crash_issue_locked hl, recovered_iff_settled haged]
      refine iff_of_true (hm.settled hpU) ?_
      rintro ⟨claim', he, hfree, -⟩
      obtain rfl := ClaimCall.issue.inj he
      obtain ⟨c, hc, hpath⟩ := (hm.lock_ne_none hpU).mp hl
      exact hfree c ((hlive c).mpr hc) hpath
  | markFetched jti name =>
    obtain ⟨claim, hcl, hj, rfl⟩ := haff
    have hc := (hlive claim).mp hcl
    obtain ⟨hlock, hget⟩ := @ClaimPhase.crash_mark fmt _ _ name _
      (hm.get_eq_some hc hj) hj (Folder.read_eq_none.mp (hm.tmp jti)) n part
    simp only [ClaimCall.crash]
    have haged' : Aged cfg g s
        ((ClaimPhase.markRead jti name).crash fmt n part (after fmt calls)) := by
      refine aged_of hlater fun k c hg => ?_
      rcases hget k with he | ⟨rfl, he⟩
      · exact hborn' k c (he ▸ hg)
      · obtain rfl : claim.fetch name = c := by simpa using he.symm.trans hg
        simpa [hj] using (hborn' k claim (hm.get_eq_some hc hj)).2
    rw [recovered_iff_settled haged']
    refine iff_of_true (.inr ?_) (by simp [Strands])
    rcases hget jti with he | ⟨-, he⟩
    · exact ⟨jti, claim, he.trans (hm.get_eq_some hc hj), rfl⟩
    · exact ⟨jti, _, he, by rw [ClaimRecord.fetch_bundlePath]⟩
  | delete jti =>
    obtain ⟨claim, hcl, hj, rfl⟩ := haff
    have hc := (hlive claim).mp hcl
    simp only [ClaimCall.crash]
    rcases @ClaimPhase.crash_delete fmt _ _ _ (hm.get_eq_some hc hj) n part with he | ⟨hn, hget⟩
    · rw [he, recovered_iff_settled haged]
      exact iff_of_true (hm.settled (hm.used claim hc)) (by simp [Strands])
    · rw [recovered_iff_settled (aged_of hlater fun k c hg => hborn' k c (hget k c hg))]
      exact iff_of_true (.inl hn) (by simp [Strands])
  | get jti => cases haff
  | iterAll => cases haff

/-- The small server, a quarter of an hour later. -/
def srvLater : Server := { srvSystem.server with wall := 905000000 }

/-- A mark that is cut short by a crash. -/
theorem claims_recover_iff_sample :
    Recovered .sample srvConfig .core srvGarble
      (sweptDir .sample srvConfig .core srvGarble (srvLater,
      (ClaimCall.markFetched 1 "a.txt").crash .sample 2 (some 100)
        (after .sample [.issue (sampleClaim 1)]))) "inbox/host:proj/note" := by
  have hlive : Live .sample [.issue (sampleClaim 1)] (sampleClaim 1) :=
    ⟨[], sampleClaim 1, [], rfl, by decide +kernel, by simp, rfl⟩
  refine (claims_recover_iff .sample srvConfig .core srvGarble {"inbox/host:proj/note"}
    (Set.injOn_singleton ..) [.issue (sampleClaim 1)] ?_ (.markFetched 1 "a.txt") ?_ 2 (some 100) 0
    ?_ srvLater (by decide) (fun claim _ => garbled_srvTree srvGarble claim.bundlePath) _
      ⟨sampleClaim 1, hlive, rfl, rfl⟩).mpr ?_
  · intro claim hc
    obtain rfl : claim = sampleClaim 1 := by simpa using hc
    rfl
  · intro claim he
    cases he
  · intro claim hc
    obtain rfl : claim = sampleClaim 1 := by simpa using hc
    exact le_rfl
  · rintro ⟨claim, he, -⟩
    cases he

/-- An `issue` that stops part of the way through its sidecar locks its path for good. -/
theorem issue_cut_short_strands :
    ¬Recovered .sample srvConfig .core srvGarble
      (sweptDir .sample srvConfig .core srvGarble (srvLater,
      (ClaimCall.issue (sampleClaim 1)).crash .sample 3 (some 100) (after .sample [])))
        "inbox/host:proj/note" := by
  intro h
  exact absurd h.unlocked (by decide +kernel)

end Cassetta
