import Cassetta.Claims.Store
import Cassetta.Core.Folder
import Cassetta.Core.Runs

/-!
# The claims directory, call by call

`FilesystemClaimStorage` at the grain of its filesystem calls. `ClaimPhase` is the point one
operation has got to, named after the call it makes next, and `ClaimPhase.step` makes that
call. An operation run on its own is taken to its end by `finish`; one process stopping in the
middle leaves the directory as it is at that phase.

A write goes into an open inode from its start, so a shorter text leaves the end of a longer
one behind. Text that is not the whole of one record does not parse, and only its length is
kept.
-/

namespace Cassetta

/-- A file of the claims directory. -/
inductive ClaimFile where
  /-- `{jti}.json` -/
  | sidecar (jti : Id)
  /-- `{jti}.json.tmp` -/
  | sidecarTmp (jti : Id)
  /-- `.{digest}.lock` -/
  | lock (digest : String)
  deriving DecidableEq, Repr

inductive ClaimBody where
  | text (length : Nat)
  | jti (jti : Id)
  | record (claim : ClaimRecord)
  deriving DecidableEq, Repr

/-- `sha256(bundle_path).hexdigest()[:16]`, and the length of `json.dumps(asdict(claim))`. -/
structure ClaimFormat where
  digest : String → String
  length : ClaimRecord → Nat

/-- The digests of two paths, and the length of records whose texts need no escapes. -/
def ClaimFormat.sample : ClaimFormat where
  digest path :=
    if path = "inbox/host:proj/note" then "74502e0b42625403"
    else if path = "store/report" then "7db95b97afbabe3b"
    else path
  length claim := 228 + claim.bundlePath.length + claim.recipient.length +
    (claim.filesFetched.map fun n => n.length + 4).sum - if claim.filesFetched = [] then 0 else 2

/-- A claim on one bundle. -/
def sampleClaim (jti : Id) : ClaimRecord := ⟨jti, "inbox/host:proj/note", 5, "host:proj", 0, []⟩

abbrev ClaimDir := Folder ClaimFile ClaimBody

namespace ClaimDir

variable (fmt : ClaimFormat)

def empty : ClaimDir := Folder.empty (.sidecar 0) (.text 0)

def lockPath (path : String) : ClaimFile := .lock (fmt.digest path)

/-- The length of a body; a `jti` is a UUID. -/
def bodyLength : ClaimBody → Nat
  | .text n => n
  | .jti _ => 36
  | .record claim => fmt.length claim

/-- What a write leaves of a body. -/
def overwrite (old new : ClaimBody) : ClaimBody :=
  if bodyLength fmt new < bodyLength fmt old then .text (bodyLength fmt old) else new

/-- `f.write` and `f.flush` on a file just opened. -/
def write (fd : Nat) (new : ClaimBody) (d : ClaimDir) : ClaimDir :=
  d.put fd (overwrite fmt (d.content fd) new)

/-- `_parse`; `none` is a `ValueError`. -/
def parse : ClaimBody → Option ClaimRecord
  | .record claim => some claim
  | _ => none

/-- `get`: `none` when there is no sidecar, `some none` when it does not parse. -/
def get (d : ClaimDir) (jti : Id) : Option (Option ClaimRecord) :=
  (d.read (.sidecar jti)).map parse

/-- A sidecar that is read is there. -/
theorem ino_ne_none_of_get {d : ClaimDir} {jti : Id} {o : Option ClaimRecord}
    (h : d.get jti = some o) : d.ino (.sidecar jti) ≠ none := by
  intro hn
  rw [get, Folder.read_eq_none.mpr hn] at h
  cases h

/-- What `iter_all` makes of one entry; a sidecar that does not parse is skipped. -/
def entryClaim (d : ClaimDir) : ClaimFile → Option ClaimRecord
  | .sidecar jti => (d.get jti).join
  | _ => none

/-- `iter_all`. -/
def iterAll (d : ClaimDir) : List ClaimRecord := d.names.filterMap d.entryClaim

end ClaimDir

/-! ## Operations in flight -/

/-- How far an operation has got; the last of each group are its outcomes. -/
inductive ClaimPhase where
  | issueOpenLock (claim : ClaimRecord)
  | issueWriteLock (claim : ClaimRecord) (lockFd : Nat)
  | issueOpen (claim : ClaimRecord) (lockFd : Nat)
  | issueUnlinkLock (claim : ClaimRecord)
  | issueWrite (claim : ClaimRecord) (lockFd fd : Nat)
  | issued (claim : ClaimRecord) (lockFd : Nat)
  | bundleClaimed (claim : ClaimRecord)
  | markRead (jti : Id) (name : String)
  | markOpenTmp (jti : Id) (updated : ClaimRecord)
  | markWriteTmp (jti : Id) (updated : ClaimRecord) (fd : Nat)
  | markReplace (jti : Id) (updated : ClaimRecord)
  | markUnlinkTmp (jti : Id) (updated : ClaimRecord)
  | marked (jti : Id) (claim : ClaimRecord)
  | markNotFound (jti : Id)
  | markMalformed (jti : Id)
  | deleteRead (jti : Id)
  | deleteUnlinkLock (jti : Id) (path : String)
  | deleteUnlink (jti : Id)
  | deleted (jti : Id)
  deriving DecidableEq, Repr

namespace ClaimPhase

variable (fmt : ClaimFormat)

open ClaimDir

/-- Make the next filesystem call. -/
def step : ClaimPhase → ClaimDir → ClaimPhase × ClaimDir
  | .issueOpenLock claim, d =>
    match d.openExcl (lockPath fmt claim.bundlePath) (.text 0) with
    | (none, d') => (.bundleClaimed claim, d')
    | (some fd, d') => (.issueWriteLock claim fd, d')
  | .issueWriteLock claim lockFd, d =>
    (.issueOpen claim lockFd, write fmt lockFd (.jti claim.jti) d)
  | .issueOpen claim lockFd, d =>
    match d.openExcl (.sidecar claim.jti) (.text 0) with
    | (none, d') => (.issueUnlinkLock claim, d')
    | (some fd, d') => (.issueWrite claim lockFd fd, d')
  | .issueUnlinkLock claim, d =>
    (.bundleClaimed claim, d.unlink (lockPath fmt claim.bundlePath))
  | .issueWrite claim lockFd fd, d => (.issued claim lockFd, write fmt fd (.record claim) d)
  | .markRead jti name, d =>
    match d.get jti with
    | none => (.markNotFound jti, d)
    | some none => (.markMalformed jti, d)
    | some (some claim) =>
      if name ∈ claim.filesFetched then (.marked jti claim, d)
      else (.markOpenTmp jti { claim with filesFetched := claim.filesFetched ++ [name] }, d)
  | .markOpenTmp jti updated, d =>
    let (fd, d') := d.openTrunc (.sidecarTmp updated.jti) (.text 0)
    (.markWriteTmp jti updated fd, d')
  | .markWriteTmp jti updated fd, d => (.markReplace jti updated, write fmt fd (.record updated) d)
  | .markReplace jti updated, d =>
    match d.replace (.sidecarTmp updated.jti) (.sidecar updated.jti) with
    | none => (.markUnlinkTmp jti updated, d)
    | some d' => (.marked jti updated, d')
  | .markUnlinkTmp jti updated, d => (.markNotFound jti, d.unlink (.sidecarTmp updated.jti))
  | .deleteRead jti, d =>
    match d.get jti with
    | some (some claim) => (.deleteUnlinkLock jti claim.bundlePath, d)
    | _ => (.deleteUnlink jti, d)
  | .deleteUnlinkLock jti path, d => (.deleteUnlink jti, d.unlink (lockPath fmt path))
  | .deleteUnlink jti, d => (.deleted jti, d.unlink (.sidecar jti))
  | ph, d => (ph, d)

section Steps

variable {fmt}

/-- The lock of a claim is written. -/
theorem step_issueWriteLock (claim : ClaimRecord) (lockFd : Nat) (d : ClaimDir) :
    step fmt (.issueWriteLock claim lockFd) d =
      (.issueOpen claim lockFd, write fmt lockFd (.jti claim.jti) d) := rfl

/-- The lock of a claim that cannot be issued is removed. -/
theorem step_issueUnlinkLock (claim : ClaimRecord) (d : ClaimDir) :
    step fmt (.issueUnlinkLock claim) d =
      (.bundleClaimed claim, d.unlink (lockPath fmt claim.bundlePath)) := rfl

/-- The sidecar of a claim is written. -/
theorem step_issueWrite (claim : ClaimRecord) (lockFd fd : Nat) (d : ClaimDir) :
    step fmt (.issueWrite claim lockFd fd) d =
      (.issued claim lockFd, write fmt fd (.record claim) d) := rfl

/-- The temporary file of a mark is written. -/
theorem step_markWriteTmp (jti : Id) (updated : ClaimRecord) (fd : Nat) (d : ClaimDir) :
    step fmt (.markWriteTmp jti updated fd) d =
      (.markReplace jti updated, write fmt fd (.record updated) d) := rfl

/-- A delete removes the lock. -/
theorem step_deleteUnlinkLock (jti : Id) (path : String) (d : ClaimDir) :
    step fmt (.deleteUnlinkLock jti path) d = (.deleteUnlink jti, d.unlink (lockPath fmt path)) :=
  rfl

/-- A delete removes the sidecar. -/
theorem step_deleteUnlink (jti : Id) (d : ClaimDir) :
    step fmt (.deleteUnlink jti) d = (.deleted jti, d.unlink (.sidecar jti)) := rfl

end Steps

/-- Make up to so many calls. -/
def steps : Nat → ClaimPhase → ClaimDir → ClaimPhase × ClaimDir
  | 0, ph, d => (ph, d)
  | n + 1, ph, d =>
    let (ph', d') := ph.step fmt d
    steps n ph' d'

/-- Run an operation to its end; none makes more than five calls. -/
def finish (ph : ClaimPhase) (d : ClaimDir) : ClaimPhase × ClaimDir := steps fmt 5 ph d

/-- A run begins with a step. -/
theorem steps_succ (n : Nat) (ph : ClaimPhase) (d : ClaimDir) :
    steps fmt (n + 1) ph d = steps fmt n (ph.step fmt d).1 (ph.step fmt d).2 := rfl

variable {fmt} in
/-- A run that begins with a given step. -/
theorem steps_of_step {n : Nat} {ph ph' : ClaimPhase} {d d' : ClaimDir}
    (h : ph.step fmt d = (ph', d')) : steps fmt (n + 1) ph d = steps fmt n ph' d' := by
  simp only [steps, h]

/-- The claim an operation is on. -/
def jti : ClaimPhase → Id
  | .issueOpenLock claim | .issueWriteLock claim _ | .issueOpen claim _ | .issueUnlinkLock claim
  | .issueWrite claim _ _ | .issued claim _ | .bundleClaimed claim => claim.jti
  | .markRead jti _ | .markOpenTmp jti _ | .markWriteTmp jti _ _ | .markReplace jti _
  | .markUnlinkTmp jti _ | .marked jti _ | .markNotFound jti | .markMalformed jti => jti
  | .deleteRead jti | .deleteUnlinkLock jti _ | .deleteUnlink jti | .deleted jti => jti

/-- Whether an operation has returned. -/
def finished : ClaimPhase → Bool
  | .issued .. | .bundleClaimed _ | .marked .. | .markNotFound _ | .markMalformed _
  | .deleted _ => true
  | _ => false

/-- The three operations. -/
inductive Kind where
  | issue
  | markFetched
  | delete
  deriving DecidableEq, Repr

def kind : ClaimPhase → Kind
  | .issueOpenLock _ | .issueWriteLock .. | .issueOpen .. | .issueUnlinkLock _ | .issueWrite ..
  | .issued .. | .bundleClaimed _ => .issue
  | .markRead .. | .markOpenTmp .. | .markWriteTmp .. | .markReplace .. | .markUnlinkTmp ..
  | .marked .. | .markNotFound _ | .markMalformed _ => .markFetched
  | .deleteRead _ | .deleteUnlinkLock .. | .deleteUnlink _ | .deleted _ => .delete

@[simp] private theorem step_jti (ph : ClaimPhase) (d : ClaimDir) :
    (ph.step fmt d).1.jti = ph.jti := by
  unfold step
  split <;> (try split) <;> (try split) <;> rfl

@[simp] private theorem step_kind (ph : ClaimPhase) (d : ClaimDir) :
    (ph.step fmt d).1.kind = ph.kind := by
  unfold step
  split <;> (try split) <;> (try split) <;> rfl

/-- An operation that has returned stays as it is. -/
theorem step_finished {ph : ClaimPhase} (h : ph.finished = true) (d : ClaimDir) :
    ph.step fmt d = (ph, d) := by
  cases ph <;> first | rfl | cases h

/-- A call that is finished stays as it is. -/
theorem steps_finished {ph : ClaimPhase} (h : ph.finished = true) (n : Nat) (d : ClaimDir) :
    steps fmt n ph d = (ph, d) := by
  induction n with
  | zero => rfl
  | succ n ih => rw [steps_of_step (step_finished fmt h d), ih]

end ClaimPhase

end Cassetta
