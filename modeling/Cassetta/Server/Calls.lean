import Cassetta.Claims.Store
import Cassetta.Core.Prog

/-!
# What a handler can call

A handler is a program over the calls of this module. Most handlers reach the storage
backend, the clock and the pluggable collaborators, and have no way to touch the claim store;
those are `Handler`s. The few that are given the claim store are `ClaimHandler`s.
-/

namespace Cassetta

/-! ## Callers and resources -/

/-- `Identity`; of `extra` only the two flags are read. -/
structure Identity where
  label : String
  dev : Bool := false
  operator : Bool := false
  deriving DecidableEq, Repr

/-- `Identity(label="dev", extra={"dev": True})`. -/
def devIdentity : Identity := { label := "dev", dev := true }

/-- `files:<path>` or `inbox:<agent>`. -/
inductive Resource where
  | files (path : String)
  | inbox (agent : String)
  deriving DecidableEq, Repr

inductive Action where
  | read
  | write
  | delete
  | list
  | peek
  | pick
  deriving DecidableEq, Repr

/-- `_KEY_LABEL_CHARS`. -/
def keyLabelChars (c : Char) : Bool :=
  ('a' ≤ c ∧ c ≤ 'z') || ('A' ≤ c ∧ c ≤ 'Z') || ('0' ≤ c ∧ c ≤ '9') || c = '_' || c = '-'

/-- A host or project name that `_validate_key_field` accepts. -/
def KeyField : Type := { s : String // matchesClass keyLabelChars s.toList = true }

/-- What `list_keys` says of a key. -/
structure KeyInfo where
  host : KeyField
  project : KeyField
  isActive : Bool

/-- The label of a key. -/
def KeyInfo.label (k : KeyInfo) : String := k.host.val ++ ":" ++ k.project.val

/-- `ResolvedRecipient`. -/
structure ResolvedRecipient where
  inboxTargets : List String
  displayName : Option String := none
  deriving DecidableEq, Repr

/-- One increment of a counter. -/
structure Counter where
  name : String
  value : Int := 1
  tags : List (String × String) := []
  deriving DecidableEq, Repr

/-! ## Exceptions -/

/-- What a handler raises. -/
inductive Exc where
  /-- `HTTPException` with a text. -/
  | http (status : Nat) (detail : String)
  /-- `DownloadError`. -/
  | download (status : Nat) (error reason : String) (claim : Option String)
  /-- `HTTPException` with an `error` and a `reason`. -/
  | upload (status : Nat) (error reason : String) (name : Option String)
  /-- `ValueError` with a text. -/
  | value (text : String)
  /-- `ValueError` with a text that ends in a quoted name. -/
  | valueNamed (text name : String)
  | storage (e : StorageError)
  | limits (r : LimitsRejection)
  /-- `ValueError(str(rejection))`. -/
  | valueLimits (r : LimitsRejection)
  | bundleClaimed
  | claimNotFound
  | rateLimitExceeded
  | fanoutCapExceeded (maxTargets : Nat)
  /-- `ManifestError`. -/
  | manifest (reason name : String)
  /-- `UnknownRecipientError`. -/
  | unknownRecipient (name : String)
  /-- `AccessDenied`. -/
  | accessDenied
  /-- `KeyError` or `IndexError`. -/
  | lookup
  /-- An exception of the access policy, the alias resolver or the metrics provider. -/
  | collaborator
  deriving DecidableEq, Repr

/-! ## Calls -/

/-- A call of a handler that has no claim store. -/
inductive Call where
  | now
  | newId
  | check (identity : Identity) (resource : Resource) (action : Action)
  | visibleAgents (identity : Identity) (labels : List String)
  | resolve (name : String) (senderLabel : Option String)
  | listKeys
  | checkRateLimit
  | increment (counter : Counter)
  | verifyKeys
  | openBundleWrite (path : String)
  | writeFile (handle : Nat) (name : String) (data : Bytes)
  | commit (handle : Nat) (m : BundleMeta)
  | abort (handle : Nat)
  | readBundleMeta (path : String)
  | openBundleFileRead (path name : String)
  | listBundles (pre : String) (includeOrphans : Bool)
  | deleteBundle (path : String)

/-- What a call answers. A collaborator may raise; a storage call may raise a
`StorageError`. -/
def Call.Answer : Call → Type
  | .now => Nat
  | .newId => Id
  | .check .. => Except Unit Bool
  | .visibleAgents .. => Except Unit (List String)
  | .resolve .. => Except Unit (Option ResolvedRecipient)
  | .listKeys => List KeyInfo
  | .checkRateLimit => Bool
  | .increment _ => Except Unit Unit
  | .verifyKeys => SigningKey × Option SigningKey
  | .openBundleWrite _ => Except StorageError Nat
  | .writeFile .. => Except StorageError Nat
  | .commit .. => Except StorageError Unit
  | .abort _ => Unit
  | .readBundleMeta _ => Except StorageError BundleMeta
  | .openBundleFileRead .. => Except StorageError Bytes
  | .listBundles .. => Except StorageError (List Backend.BundleRef)
  | .deleteBundle _ => Except StorageError Unit

/-- A call on the claim store. -/
inductive ClaimCall where
  | issue (claim : ClaimRecord)
  | get (jti : Id)
  | markFetched (jti : Id) (name : String)
  | delete (jti : Id)
  | iterAll

def ClaimCall.Answer : ClaimCall → Type
  | .issue _ => Except ClaimError Unit
  | .get _ => Option ClaimRecord
  | .markFetched .. => Except ClaimError ClaimRecord
  | .delete _ => Unit
  | .iterAll => List ClaimRecord

/-- A call of a handler that has the claim store. -/
inductive AnyCall where
  | plain (c : Call)
  | claim (c : ClaimCall)

def AnyCall.Answer : AnyCall → Type
  | .plain c => c.Answer
  | .claim c => c.Answer

abbrev Handler (α : Type) : Type := ExceptT Exc (Prog Call Call.Answer) α

abbrev ClaimHandler (α : Type) : Type := ExceptT Exc (Prog AnyCall AnyCall.Answer) α

/-- A handler that has the claim store may do what one without it does. -/
def plain {α : Type} (x : Handler α) : ClaimHandler α := Prog.embedE AnyCall.plain (fun _ a => a) x

/-! ## One call each -/

def ask (c : Call) : Handler c.Answer := Prog.performE c

def askClaims (c : ClaimCall) : ClaimHandler c.Answer := Prog.performE (AnyCall.claim c)

def now : Handler Nat := ask .now

def newId : Handler Id := ask .newId

def verifyKeys : Handler (SigningKey × Option SigningKey) := ask .verifyKeys

def listKeys : Handler (List KeyInfo) := ask .listKeys

def checkRateLimit : Handler Bool := ask .checkRateLimit

/-- What a storage call raises goes up. -/
def orRaise {α : Type} : Except StorageError α → Handler α
  | .ok a => pure a
  | .error e => throw (.storage e)

/-- What a collaborator raises goes up. -/
def orCollaborator {α : Type} : Except Unit α → Handler α
  | .ok a => pure a
  | .error () => throw .collaborator

/-- `policy.check`. -/
def check (identity : Identity) (resource : Resource) (action : Action) :
    Handler (Except Unit Bool) := ask (.check identity resource action)

/-- `alias_resolver.resolve`. -/
def resolveAlias (name : String) (senderLabel : Option String) :
    Handler (Except Unit (Option ResolvedRecipient)) := ask (.resolve name senderLabel)

/-- `access_policy.visible_agents`. -/
def visibleAgents (identity : Identity) (labels : List String) :
    Handler (Except Unit (List String)) := ask (.visibleAgents identity labels)

def tryIncrement (counter : Counter) : Handler (Except Unit Unit) := ask (.increment counter)

/-- `metrics.increment`, outside of `safe_emit`. -/
def increment (counter : Counter) : Handler Unit := do
  let r ← tryIncrement counter
  orCollaborator r

def readBundleMeta (path : String) : Handler (Except StorageError BundleMeta) :=
  ask (.readBundleMeta path)

def openBundleFileRead (path name : String) : Handler (Except StorageError Bytes) :=
  ask (.openBundleFileRead path name)

def tryListBundles (pre : String) (includeOrphans : Bool) :
    Handler (Except StorageError (List Backend.BundleRef)) := ask (.listBundles pre includeOrphans)

def listBundles (pre : String) (includeOrphans : Bool) : Handler (List Backend.BundleRef) := do
  let r ← tryListBundles pre includeOrphans
  orRaise r

def deleteBundle (path : String) : Handler (Except StorageError Unit) :=
  ask (.deleteBundle path)

def openBundleWrite (path : String) : Handler (Except StorageError Nat) :=
  ask (.openBundleWrite path)

def tryWriteFile (handle : Nat) (name : String) (data : Bytes) :
    Handler (Except StorageError Nat) := ask (.writeFile handle name data)

def writeFile (handle : Nat) (name : String) (data : Bytes) : Handler Nat := do
  let r ← tryWriteFile handle name data
  orRaise r

def tryCommit (handle : Nat) (m : BundleMeta) : Handler (Except StorageError Unit) :=
  ask (.commit handle m)

def commit (handle : Nat) (m : BundleMeta) : Handler Unit := do
  let r ← tryCommit handle m
  orRaise r

def abort (handle : Nat) : Handler Unit := ask (.abort handle)

def issueClaim (claim : ClaimRecord) : ClaimHandler (Except ClaimError Unit) :=
  askClaims (.issue claim)

def getClaim (jti : Id) : ClaimHandler (Option ClaimRecord) :=
  askClaims (.get jti)

def markFetched (jti : Id) (name : String) : ClaimHandler (Except ClaimError ClaimRecord) :=
  askClaims (.markFetched jti name)

def deleteClaim (jti : Id) : ClaimHandler Unit := askClaims (.delete jti)

def iterClaims : ClaimHandler (List ClaimRecord) := askClaims .iterAll

end Cassetta
