import Cassetta.Surface.Common
import Cassetta.Storage.Ops

/-!
# Background passes

One pass each of the orphan sweep, the claim sweep and the TTL cleanup. None of them waits
in the middle, so a pass runs to its end before any request.
-/

namespace Cassetta.Background

variable (cfg : Config)

/-- The deletes of one namespace; a delete that fails is skipped. -/
def deleteAll : List String → Handler Unit
  | [] => pure ()
  | path :: rest => do
    let _ ← deleteBundle path
    deleteAll rest

/-- The loop of `sweep` over the namespaces; a listing that fails is skipped. -/
def sweepNamespaces (t : Nat) : List String → Handler Unit
  | [] => pure ()
  | pre :: rest => do
    let refs ← tryCatch (listBundles pre true) fun _ => pure []
    deleteAll ((refs.filter fun r =>
      ¬r.hasMeta ∧ ¬t < r.mtime + secondsToMicros cfg.limits.passiveGcMinAge).map (·.path))
    sweepNamespaces t rest

/-- `gc.sweep`. -/
def sweep : Handler Unit := do
  let t ← now
  sweepNamespaces cfg t gcNamespaces

/-- What `sweep_claims` does with one claim: drop it once it is old, and delete the inbox
bundle first when every name of the manifest found there has been fetched. -/
def sweepClaim (t : Nat) (claim : ClaimRecord) : ClaimHandler Unit :=
  if t < claim.createdAt + secondsToMicros cfg.limits.downloadClaimTtl then pure ()
  else do
    match ← plain (readBundleMeta claim.bundlePath) with
    | .error .fileNotFound => deleteClaim claim.jti
    | .error _ => pure ()
    | .ok m =>
      if m.files ≠ [] ∧ m.files.all (fun f => f.name ∈ claim.filesFetched) ∧
          startsWith claim.bundlePath "inbox/" then do
        let _ ← plain (deleteBundle claim.bundlePath)
        deleteClaim claim.jti
      else deleteClaim claim.jti

/-- The loop of `sweep_claims`. -/
def sweepEach (t : Nat) : List ClaimRecord → ClaimHandler Unit
  | [] => pure ()
  | claim :: rest => do
    sweepClaim cfg t claim
    sweepEach t rest

/-- `sweep_claims`. -/
def sweepClaims : ClaimHandler Unit := do
  let claims ← iterClaims
  let t ← plain now
  sweepEach cfg t claims

/-- The loop of the TTL cleanup over the bundles of a namespace. -/
def cleanupEach (t : Nat) : List String → Handler Unit
  | [] => pure ()
  | path :: rest => do
    match ← readBundleMeta path with
    | .error .fileNotFound => cleanupEach t rest
    | .error e => throw (.storage e)
    | .ok m => do
      if m.createdAt + secondsToMicros cfg.defaultTtl < t then do
        let _ ← deleteBundle path
        cleanupEach t rest
      else cleanupEach t rest

/-- `_BUNDLE_NAMESPACES`. -/
def bundleNamespaces : List String := ["store/", "inbox/"]

def cleanupNamespaces (t : Nat) : List String → Handler Unit
  | [] => pure ()
  | pre :: rest => do
    let refs ← listBundles pre false
    cleanupEach cfg t (refs.map (·.path))
    cleanupNamespaces t rest

/-- One turn of `_ttl_cleanup_loop`. -/
def ttlCleanup : Handler Unit :=
  if cfg.defaultTtl = 0 then pure ()
  else do
    let t ← now
    tryCatch (cleanupNamespaces cfg t bundleNamespaces) fun _ => pure ()

end Cassetta.Background
