import Cassetta.Surface.Common

/-!
# Broadcasts

The fan-out both broadcasts share: every visible label is resolved, checked and written to,
and whatever goes wrong for one recipient is noted and does not stop the others.
-/

namespace Cassetta

/-- The `error` of a recipient that was not reached: a text, which may end in that of an
exception. -/
structure BroadcastError where
  text : String
  exc : Option Exc := none
  deriving DecidableEq, Repr

/-- The outcome of a fan-out. -/
structure BroadcastReport where
  delivered : List String := []
  denied : List (String × String) := []
  failed : List (String × BroadcastError) := []
  deriving DecidableEq, Repr

/-- The path of a broadcast below one inbox target. -/
def broadcastPath (target path : String) : String := rstripSlash target ++ "/" ++ path

/-- The writes to the targets of one recipient; what is at the path goes first. -/
def deliverTo (cfg : Config) (path : String) (files : List FilePart) (sender : Option String) :
    List String → Handler Unit
  | [] => pure ()
  | target :: rest => do
    deleteQuiet (broadcastPath target path)
    let bundleId ← newId
    let _ ← writeBundle cfg (broadcastPath target path) files sender "application/octet-stream"
      bundleId
    deliverTo cfg path files sender rest

/-- The loop over the visible labels. -/
def broadcastTo (cfg : Config) (identity : Identity) (path : String) (files : List FilePart)
    (sender : Option String) : BroadcastReport → List String → Handler BroadcastReport
  | report, [] => pure report
  | report, label :: rest => do
    let failed (why : BroadcastError) : BroadcastReport :=
      { report with failed := report.failed ++ [(label, why)] }
    let denied (why : String) : BroadcastReport :=
      { report with denied := report.denied ++ [(label, why)] }
    match ← resolveAlias label sender with
    | .error () =>
      broadcastTo cfg identity path files sender
        (failed ⟨"resolver_error: ", some .collaborator⟩) rest
    | .ok none =>
      broadcastTo cfg identity path files sender (failed ⟨"resolver_unknown", none⟩) rest
    | .ok (some resolved) => do
      match ← check identity (.inbox label) .write with
      | .error () => broadcastTo cfg identity path files sender (denied "check_error") rest
      | .ok false => broadcastTo cfg identity path files sender (denied "access_denied") rest
      | .ok true => do
        let raised ← tryCatch (do
          deliverTo cfg path files sender resolved.inboxTargets
          pure none) fun e => pure (some e)
        let report' := raised.elim { report with delivered := report.delivered ++ [label] }
          fun e => failed ⟨"write_error: ", some e⟩
        broadcastTo cfg identity path files sender report' rest

/-- `_check_fanout_cap`. -/
def checkFanoutCap (cfg : Config) (targetCount : Nat) : Handler Unit :=
  if cfg.broadcastMaxTargets < targetCount then
    throw (.fanoutCapExceeded cfg.broadcastMaxTargets)
  else pure ()

/-- What the visibility filter leaves of the labels, nothing when it raises. -/
def visibleOf (answer : Except Unit (List String)) : List String :=
  match answer with
  | .ok visible => visible
  | .error () => []

/-- The part after the limits check: keys, cap, visibility, fan-out. -/
def fanOut (cfg : Config) (identity : Identity) (path : String) (files : List FilePart)
    (sender : Option String) : Handler BroadcastReport := do
  let keys ← listKeys
  let candidates := (keys.filter fun k => k.isActive ∧ some k.label ≠ sender).map (·.label)
  checkFanoutCap cfg candidates.length
  match ← visibleAgents identity candidates with
  | .error () => pure {}
  | .ok visible => broadcastTo cfg identity path files sender {} visible

namespace Agents

/-- `_sender_from_identity`. -/
def senderFromIdentity (identity : Identity) : Option String :=
  if identity.dev ∨ identity.operator then none else some identity.label

/-- `broadcast`. Only the hard caps are checked: a payload over the inline size goes through. -/
def broadcast (cfg : Config) (identity : Identity) (path : String) (body : Body) :
    Handler BroadcastReport := do
  let admitted ← checkRateLimit
  if ¬admitted then throw .rateLimitExceeded
  else do
    validateOr cfg.allowedPathChars path fun e => .http 400 ("Invalid path: " ++ e.message)
    let parts := body.fileParts path
    match checkManifestAgainstLimits (uploadManifest parts) cfg.limits with
    | .error r => throw (.limits r)
    | .ok _ => fanOut cfg identity path parts (senderFromIdentity identity)

/-- The body of the answer. -/
structure BroadcastResponse where
  path : String
  deliveredTo : List String
  denied : List (String × String)
  failed : List (String × BroadcastError)
  totalDelivered : Nat
  totalDenied : Nat
  totalFailed : Nat
  deriving DecidableEq, Repr

/-- The end of `broadcast`. -/
def response (path : String) (report : BroadcastReport) : BroadcastResponse where
  path := path
  deliveredTo := report.delivered
  denied := report.denied
  failed := report.failed
  totalDelivered := report.delivered.length
  totalDenied := report.denied.length
  totalFailed := report.failed.length

/-- `POST /broadcast/{path:path}`, for what follows `/broadcast/` in the decoded path of a URL. -/
def routedBroadcast (cfg : Config) (identity : Identity) (rest : String) (body : Body) :
    Handler BroadcastReport :=
  routed (pathParam rest) fun path => broadcast cfg identity path body

/-- `broadcast` with its answer. -/
def postBroadcast (cfg : Config) (identity : Identity) (path : String) (body : Body) :
    Handler BroadcastResponse := do
  let report ← broadcast cfg identity path body
  pure (response path report)

/-- The active labels that the caller may see, and the `result` tag of the listing. The times
of creation are left out. -/
def visibleActive (identity : Identity) : Handler (List String × String) := do
  let keys ← listKeys
  let labels := (keys.filter (·.isActive)).map (·.label)
  let answer ← visibleAgents identity labels
  pure (labels.filter (· ∈ visibleOf answer),
    if (visibleOf answer).length = labels.length then "unfiltered" else "filtered")

/-- `list_agents`. -/
def listAgents (identity : Identity) : Handler (List String) := do
  let (agents, _) ← visibleActive identity
  pure agents

end Agents

end Cassetta
