import Cassetta.Auth.KeyLifetime
import Cassetta.Server.Calls

/-!
# Authentication and the key routes

`get_current_identity` for the REST routes, the check of `MCPAuthMiddleware` for the MCP endpoint,
and the routes of `routes/keys.py` over the file key store. The access policy and the identity
provider are collaborators, and either may raise. What FastAPI's `HTTPBearer` makes of the
`Authorization` header is given with the request.
-/

namespace Cassetta.Admin

open FileKeyStore

/-! ## Credentials -/

/-- What the application authenticates and authorises with. -/
structure Gate where
  devMode : Bool
  setupToken : String
  hash : String → String
  /-- `identity_provider.resolve`. -/
  resolve : Info → Option Identity
  /-- `access_policy.check`, on a resource and an action. -/
  allows : Identity → String → String → Option Bool
  /-- `access_policy.kind`. -/
  policyKind : String

/-- `DefaultIdentityProvider` and `DefaultAccessPolicy`. -/
def coreGate (setupToken : String) (hash : String → String) : Gate where
  devMode := false
  setupToken := setupToken
  hash := hash
  resolve info := some { label := info.label }
  allows _ _ _ := some true
  policyKind := "core"

/-- The `X-Setup-Token` header and the credentials of `http_bearer`. -/
structure Credentials where
  setupToken : Option String := none
  bearer : Option String := none
  deriving DecidableEq, Repr

/-- `Identity(label="operator", extra={"operator": True})`. -/
def operatorIdentity : Identity := { label := "operator", operator := true }

/-- What `emit_auth_failure` is told. -/
structure AuthFailure where
  source : String
  reason : String
  identityHint : Option String
  deriving DecidableEq, Repr

/-- Why an authentication did not come to an identity. -/
inductive Refusal where
  | failed (f : AuthFailure)
  | raised
  deriving DecidableEq, Repr

/-- `raw[:12]`, unless the text is empty. -/
def hintOf (raw : String) : Option String :=
  if raw = "" then none else some (String.ofList (raw.toList.take 12))

/-- The tail of `get_current_identity`. The setup token comes first here too. -/
def failureOf (c : Credentials) : AuthFailure :=
  match c.setupToken, c.bearer with
  | some _, _ => ⟨"rest", "invalid_setup_token", none⟩
  | none, some raw => ⟨"rest", "invalid_key", hintOf raw⟩
  | none, none => ⟨"rest", "missing_bearer", none⟩

/-- `key_store.validate`, then `identity_provider.resolve`. -/
def resolveKey (g : Gate) (raw : String) (st : Store) : Option (Except Refusal Identity) :=
  (validate g.hash raw st).map fun info =>
    match g.resolve info with
    | some identity => .ok identity
    | none => .error .raised

/-- `get_current_identity`. -/
def getCurrentIdentity (g : Gate) (c : Credentials) (st : Store) : Except Refusal Identity :=
  if g.devMode then .ok devIdentity
  else if c.setupToken = some g.setupToken then .ok operatorIdentity
  else match c.bearer.bind fun raw => resolveKey g raw st with
    | some r => r
    | none => .error (.failed (failureOf c))

/-- `"Bearer "`. -/
def bearerScheme : String := "Bearer "

/-- `MCPAuthMiddleware`: who the MCP app runs as, given the `Authorization` header; in dev mode
nobody is set. -/
def mcpIdentity (g : Gate) (header : String) (st : Store) : Except Refusal (Option Identity) :=
  if g.devMode then .ok none
  else if startsWith header bearerScheme = false then
    .error (.failed ⟨"mcp", "missing_bearer", none⟩)
  else
    let token := String.ofList (header.toList.drop 7)
    match resolveKey g token st with
    | some (.ok identity) => .ok (some identity)
    | some (.error e) => .error e
    | none => .error (.failed ⟨"mcp", "invalid_key", hintOf token⟩)

/-! ## Answers -/

/-- What a metrics provider is told. -/
inductive Emission where
  | counter (c : Counter)
  | gauge (name : String) (value : Nat)
  deriving DecidableEq, Repr

/-- The answer of a key route. -/
inductive Reply where
  /-- `HTTPException`. -/
  | http (status : Nat) (detail : String)
  /-- `HTTPException` whose detail is `str` of a `KeyError`, the `repr` of this text. -/
  | keyError (status : Nat) (text : String)
  /-- An exception that no handler catches. -/
  | serverError
  /-- `KeyCreateResponse`. -/
  | created (label apiKey : String) (createdAt : Nat)
  /-- `KeyListResponse`. -/
  | listed (keys : List Info)
  /-- `RevokedResponse`. -/
  | revoked (label : String)
  deriving DecidableEq, Repr

/-- An answer, and what was emitted on the way. -/
structure Response where
  reply : Reply
  emits : List Emission := []
  deriving DecidableEq, Repr

/-- `emit_auth_failure` on the metrics provider. -/
def AuthFailure.emission (f : AuthFailure) : Emission :=
  .counter ⟨"cassetta.auth.failures", 1, [("source", f.source), ("reason", f.reason)]⟩

/-- The answer to a request that is not authenticated. -/
def Refusal.response : Refusal → Response
  | .failed f => ⟨.http 401 "Missing or invalid authentication credentials", [f.emission]⟩
  | .raised => ⟨.serverError, []⟩

/-- `_policy_kind_fields`, the tag. -/
def policyTag (kind : String) : String := if kind = "cloud" then "team" else "core"

/-- `policy.denied`. -/
def denied (g : Gate) : Emission :=
  .counter ⟨"cassetta.policy.decisions", 1,
    [("result", "denied"), ("policy_kind", policyTag g.policyKind)]⟩

/-- `sum(1 for k in keys if k.is_active)`. -/
def activeKeys (st : Store) : Nat := (st.memory.keys.filter (·.isActive)).length

/-- The operation counter and the gauge after a change. -/
def changeEmissions (action : String) (st : Store) : List Emission :=
  [.counter ⟨"cassetta.keys.operations", 1, [("action", action)]⟩,
    .gauge "cassetta.active_keys" (activeKeys st)]

/-! ## The routes -/

/-- `get_current_identity` and `_enforce`: an identity, or the answer instead. -/
def enforce (g : Gate) (c : Credentials) (resource action : String) (st : Store) :
    Except Response Identity :=
  match getCurrentIdentity g c st with
  | .error r => .error r.response
  | .ok identity =>
    match g.allows identity resource action with
    | none => .error ⟨.serverError, []⟩
    | some false => .error ⟨.http 403 "Forbidden", [denied g]⟩
    | some true => .ok identity

/-- A route that changes the key store. -/
def change {α : Type} (g : Gate) (c : Credentials) (label action : String)
    (call : Store → Except KeyStoreError α × Store) (raised : KeyStoreError → Reply)
    (reply : α → Reply) (st : Store) : Response × Store :=
  match enforce g c ("keys:" ++ label) action st with
  | .error r => (r, st)
  | .ok _ =>
    match call st with
    | (.error e, st') => (⟨raised e, []⟩, st')
    | (.ok a, st') => (⟨reply a, changeEmissions action st'⟩, st')

/-- `except ValueError`. -/
def conflictOf : KeyStoreError → Reply
  | .value text => .http 409 text
  | _ => .serverError

/-- `except KeyError`. -/
def notFoundOf : KeyStoreError → Reply
  | .key text => .keyError 404 text
  | _ => .serverError

/-- `KeyCreateResponse` of a key and its info. -/
def createdOf (key : String × Info) : Reply := .created key.2.label key.1 key.2.createdAt

/-- `SetupRequest.label` and `KeyCreateRequest.label`. -/
def requestLabel (host project : KeyField) : String := host.val ++ ":" ++ project.val

variable (g : Gate) (c : Credentials)

/-- `POST /setup`. -/
def setup (host project : KeyField) (draw : Draw) : Store → Response × Store :=
  change g c (requestLabel host project) "create"
    (FileKeyStore.setup g.hash (requestLabel host project) draw) conflictOf createdOf

/-- `POST /keys`. -/
def createKey (host project : KeyField) (draw : Draw) : Store → Response × Store :=
  change g c (requestLabel host project) "create"
    (FileKeyStore.createKey g.hash (requestLabel host project) draw) conflictOf createdOf

/-- `GET /keys`. -/
def listKeys (st : Store) : Response × Store :=
  match enforce g c "keys:*" "list" st with
  | .error r => (r, st)
  | .ok _ => (⟨.listed (st.memory.keys.map (·.info)), []⟩, st)

/-- `POST /keys/{label}/rotate`. -/
def rotateKey (label : String) (draw : Draw) : Store → Response × Store :=
  change g c label "rotate" (FileKeyStore.rotateKey g.hash label draw) notFoundOf createdOf

/-- `DELETE /keys/{label}`. -/
def revokeKey (label : String) (draw : Draw) : Store → Response × Store :=
  change g c label "revoke" (FileKeyStore.revokeKey label draw) notFoundOf fun _ => .revoked label

/-! ## Requests -/

/-- A request to a key route. -/
inductive Request where
  | setup (host project : KeyField)
  | createKey (host project : KeyField)
  | listKeys
  | rotateKey (label : String)
  | revokeKey (label : String)

/-- The route of a request. -/
def Request.handle (r : Request) (draw : Draw) (st : Store) : Response × Store :=
  match r with
  | .setup host project => Admin.setup g c host project draw st
  | .createKey host project => Admin.createKey g c host project draw st
  | .listKeys => Admin.listKeys g c st
  | .rotateKey label => Admin.rotateKey g c label draw st
  | .revokeKey label => Admin.revokeKey g c label draw st

/-- What a request asks of the key store, and the action the policy is asked about. -/
def Request.op : Request → Option (KeyOp × String)
  | .setup host project => some (.setup (requestLabel host project), "create")
  | .createKey host project => some (.createKey (requestLabel host project), "create")
  | .listKeys => none
  | .rotateKey label => some (.rotateKey label, "rotate")
  | .revokeKey label => some (.revokeKey label, "revoke")

variable {g c}

private theorem change_store {α : Type} {label action : String}
    {call : Store → Except KeyStoreError α × Store} {raised : KeyStoreError → Reply}
    {reply : α → Reply} {st : Store} :
    (change g c label action call raised reply st).2 =
      if (enforce g c ("keys:" ++ label) action st).toBool then (call st).2 else st := by
  unfold change
  cases he : enforce g c ("keys:" ++ label) action st with
  | error r => rfl
  | ok identity =>
    rcases hc : call st with ⟨r, st'⟩
    cases r <;> rfl

/-- A request leaves the store as it is, or it is let through and the store is as the operation
leaves it. -/
theorem Request.handle_store (r : Request) (draw : Draw) (st : Store) :
    (r.handle g c draw st).2 = match r.op with
      | none => st
      | some (op, action) =>
        if (enforce g c ("keys:" ++ op.label) action st).toBool then (op.call g.hash draw st).2
        else st := by
  cases r with
  | setup host project => exact change_store
  | createKey host project => exact change_store
  | listKeys =>
    simp only [Request.handle, Request.op, Admin.listKeys]
    split <;> rfl
  | rotateKey label => exact change_store
  | revokeKey label => exact change_store

end Cassetta.Admin
