import Cassetta.Auth.HotReload
import Cassetta.Server.Calls
import Cassetta.Storage.Ops

/-!
# The server behind the calls

One process: a disk, a claim store, the key slots, a clock and a source of fresh ids. Calls
run one at a time and none of them waits, so a handler runs to its end undisturbed. The clock
never goes back; how long passes before each reading of it is arbitrary. The collaborators are
arbitrary too; `Environment.core` is what a plain deployment plugs in.
-/

namespace Cassetta

/-! ## Collaborators -/

/-- The access policy, the alias resolver, the metrics provider and the rate limiter. -/
structure Environment where
  check : Identity → Resource → Action → Except Unit Bool
  visibleAgents : Identity → List String → Except Unit (List String)
  resolve : List KeyInfo → String → Option String → Except Unit (Option ResolvedRecipient)
  increment : Counter → Except Unit Unit
  admits : Nat → Bool

/-- `DefaultAliasResolver.resolve`. -/
def defaultResolve (keys : List KeyInfo) (name : String) : Option ResolvedRecipient :=
  if name.toList.contains ':' then
    if keys.any (fun k => k.label = name ∧ k.isActive) then
      some ⟨["inbox/" ++ name ++ "/"], some name⟩
    else none
  else none

/-- The core defaults: everything is allowed and visible, and metrics go nowhere. -/
def Environment.core : Environment where
  check _ _ _ := .ok true
  visibleAgents _ labels := .ok labels
  resolve keys name _ := .ok (defaultResolve keys name)
  increment _ := .ok ()
  admits _ := true

/-! ## State -/

/-- The state of the process. `asked` lists the resources the access policy has been asked
about, the latest first. -/
structure Server where
  disk : Disk
  claims : ClaimStore := {}
  slots : JWTKeySlots
  keys : List KeyInfo := []
  wall : Nat
  mono : Nat
  lag : Nat → Nat := fun _ => 0
  clockReads : Nat := 0
  nextId : Id := 0
  asked : List Resource := []

/-- Let time pass. -/
def Server.tick (s : Server) (micros : Nat) : Server :=
  { s with wall := s.wall + micros, mono := s.mono + micros }

/-- Put a changed disk in place. -/
def Server.setDisk (s : Server) (d : Disk) : Server := { s with disk := d }

/-! ## Answering calls -/

section Exec

variable (cfg : Config) (env : Environment)

/-- Answer a call. -/
def exec : (c : Call) → Server → c.Answer × Server
  | .now, s =>
    let s' := { s.tick (s.lag s.clockReads) with clockReads := s.clockReads + 1 }
    (s'.wall, s')
  | .newId, s => (s.nextId, { s with nextId := s.nextId + 1 })
  | .check identity resource action, s =>
    (env.check identity resource action, { s with asked := resource :: s.asked })
  | .visibleAgents identity labels, s => (env.visibleAgents identity labels, s)
  | .resolve name senderLabel, s => (env.resolve s.keys name senderLabel, s)
  | .listKeys, s => (s.keys, s)
  | .checkRateLimit, s => (env.admits s.wall, s)
  | .increment counter, s => (env.increment counter, s)
  | .verifyKeys, s =>
    let (secondary, slots) := resolveSecondary s.slots s.mono
    ((s.slots.primary, secondary), { s with slots := slots })
  | .openBundleWrite path, s =>
    let (r, d) := cfg.backend.openBundleWrite s.wall path s.disk
    (r, s.setDisk d)
  | .writeFile handle name data, s =>
    let (r, d) := Backend.writeFile s.wall handle name data s.disk
    (r, s.setDisk d)
  | .commit handle m, s =>
    let (r, d) := Backend.commit s.wall handle m s.disk
    (r, s.setDisk d)
  | .abort handle, s => ((), s.setDisk (Backend.abort s.wall handle s.disk))
  | .readBundleMeta path, s =>
    (match cfg.backend.readBundleMeta s.disk.tree path with
      | some m => .ok m
      | none => .error .fileNotFound, s)
  | .openBundleFileRead path name, s =>
    (match cfg.backend.openBundleFileRead s.disk.tree path name with
      | some data => .ok data
      | none => .error .fileNotFound, s)
  | .listBundles pre includeOrphans, s => (cfg.backend.listBundles s.disk pre includeOrphans, s)
  | .deleteBundle path, s =>
    let (r, d) := cfg.backend.deleteBundle s.wall path s.disk
    (r, s.setDisk d)

/-- Put a changed claim store in place. -/
def Server.setClaims (s : Server) (cs : ClaimStore) : Server := { s with claims := cs }

/-- Answer a call on the claim store. -/
def execClaim : (c : ClaimCall) → Server → c.Answer × Server
  | .issue claim, s =>
    let (r, cs) := s.claims.issue claim
    (r, s.setClaims cs)
  | .get jti, s => (s.claims.get jti, s)
  | .markFetched jti name, s =>
    let (r, cs) := s.claims.markFetched jti name
    (r, s.setClaims cs)
  | .delete jti, s => ((), s.setClaims (s.claims.delete jti))
  | .iterAll, s => (s.claims.sidecars, s)

/-- Answer either kind of call. -/
def execAny : (c : AnyCall) → Server → c.Answer × Server
  | .plain c, s => exec cfg env c s
  | .claim c, s => execClaim c s

/-- A call is answered alike among those with the claim store. -/
theorem agree_plain :
    Prog.Agree AnyCall.plain (fun _ a => a) (exec cfg env) (execAny cfg env) := fun _ _ => rfl

end Exec

/-! ## What a call leaves alone -/

section Frame

variable {cfg : Config} {env : Environment}

/-- The backend call behind a call that may change the disk. -/
def Call.toOp (t : Nat) : Call → Option BackendOp
  | .openBundleWrite path => some (.openBundleWrite t path)
  | .writeFile handle name data => some (.writeFile t handle name data)
  | .commit handle m => some (.commit t handle m)
  | .abort handle => some (.abort t handle)
  | .deleteBundle path => some (.deleteBundle t path)
  | _ => none

/-- The disk after a call. -/
theorem exec_disk (c : Call) (s : Server) :
    (exec cfg env c s).2.disk =
      match c.toOp s.wall with
      | some op => cfg.backend.step s.disk op
      | none => s.disk := by
  cases c <;> rfl

/-- The file contents a call puts in place when it goes through. -/
def Call.puts (s : Server) (c : Call) : List (List String × Blob) :=
  match c.toOp s.wall with
  | some op => op.puts s.disk
  | none => []

/-- Every file after a call was there before, or the call put it there. -/
theorem exec_fileAt {c : Call} {s : Server} {q : List String} {blob : Blob}
    (h : (exec cfg env c s).2.disk.tree.fileAt q = some blob) :
    s.disk.tree.fileAt q = some blob ∨ (q, blob) ∈ c.puts s := by
  rw [exec_disk] at h
  unfold Call.puts
  cases hop : c.toOp s.wall with
  | none => exact .inl (by rwa [hop] at h)
  | some op =>
    rw [hop] at h
    exact Backend.step_fileAt h

/-- The log of commits grows. -/
theorem exec_commits (c : Call) (s : Server) :
    s.disk.commits <+: (exec cfg env c s).2.disk.commits := by
  rw [exec_disk]
  cases c.toOp s.wall with
  | none => exact List.prefix_refl _
  | some op => exact Backend.step_commits _ _ _

/-- A call keeps the writers numbered. -/
theorem Numbered.exec {s : Server} (h : Numbered s.disk) (c : Call) :
    Numbered (exec cfg env c s).2.disk := by
  rw [exec_disk]
  cases c.toOp s.wall with
  | none => exact h
  | some op => exact h.step op

/-- A handler that has no claim store leaves it alone. -/
theorem exec_claims (c : Call) (s : Server) : (exec cfg env c s).2.claims = s.claims := by
  cases c <;> rfl

/-- The clock does not go back. -/
theorem exec_wall_le (c : Call) (s : Server) : s.wall ≤ (exec cfg env c s).2.wall := by
  cases c <;> first | exact le_refl _ | exact Nat.le_add_right _ _

/-- Identifiers are not drawn again. -/
theorem exec_nextId_le (c : Call) (s : Server) : s.nextId ≤ (exec cfg env c s).2.nextId := by
  cases c <;> first | exact le_refl _ | exact Nat.le_succ _

/-- A call of the claim store leaves the disk alone. -/
theorem execClaim_disk (c : ClaimCall) (s : Server) : (execClaim c s).2.disk = s.disk := by
  cases c <;> rfl

/-- A call of the claim store takes no time. -/
theorem execClaim_wall (c : ClaimCall) (s : Server) : (execClaim c s).2.wall = s.wall := by
  cases c <;> rfl

private theorem execClaim_nextId (c : ClaimCall) (s : Server) :
    (execClaim c s).2.nextId = s.nextId := by
  cases c <;> rfl

/-- The clock does not go back. -/
theorem execAny_wall_le (c : AnyCall) (s : Server) : s.wall ≤ (execAny cfg env c s).2.wall := by
  cases c with
  | plain c => exact exec_wall_le c s
  | claim c => exact le_of_eq (execClaim_wall c s).symm

/-- Identifiers are not drawn again. -/
theorem execAny_nextId_le (c : AnyCall) (s : Server) :
    s.nextId ≤ (execAny cfg env c s).2.nextId := by
  cases c with
  | plain c => exact exec_nextId_le c s
  | claim c => exact le_of_eq (execClaim_nextId c s).symm

end Frame

end Cassetta
