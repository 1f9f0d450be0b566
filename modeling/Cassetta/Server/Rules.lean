import Cassetta.Server.System
import Cassetta.Storage.Removal

/-!
# Rules for handlers

The weakest precondition of each single call, and of the fragments all surfaces share.
-/

namespace Cassetta

open Prog

variable {cfg : Config} {env : Environment} {s : Server} {E : Exc → Server → Prop}

/-! ## Single calls -/

section Calls

variable {guard : Server → Call → Prop}

/-- The clock is read. -/
@[simp] theorem wpE_now {Q : Nat → Server → Prop} :
    wpE (exec cfg env) guard now Q E s ↔
      guard s .now ∧ Q (exec cfg env .now s).1 (exec cfg env .now s).2 := Iff.rfl

/-- A new identifier is drawn. -/
@[simp] theorem wpE_newId {Q : Id → Server → Prop} :
    wpE (exec cfg env) guard newId Q E s ↔
      guard s .newId ∧ Q s.nextId { s with nextId := s.nextId + 1 } := Iff.rfl

/-- The keys are listed. -/
@[simp] theorem wpE_listKeys {Q : List KeyInfo → Server → Prop} :
    wpE (exec cfg env) guard listKeys Q E s ↔ guard s .listKeys ∧ Q s.keys s := Iff.rfl

/-- The rate limiter is asked. -/
@[simp] theorem wpE_checkRateLimit {Q : Bool → Server → Prop} :
    wpE (exec cfg env) guard checkRateLimit Q E s ↔
      guard s .checkRateLimit ∧ Q (env.admits s.wall) s := Iff.rfl

/-- The keys to verify with are read, and a secondary that is over is dropped. -/
@[simp] theorem wpE_verifyKeys {Q : SigningKey × Option SigningKey → Server → Prop} :
    wpE (exec cfg env) guard verifyKeys Q E s ↔
      guard s .verifyKeys ∧ Q (s.slots.primary, (resolveSecondary s.slots s.mono).1)
        { s with slots := (resolveSecondary s.slots s.mono).2 } := Iff.rfl

/-- The access policy is asked, which is recorded. -/
@[simp] theorem wpE_check {identity : Identity} {resource : Resource} {action : Action}
    {Q : Except Unit Bool → Server → Prop} :
    wpE (exec cfg env) guard (check identity resource action) Q E s ↔
      guard s (.check identity resource action) ∧
        Q (env.check identity resource action) { s with asked := resource :: s.asked } := Iff.rfl

/-- The alias resolver is asked. -/
@[simp] theorem wpE_resolveAlias {name : String} {sender : Option String}
    {Q : Except Unit (Option ResolvedRecipient) → Server → Prop} :
    wpE (exec cfg env) guard (resolveAlias name sender) Q E s ↔
      guard s (.resolve name sender) ∧ Q (env.resolve s.keys name sender) s := Iff.rfl

/-- The access policy is asked for the visible agents. -/
@[simp] theorem wpE_visibleAgents {identity : Identity} {labels : List String}
    {Q : Except Unit (List String) → Server → Prop} :
    wpE (exec cfg env) guard (visibleAgents identity labels) Q E s ↔
      guard s (.visibleAgents identity labels) ∧ Q (env.visibleAgents identity labels) s := Iff.rfl

/-- A manifest is read. -/
@[simp] theorem wpE_readBundleMeta {path : String}
    {Q : Except StorageError BundleMeta → Server → Prop} :
    wpE (exec cfg env) guard (readBundleMeta path) Q E s ↔
      guard s (.readBundleMeta path) ∧ Q (match cfg.backend.readBundleMeta s.disk.tree path with
        | some m => .ok m
        | none => .error .fileNotFound) s := Iff.rfl

/-- A file of a bundle is read. -/
@[simp] theorem wpE_openBundleFileRead {path name : String}
    {Q : Except StorageError Bytes → Server → Prop} :
    wpE (exec cfg env) guard (openBundleFileRead path name) Q E s ↔
      guard s (.openBundleFileRead path name) ∧
        Q (match cfg.backend.openBundleFileRead s.disk.tree path name with
          | some data => .ok data
          | none => .error .fileNotFound) s := Iff.rfl

/-- A bundle is deleted. -/
@[simp] theorem wpE_deleteBundle {path : String} {Q : Except StorageError Unit → Server → Prop} :
    wpE (exec cfg env) guard (deleteBundle path) Q E s ↔
      guard s (.deleteBundle path) ∧
        Q (cfg.backend.deleteBundle s.wall path s.disk).1
          (s.setDisk (cfg.backend.deleteBundle s.wall path s.disk).2) := Iff.rfl

/-- A bundle is opened for writing. -/
@[simp] theorem wpE_openBundleWrite {path : String} {Q : Except StorageError Nat → Server → Prop} :
    wpE (exec cfg env) guard (openBundleWrite path) Q E s ↔
      guard s (.openBundleWrite path) ∧
        Q (cfg.backend.openBundleWrite s.wall path s.disk).1
          (s.setDisk (cfg.backend.openBundleWrite s.wall path s.disk).2) := Iff.rfl

/-- A file is written. -/
@[simp] theorem wpE_tryWriteFile {handle : Nat} {name : String} {data : Bytes}
    {Q : Except StorageError Nat → Server → Prop} :
    wpE (exec cfg env) guard (tryWriteFile handle name data) Q E s ↔
      guard s (.writeFile handle name data) ∧
        Q (Backend.writeFile s.wall handle name data s.disk).1
          (s.setDisk (Backend.writeFile s.wall handle name data s.disk).2) := Iff.rfl

/-- A bundle is committed. -/
@[simp] theorem wpE_tryCommit {handle : Nat} {m : BundleMeta}
    {Q : Except StorageError Unit → Server → Prop} :
    wpE (exec cfg env) guard (tryCommit handle m) Q E s ↔
      guard s (.commit handle m) ∧
        Q (Backend.commit s.wall handle m s.disk).1
          (s.setDisk (Backend.commit s.wall handle m s.disk).2) := Iff.rfl

/-- The bundles below a prefix are listed. -/
@[simp] theorem wpE_tryListBundles {pre : String} {includeOrphans : Bool}
    {Q : Except StorageError (List Backend.BundleRef) → Server → Prop} :
    wpE (exec cfg env) guard (tryListBundles pre includeOrphans) Q E s ↔
      guard s (.listBundles pre includeOrphans) ∧
        Q (cfg.backend.listBundles s.disk pre includeOrphans) s := Iff.rfl

/-- The metrics provider is called. -/
@[simp] theorem wpE_tryIncrement {counter : Counter} {Q : Except Unit Unit → Server → Prop} :
    wpE (exec cfg env) guard (tryIncrement counter) Q E s ↔
      guard s (.increment counter) ∧ Q (env.increment counter) s := Iff.rfl

/-- A write is given up. -/
@[simp] theorem wpE_abort {handle : Nat} {Q : Unit → Server → Prop} :
    wpE (exec cfg env) guard (abort handle) Q E s ↔
      guard s (.abort handle) ∧ Q () (s.setDisk (Backend.abort s.wall handle s.disk)) := Iff.rfl

/-- An error of the storage is raised. -/
@[simp] theorem wpE_orRaise {h : (c : Call) → Server → c.Answer × Server} {α : Type}
    {r : Except StorageError α} {Q : α → Server → Prop} :
    wpE h guard (orRaise r) Q E s ↔
      match r with
      | .ok a => Q a s
      | .error e => E (.storage e) s := by
  cases r <;> rfl

/-- An error of a collaborator is raised. -/
@[simp] theorem wpE_orCollaborator {α : Type} {r : Except Unit α} {Q : α → Server → Prop} :
    wpE (exec cfg env) guard (orCollaborator r) Q E s ↔
      match r with
      | .ok a => Q a s
      | .error () => E .collaborator s := by
  cases r <;> rfl

end Calls

section ClaimCalls

variable {guard : Server → AnyCall → Prop}

/-- A handler without the claim store, among those with it. -/
@[simp] theorem wpE_plain {α : Type} {x : Handler α} {Q : α → Server → Prop} :
    wpE (execAny cfg env) guard (plain x) Q E s ↔
      wpE (exec cfg env) (fun s c => guard s (.plain c)) x Q E s :=
  wpE_embedE (agree_plain cfg env) x

/-- A handler without the claim store runs alike among those with it. -/
theorem runE_execAny_plain {α : Type} (env : Environment) (x : Handler α) (s : Server) :
    runE (execAny cfg env) (plain x) s = runE (exec cfg env) x s :=
  runE_embedE (agree_plain cfg env) x

/-- A claim is issued. -/
@[simp] theorem wpE_issueClaim {claim : ClaimRecord} {Q : Except ClaimError Unit → Server → Prop} :
    wpE (execAny cfg env) guard (issueClaim claim) Q E s ↔
      guard s (.claim (.issue claim)) ∧
        Q (s.claims.issue claim).1 (s.setClaims (s.claims.issue claim).2) := Iff.rfl

/-- A claim is read. -/
@[simp] theorem wpE_getClaim {jti : Id} {Q : Option ClaimRecord → Server → Prop} :
    wpE (execAny cfg env) guard (getClaim jti) Q E s ↔
      guard s (.claim (.get jti)) ∧ Q (s.claims.get jti) s := Iff.rfl

/-- A file is marked as fetched. -/
@[simp] theorem wpE_markFetched {jti : Id} {name : String}
    {Q : Except ClaimError ClaimRecord → Server → Prop} :
    wpE (execAny cfg env) guard (markFetched jti name) Q E s ↔
      guard s (.claim (.markFetched jti name)) ∧
        Q (s.claims.markFetched jti name).1 (s.setClaims (s.claims.markFetched jti name).2) :=
  Iff.rfl

/-- A claim is deleted. -/
@[simp] theorem wpE_deleteClaim {jti : Id} {Q : Unit → Server → Prop} :
    wpE (execAny cfg env) guard (deleteClaim jti) Q E s ↔
      guard s (.claim (.delete jti)) ∧ Q () (s.setClaims (s.claims.delete jti)) := Iff.rfl

/-- The claims are listed. -/
@[simp] theorem wpE_iterClaims {Q : List ClaimRecord → Server → Prop} :
    wpE (execAny cfg env) guard iterClaims Q E s ↔
      guard s (.claim .iterAll) ∧ Q s.claims.sidecars s := Iff.rfl

end ClaimCalls

/-! ## Runs of the shared fragments -/

section Fragments

/-- The run of a delete, whose error is a value. -/
theorem runE_deleteBundle_plain (path : String) (s : Server) :
    runE (exec cfg env) (deleteBundle path) s =
      (.ok (cfg.backend.deleteBundle s.wall path s.disk).1,
        s.setDisk (cfg.backend.deleteBundle s.wall path s.disk).2) := rfl

/-- The run of a read of a manifest, whose error is a value. -/
theorem runE_readBundleMeta_plain (path : String) (s : Server) :
    runE (exec cfg env) (readBundleMeta path) s =
      (.ok (match cfg.backend.readBundleMeta s.disk.tree path with
        | some m => .ok m
        | none => .error .fileNotFound), s) := rfl

/-- What the storage answers to a read of a manifest. -/
theorem exec_readBundleMeta (path : String) (s : Server) :
    (exec cfg env (.readBundleMeta path) s).1 =
      match cfg.backend.readBundleMeta s.disk.tree path with
      | some m => .ok m
      | none => .error .fileNotFound := rfl

/-- What the storage answers to a read of a file. -/
theorem exec_openBundleFileRead (path name : String) (s : Server) :
    (exec cfg env (.openBundleFileRead path name) s).1 =
      match cfg.backend.openBundleFileRead s.disk.tree path name with
      | some data => .ok data
      | none => .error .fileNotFound := rfl

/-- The run of a listing. -/
theorem runE_listBundles (pre : String) (orphans : Bool) (s : Server) :
    runE (exec cfg env) (listBundles pre orphans) s =
      match cfg.backend.listBundles s.disk pre orphans with
      | .ok refs => (.ok refs, s)
      | .error e => (.error (.storage e), s) := by
  have htry : runE (exec cfg env) (tryListBundles pre orphans) s =
      (.ok (cfg.backend.listBundles s.disk pre orphans), s) := rfl
  rw [listBundles, runE_bind_ok htry]
  cases cfg.backend.listBundles s.disk pre orphans <;> rfl

/-- An action that the policy allows goes on. -/
theorem runE_enforce_ok {identity : Identity} {resource : Resource} {action : Action}
    (hcheck : env.check identity resource action = .ok true) (denied : Exc) (s : Server) :
    runE (exec cfg env) (enforce identity resource action denied) s =
      (.ok (), { s with asked := resource :: s.asked }) := by
  have hask : runE (exec cfg env) (check identity resource action) s =
      (.ok (env.check identity resource action), { s with asked := resource :: s.asked }) := rfl
  rw [enforce, runE_bind_ok hask, hcheck]
  rfl

/-- Where the policy allows everything, every action goes on. -/
theorem runE_enforce (hcheck : ∀ i r a, env.check i r a = .ok true) (identity : Identity)
    (resource : Resource) (action : Action) (denied : Exc) (s : Server) :
    runE (exec cfg env) (enforce identity resource action denied) s =
      (.ok (), { s with asked := resource :: s.asked }) :=
  runE_enforce_ok (hcheck identity resource action) denied s

/-- A valid path goes on. -/
theorem runE_validateOr {allowed : Char → Bool} {path : String}
    (h : validatePath allowed path = .ok ()) (refusal : PathValidationError → Exc) (s : Server) :
    runE (exec cfg env) (validateOr allowed path refusal) s = (.ok (), s) := by
  rw [validateOr, h]
  rfl

/-- The run of a delete that raises where there is nothing. -/
theorem runE_deleteOr (path : String) (missing : Exc) (s : Server) :
    runE (exec cfg env) (deleteOr path missing) s =
      (match (cfg.backend.deleteBundle s.wall path s.disk).1 with
        | .ok () => .ok ()
        | .error .fileNotFound => .error missing
        | .error e => .error (.storage e),
        s.setDisk (cfg.backend.deleteBundle s.wall path s.disk).2) := by
  rw [deleteOr, runE_bind_ok (runE_deleteBundle_plain path s)]
  rcases (cfg.backend.deleteBundle s.wall path s.disk).1 with e | u
  · cases e <;> rfl
  · rfl

/-- The run of a delete that is content where there is nothing. -/
theorem runE_deleteQuiet (path : String) (s : Server) :
    runE (exec cfg env) (deleteQuiet path) s =
      (match (cfg.backend.deleteBundle s.wall path s.disk).1 with
        | .ok () => .ok ()
        | .error .fileNotFound => .ok ()
        | .error e => .error (.storage e),
        s.setDisk (cfg.backend.deleteBundle s.wall path s.disk).2) := by
  rw [deleteQuiet, runE_bind_ok (runE_deleteBundle_plain path s)]
  rcases (cfg.backend.deleteBundle s.wall path s.disk).1 with e | u
  · cases e <;> rfl
  · rfl

/-- A path that is spelled out is deleted without an error. -/
theorem runE_deleteQuiet_spelled {path : String} {loc : List String}
    (h : cfg.backend.resolve path = FileTree.spell loc) (hne : loc ≠ []) (s : Server) :
    runE (exec cfg env) (deleteQuiet path) s =
      (.ok (), s.setDisk (cfg.backend.deleteBundle s.wall path s.disk).2) := by
  rw [runE_deleteQuiet, Backend.deleteBundle_spelled h hne]
  by_cases hdir : s.disk.tree.dirAt loc = true
  · rw [if_pos hdir]
  · rw [if_neg hdir]

/-- A provider that answers lets the run go on. -/
theorem runE_increment {counter : Counter} (h : env.increment counter = .ok ()) (s : Server) :
    runE (exec cfg env) (increment counter) s = (.ok (), s) := by
  have htry : runE (exec cfg env) (tryIncrement counter) s = (.ok (env.increment counter), s) := rfl
  rw [increment, runE_bind_ok htry, h]
  rfl

end Fragments

/-! ## Events -/

section Events

variable {sys : System} {e : Event}

/-- What happens outside of the surfaces leaves the disk alone. -/
theorem Event.outside_disk (s : Server) (e : Event) : (e.outside cfg s).disk = s.disk := by
  cases e <;> rfl

/-- What happens outside of the surfaces leaves the claims alone. -/
theorem Event.outside_claims (s : Server) (e : Event) : (e.outside cfg s).claims = s.claims := by
  cases e <;> rfl

/-- What happens outside of the surfaces draws no identifier. -/
theorem Event.outside_nextId (s : Server) (e : Event) : (e.outside cfg s).nextId = s.nextId := by
  cases e <;> rfl

/-- The clock does not go back. -/
theorem Event.le_outside_wall (s : Server) (e : Event) : s.wall ≤ (e.outside cfg s).wall := by
  cases e <;> first | exact le_rfl | exact Nat.le_add_right _ _

/-- What every guarded call keeps, and what happens outside of the handlers keeps, an event
keeps. -/
theorem System.step_server {guard : Server → AnyCall → Prop} {I : Server → Prop}
    (hcall : ∀ s c, I s → guard s c → I (execAny cfg env c s).2)
    (hout : ∀ s, I s → I (e.outside cfg s)) (hg : sys.Calls cfg env guard e)
    (hs : I sys.server) : I (sys.step cfg env e).server :=
  hout _ (runE_invariant hcall hg hs)

end Events

/-! ## Where a program returns -/

/-- Where a program returns, it returns as required. -/
abbrev Ensures {C : Type} {A : C → Type} {α : Type} (h : (c : C) → Server → A c × Server)
    (x : ExceptT Exc (Prog C A) α) (Q : α → Server → Prop) (s : Server) : Prop :=
  wpE h (fun _ _ => True) x Q (fun _ _ => True) s

/-- A weaker postcondition is ensured too. -/
theorem ensures_mono {C : Type} {A : C → Type} {α : Type} {h : (c : C) → Server → A c × Server}
    {x : ExceptT Exc (Prog C A) α} {Q Q' : α → Server → Prop} (hx : Ensures h x Q s)
    (hQ : ∀ a s', Q a s' → Q' a s') : Ensures h x Q' s :=
  wpE_mono hQ (fun _ _ _ => trivial) hx

/-- A program returns, and returns as required. -/
abbrev Returns {C : Type} {A : C → Type} {α : Type} (h : (c : C) → Server → A c × Server)
    (x : ExceptT Exc (Prog C A) α) (Q : α → Server → Prop) (s : Server) : Prop :=
  wpE h (fun _ _ => True) x Q (fun _ _ => False) s

/-- To return is to run to a value of which the postcondition holds. -/
theorem returns_iff_run {C : Type} {A : C → Type} {α : Type} {h : (c : C) → Server → A c × Server}
    {x : ExceptT Exc (Prog C A) α} {Q : α → Server → Prop} :
    Returns h x Q s ↔ ∃ a s', runE h x s = (.ok a, s') ∧ Q a s' := by
  unfold Returns wpE runE
  rw [wp_iff_run]
  rcases Prog.run h x.run s with ⟨r, s'⟩
  cases r with
  | ok a => simp [wp_trivial]
  | error e => simp

section Returning

variable {C : Type} {A : C → Type} {α : Type} {h : (c : C) → Server → A c × Server}
  {x : ExceptT Exc (Prog C A) α}

/-- What a program that has run returns. -/
theorem returns_of_run {Q : α → Server → Prop} {a : α} {s' : Server}
    (hrun : runE h x s = (.ok a, s')) :
    Returns h x Q s ↔ Q a s' := by
  rw [returns_iff_run, hrun]
  simp

/-- What is asked of a program that returns may be put in other words. -/
theorem returns_congr {Q Q' : α → Server → Prop} (hQ : ∀ a s', Q a s' ↔ Q' a s') :
    Returns h x Q s ↔ Returns h x Q' s := by
  have heq : Q = Q' := by
    funext a s'
    exact propext (hQ a s')
  rw [heq]

/-- A condition that decides what a program returns can be taken out of it. -/
theorem returns_iff_of {Q : α → Prop} {P : Prop} (hx : Returns h x (fun a _ => Q a ↔ P) s) :
    Returns h x (fun a _ => Q a) s ↔ P := by
  obtain ⟨a, s', hrun, hiff⟩ := returns_iff_run.mp hx
  rw [returns_of_run hrun, hiff]

/-- Go on after a program that returns. -/
theorem returns_bind {β : Type} {f : α → ExceptT Exc (Prog C A) β} {Q : β → Server → Prop} {a : α}
    {s' : Server} (hrun : runE h x s = (.ok a, s')) :
    Returns h (x >>= f) Q s ↔ Returns h (f a) Q s' :=
  (wpE_bind _ _ _).trans (returns_of_run hrun)

end Returning

/-- A handler behind a route returns where the route matches and the handler returns. -/
theorem returns_routed {C : Type} {A : C → Type} {α : Type} {h : (c : C) → Server → A c × Server}
    {param : Option String} {handler : String → ExceptT Exc (Prog C A) α}
    {Q : α → Server → Prop} :
    Returns h (routed param handler) Q s ↔
      ∃ path, param = some path ∧ Returns h (handler path) Q s := by
  cases param with
  | none => simp [wpE_throw]
  | some path => simp

/-- A head goes out where it can be encoded. -/
@[simp] theorem wpE_sendHead {h : (c : Call) → Server → c.Answer × Server}
    {guard : Server → Call → Prop} {values : List String} {Q : Unit → Server → Prop}
    {E : Exc → Server → Prop} :
    wpE h guard (sendHead values) Q E s ↔ (values.all headValue = true → Q () s) ∧
      (¬values.all headValue = true → E (.value "Invalid HTTP header value.") s) :=
  wpE_ite _ _

/-- Where the head of an answer is sent, nothing has changed. -/
theorem ensures_sendHead {values : List String} {Q : Unit → Server → Prop} (h : Q () s) :
    Ensures (exec cfg env) (sendHead values) Q s :=
  wpE_sendHead.mpr ⟨fun _ => h, fun _ => trivial⟩

/-- The clock only moves on, ids are only used up, and nothing else changes. -/
structure Later (s s' : Server) : Prop where
  disk : s'.disk = s.disk
  claims : s'.claims = s.claims
  wall : s.wall ≤ s'.wall
  nextId : s.nextId ≤ s'.nextId

/-- A state is no earlier than itself. -/
theorem Later.refl (s : Server) : Later s s := ⟨rfl, rfl, le_rfl, le_rfl⟩

/-- A state after a later one is later. -/
theorem Later.trans {s₁ s₂ s₃ : Server} (h : Later s₁ s₂) (h' : Later s₂ s₃) : Later s₁ s₃ :=
  ⟨h'.disk.trans h.disk, h'.claims.trans h.claims, h.wall.trans h'.wall, h.nextId.trans h'.nextId⟩

/-- Reading the clock takes time only. -/
theorem later_now : Later s (exec cfg env .now s).2 :=
  ⟨rfl, rfl, exec_wall_le .now s, le_rfl⟩

/-- Where the access policy lets a handler go on, only time may have passed. -/
theorem ensures_enforce (identity : Identity) (resource : Resource) (action : Action)
    (denied : Exc) :
    Ensures (exec cfg env) (enforce identity resource action denied)
      (fun _ s' => Later s s') s := by
  simp only [Ensures, enforce, wpE_bind, wpE_check, wpE_orCollaborator, true_and]
  split
  · split
    · exact ⟨rfl, rfl, le_rfl, le_rfl⟩
    · trivial
  · trivial

/-- Where the access policy lets a handler go on, it has allowed the action. -/
theorem ensures_enforce_allowed (identity : Identity) (resource : Resource) (action : Action)
    (denied : Exc) :
    Ensures (exec cfg env) (enforce identity resource action denied)
      (fun _ _ => env.check identity resource action = .ok true) s := by
  simp only [Ensures, enforce, wpE_bind, wpE_check, wpE_orCollaborator, true_and]
  split
  · rename_i allowed hcheck
    cases allowed with
    | true => exact hcheck
    | false => trivial
  · trivial

/-- Where a path check lets a handler go on, the path is valid. -/
theorem ensures_validateOr (allowed : Char → Bool) (path : String)
    (refusal : PathValidationError → Exc) :
    Ensures (exec cfg env) (validateOr allowed path refusal)
      (fun _ s' => s' = s ∧ validatePath allowed path = .ok ()) s := by
  unfold validateOr
  split
  · rename_i h
    exact ⟨rfl, h⟩
  · trivial

/-- A manifest that is returned is the one on disk. -/
theorem ensures_readMetaOr (path : String) (missing : Exc) :
    Ensures (exec cfg env) (readMetaOr path missing)
      (fun m s' => s' = s ∧ cfg.backend.readBundleMeta s.disk.tree path = some m) s := by
  simp only [Ensures, readMetaOr, wpE_bind, wpE_readBundleMeta, true_and]
  cases h : cfg.backend.readBundleMeta s.disk.tree path with
  | none => trivial
  | some m => exact ⟨rfl, rfl⟩

/-- The expiry check takes time only. -/
theorem ensures_isExpiredByMeta (createdAt : Nat) :
    Ensures (exec cfg env) (isExpiredByMeta cfg createdAt) (fun _ s' => Later s s') s := by
  unfold isExpiredByMeta
  split
  · exact Later.refl s
  · simp only [Ensures, wpE_bind, wpE_now, true_and, wpE_pure]
    exact later_now

/-- A fresh manifest is the one that was on disk. -/
theorem ensures_readFreshOr (path : String) (missing : Exc) :
    Ensures (exec cfg env) (readFreshOr cfg path missing)
      (fun m s' => Later s s' ∧ cfg.backend.readBundleMeta s.disk.tree path = some m) s := by
  simp only [Ensures, readFreshOr, wpE_bind]
  refine ensures_mono (ensures_readMetaOr path missing) ?_
  rintro m _ ⟨rfl, hm⟩
  refine ensures_mono (ensures_isExpiredByMeta m.createdAt) fun expired s' hl => ?_
  split
  · simp only [wpE_bind, wpE_throw]
    exact wpE_trivial _
  · exact ⟨hl, hm⟩

/-- What is listed is what the disk held. -/
theorem ensures_listBundles (pre : String) (includeOrphans : Bool) :
    Ensures (exec cfg env) (listBundles pre includeOrphans)
      (fun refs s' => s' = s ∧ cfg.backend.listBundles s.disk pre includeOrphans = .ok refs) s := by
  simp only [Ensures, listBundles, wpE_bind, wpE_tryListBundles, true_and, wpE_orRaise]
  split
  · rename_i refs h
    exact h
  · trivial

/-- The newest bundle is one of those looked at, and its manifest is the one in place. -/
theorem ensures_newestBundle (paths : List String) (best : Option (String × BundleMeta)) :
    Ensures (exec cfg env) (newestBundle cfg best paths)
      (fun found s' => Later s s' ∧ ∀ path m, found = some (path, m) → best = some (path, m) ∨
        path ∈ paths ∧ cfg.backend.readBundleMeta s.disk.tree path = some m) s := by
  induction paths generalizing best s with
  | nil => exact ⟨Later.refl s, fun path m h => .inl h⟩
  | cons p rest ih =>
    have hgo : ∀ best' s', Later s s' → (∀ path m, best' = some (path, m) →
        best = some (path, m) ∨ path = p ∧ cfg.backend.readBundleMeta s.disk.tree path = some m) →
        Ensures (exec cfg env) (newestBundle cfg best' rest)
          (fun found s' => Later s s' ∧ ∀ path m, found = some (path, m) → best = some (path, m) ∨
            path ∈ p :: rest ∧ cfg.backend.readBundleMeta s.disk.tree path = some m) s' := by
      intro best' s' hl hbest
      refine ensures_mono (ih best') fun found s'' h => ⟨hl.trans h.1, fun path m hf => ?_⟩
      rcases h.2 path m hf with hb | ⟨hmem, hr⟩
      · rcases hbest path m hb with hb | ⟨rfl, hr⟩
        · exact .inl hb
        · exact .inr ⟨by simp, hr⟩
      · exact .inr ⟨by simp [hmem], by rwa [hl.disk] at hr⟩
    simp only [Ensures, newestBundle, wpE_bind, wpE_readBundleMeta, true_and]
    cases hr : cfg.backend.readBundleMeta s.disk.tree p with
    | none => exact hgo best s (Later.refl s) fun path m h => .inl h
    | some m₁ =>
      simp only [wpE_bind]
      refine ensures_mono (ensures_isExpiredByMeta m₁.createdAt) fun expired s' hl => ?_
      have hnew : ∀ path m, some (p, m₁) = some (path, m) →
          best = some (path, m) ∨ path = p ∧
            cfg.backend.readBundleMeta s.disk.tree path = some m := by
        rintro path m h
        cases h
        exact .inr ⟨rfl, hr⟩
      split
      · exact hgo best s' hl fun path m h => .inl h
      · cases best with
        | none => exact hgo _ s' hl hnew
        | some b =>
          obtain ⟨p₀, m₀⟩ := b
          simp only
          split
          · exact hgo _ s' hl hnew
          · exact hgo _ s' hl fun path m h => .inl h

/-! ## Tokens -/

/-- The claims of a download token. -/
def downloadClaims (cfg : Config) (path : String) (m : BundleMeta) (recipient : String)
    (iat : Nat) (jti : Id) : Claims :=
  { buildClaims path m recipient cfg.limits.downloadClaimTtl iat with jti := some jti }

/-- A download token carries a new identifier and names its bundle and recipient. -/
theorem ensures_mintDownload (path : String) (m : BundleMeta) (recipient : String) :
    Ensures (exec cfg env) (mintDownload cfg path m recipient)
      (fun r s' => Later s s' ∧ ∃ iat jti, s.nextId ≤ jti ∧ jti < s'.nextId ∧
        secondsToMicros iat ≤ s'.wall ∧
        r = (.signed (downloadClaims cfg path m recipient iat jti) cfg.jwtPrimaryKey,
          iat + cfg.limits.downloadClaimTtl)) s := by
  simp only [Ensures, mintDownload, wpE_bind, wpE_now, wpE_newId, true_and, wpE_pure]
  have hl : Later s (exec cfg env .now s).2 := later_now
  refine ⟨⟨hl.disk, hl.claims, hl.wall, Nat.le_succ _⟩, wholeSeconds (exec cfg env .now s).1,
    s.nextId, le_rfl, Nat.lt_succ_self _, ?_, rfl⟩
  exact Nat.div_mul_le_self _ _

/-! ## Calls that return -/

section Returning

variable {α : Type}

/-- Cleaning up does not turn a failure into success. -/
theorem returns_orAbort {h : (c : Call) → Server → c.Answer × Server} {handle : Nat}
    {x : Handler α} {Q : α → Server → Prop} :
    Returns h (Upload.orAbort handle x) Q s ↔ Returns h x Q s := by
  refine (wpE_tryCatch _ _).trans ?_
  refine iff_of_eq (congrArg (wpE h (fun _ _ => True) x Q · s) ?_)
  funext e s'
  exact propext ((wpE_bind _ _ _).trans ⟨fun h => h.2, False.elim⟩)

/-- A file is written where the storage writes it. -/
theorem returns_writeFile {handle : Nat} {name : String} {data : Bytes}
    {Q : Nat → Server → Prop} :
    Returns (exec cfg env) (writeFile handle name data) Q s ↔
      ∃ n d', Backend.writeFile s.wall handle name data s.disk = (.ok n, d') ∧
        Q n (s.setDisk d') := by
  simp only [Returns, writeFile, wpE_bind, wpE_tryWriteFile, wpE_orRaise, true_and]
  rcases Backend.writeFile s.wall handle name data s.disk with ⟨r, d'⟩
  cases r <;> simp

/-- A bundle is committed where the storage commits it. -/
theorem returns_commit {handle : Nat} {m : BundleMeta} {Q : Unit → Server → Prop} :
    Returns (exec cfg env) (commit handle m) Q s ↔
      ∃ d', Backend.commit s.wall handle m s.disk = (.ok (), d') ∧ Q () (s.setDisk d') := by
  simp only [Returns, commit, wpE_bind, wpE_tryCommit, wpE_orRaise, true_and]
  rcases Backend.commit s.wall handle m s.disk with ⟨r, d'⟩
  cases r <;> simp

/-- What the clock says when it is read next. -/
def Server.reading (s : Server) : Nat := s.wall + s.lag s.clockReads

/-- The server after the clock has been read. -/
def Server.timed (s : Server) : Server :=
  { s.tick (s.lag s.clockReads) with clockReads := s.clockReads + 1 }

/-- A reading of the clock, in terms of the server. -/
theorem wpE_now_reading {guard : Server → Call → Prop} {Q : Nat → Server → Prop} :
    wpE (exec cfg env) guard now Q E s ↔ guard s .now ∧ Q s.reading s.timed := Iff.rfl

/-- A bundle that is past its time at a moment. -/
def PastTtl (cfg : Config) (createdAt t : Nat) : Prop :=
  cfg.defaultTtl ≠ 0 ∧ createdAt + secondsToMicros cfg.defaultTtl < t

instance (cfg : Config) (createdAt t : Nat) : Decidable (PastTtl cfg createdAt t) :=
  inferInstanceAs (Decidable (_ ∧ _))

/-- The server after a token has been checked. -/
def Server.verified (cfg : Config) (env : Environment) (s : Server) : Server :=
  (exec cfg env .now { s with slots := (resolveSecondary s.slots s.mono).2 }).2

/-- A token is accepted where it is signed with a key in force and is timely. -/
theorem returns_verifyToken_iff {token : Token} {refusal : TokenError → Exc}
    {Q : Claims → Server → Prop} :
    Returns (exec cfg env) (verifyToken token refusal) Q s ↔
      ∃ claims key, token = .signed claims key ∧ claims.Timely s.reading ∧
        (key = s.slots.primary ∨ (resolveSecondary s.slots s.mono).1 = some key) ∧
        Q claims (s.verified cfg env) := by
  simp only [Returns, verifyToken, wpE_bind, wpE_verifyKeys, wpE_now, true_and]
  split
  · rename_i c hv
    obtain ⟨k, htok, ht, hkey⟩ := verify_ok_iff.mp hv
    constructor
    · exact fun h => ⟨c, k, htok, ht, hkey, h⟩
    · rintro ⟨c', k', htok', -, -, h⟩
      obtain ⟨rfl, rfl⟩ := Token.signed.inj (htok.symm.trans htok')
      exact h
  · rename_i e hv
    simp only [wpE_throw, false_iff]
    rintro ⟨c, k, htok, ht, hkey, -⟩
    have hok := verify_ok_iff.mpr ⟨k, htok, ht, hkey⟩
    exact absurd (hv.symm.trans hok) (by simp)

/-- A timely token is accepted where it is signed with a key in force. -/
theorem returns_verifyToken {claims : Claims} {key : SigningKey} {refusal : TokenError → Exc}
    {Q : Claims → Server → Prop} (ht : claims.Timely s.reading) :
    Returns (exec cfg env) (verifyToken (.signed claims key) refusal) Q s ↔
      (key = s.slots.primary ∨ (resolveSecondary s.slots s.mono).1 = some key) ∧
        Q claims (s.verified cfg env) := by
  rw [returns_verifyToken_iff]
  constructor
  · rintro ⟨c, k, htok, -, hkey, h⟩
    obtain ⟨rfl, rfl⟩ := Token.signed.inj htok
    exact ⟨hkey, h⟩
  · rintro ⟨hkey, h⟩
    exact ⟨claims, key, rfl, ht, hkey, h⟩

end Returning

/-! ## Downloads -/

/-- What a download that is answered has found, at a moment: a token in order, signed with a
key in force, that names the path and the file; and the manifest and the content in place. -/
structure Served (cfg : Config) (s : Server) (t : Nat) (req : Download.Request) (claims : Claims)
    (m : BundleMeta) (st : Download.Stream) : Prop where
  bearer : ∃ key, req.bearer = some (.signed claims key) ∧
    (key = s.slots.primary ∨ s.slots.secondary = some key)
  timely : claims.Timely t
  path : claims.bundlePath = some st.bundlePath
  named : ∃ names, claims.fileNames = some names ∧ st.name ∈ names
  manifest : cfg.backend.readBundleMeta s.disk.tree st.bundlePath = some m
  listed : st.name ∈ m.names
  files : st.manifestFiles = m.files
  content : cfg.backend.openBundleFileRead s.disk.tree st.bundlePath st.name = some st.unread
  unsent : st.sent = []
  jti : st.jti = claims.jti.getD 0
  isInbox : st.isInbox = startsWith st.bundlePath "inbox/"

/-- A token that was accepted is signed with a key in force and is timely. -/
theorem ensures_verifyToken (token : Token) (refusal : TokenError → Exc) :
    Ensures (exec cfg env) (verifyToken token refusal)
      (fun claims s' => Later s s' ∧ claims.Timely s'.wall ∧ ∃ key, token = .signed claims key ∧
        (key = s.slots.primary ∨ s.slots.secondary = some key)) s := by
  simp only [Ensures, verifyToken, wpE_bind, wpE_verifyKeys, wpE_now, true_and]
  split
  · rename_i claims hv
    obtain ⟨key, htok, ht, hkey⟩ := verify_ok_iff.mp hv
    refine ⟨⟨rfl, rfl, Nat.le_add_right _ _, le_rfl⟩, ht, key, htok, ?_⟩
    exact hkey.imp_right fun h => (resolveSecondary_eq_some_iff.mp h).1
  · trivial

/-- Checking a token leaves the disk alone, whatever comes of it. -/
theorem wpE_verifyToken_disk (token : Token) (refusal : TokenError → Exc) (s : Server) :
    wpE (exec cfg env) (fun _ _ => True) (verifyToken token refusal)
      (fun claims s' => s'.disk = s.disk ∧ ∃ key, token = .signed claims key)
      (fun _ s' => s'.disk = s.disk) s := by
  simp only [verifyToken, wpE_bind, wpE_verifyKeys, wpE_now, true_and]
  split
  · rename_i claims hv
    obtain ⟨key, htok, -, -⟩ := verify_ok_iff.mp hv
    exact ⟨rfl, key, htok⟩
  · rfl

/-- A download that is answered serves what its token names. -/
theorem Download.ensures_downloadFile (req : Download.Request) :
    Ensures (exec cfg env) (Download.downloadFile cfg req)
      (fun st s' => Later s s' ∧ ∃ claims m, Served cfg s s'.wall req claims m st) s := by
  unfold Download.downloadFile
  split
  · trivial
  · rename_i token hbearer
    simp only [Ensures, wpE_bind]
    refine ensures_mono (ensures_verifyToken token _) ?_
    rintro claims s₁ ⟨hl₁, htimely, key, rfl, hkey⟩
    split
    iterate 4 trivial
    rename_i bundlePath bundleId recipient fileNames hpath hid hrec hnames
    split
    · trivial
    · rename_i path name hsplit
      split
      · trivial
      split
      · trivial
      rename_i hname
      split
      · trivial
      split
      · trivial
      simp only [wpE_bind]
      refine ensures_mono (ensures_readMetaOr bundlePath _) ?_
      rintro m s₂ ⟨rfl, hm⟩
      rw [hl₁.disk] at hm
      split
      · trivial
      · rename_i f hf
        simp only [wpE_bind, wpE_openBundleFileRead, true_and]
        cases hdata : cfg.backend.openBundleFileRead s₂.disk.tree bundlePath name with
        | none => trivial
        | some data =>
          rw [hl₁.disk] at hdata
          simp only [wpE_bind, wpE_sendHead, wpE_pure]
          refine ⟨fun _ => ⟨hl₁, claims, m, ⟨key, hbearer, hkey⟩, htimely, hpath,
            ⟨fileNames, hnames, not_not.mp hname⟩, hm, ?_, rfl, hdata, rfl, rfl, rfl⟩,
            fun _ => trivial⟩
          have hfn : f.name = name := by simpa using List.find?_some hf
          exact List.mem_map.mpr ⟨f, List.mem_of_find?_eq_some hf, hfn⟩

end Cassetta
