import Cassetta.Server.Faults
import Cassetta.Surface.Files
import Cassetta.Surface.Mcp

/-!
# A write over a committed bundle

`PUT` and the MCP put delete the bundle at their path before they write the new one. This module
says for which requests that end in an error the old bundle is still there.
-/

namespace Cassetta

open Prog FileTree

variable {cfg : Config} {env : Environment} {faults : Faults cfg.backend} {s : Server}

/-! ## Requests -/

/-- A write to a store path, on either surface. -/
inductive StorePut where
  | rest (identity : Identity) (path : String) (body : Body)
  | mcp (caller : Mcp.Caller) (path content : String) (files : FilesArg)

namespace StorePut

/-- The path of the request. -/
def path : StorePut → String
  | .rest _ path _ => path
  | .mcp _ path _ _ => path

/-- Whose request it is. -/
def identity : StorePut → Identity
  | .rest identity _ _ => identity
  | .mcp caller _ _ _ => caller.effective

/-- The files of the request, if it has any. -/
def parts : StorePut → Option (List FilePart)
  | .rest _ path body => if body.fileParts path = [] then none else some (body.fileParts path)
  | .mcp _ path content files => (mcpFileParts path content files).toOption

/-- The request itself. -/
def request : StorePut → PlainRequest
  | .rest identity path body => .putFile identity path body
  | .mcp caller path content files => .mcpPut caller path content files

/-- Its handler. -/
def handler (cfg : Config) (put : StorePut) : Handler Unit := put.request.handler cfg

private theorem handler_rest (identity : Identity) (path : String) (body : Body) :
    (StorePut.rest identity path body).handler cfg =
      discard (Files.uploadFile cfg identity path body) := rfl

private theorem handler_mcp (caller : Mcp.Caller) (path content : String) (files : FilesArg) :
    (StorePut.mcp caller path content files).handler cfg =
      discard (Mcp.cassettaPut cfg caller path content files) := rfl

/-- The counters that are incremented outside of `safe_emit`. -/
def counters (parts : List FilePart) : StorePut → List Counter
  | .rest .. => []
  | .mcp .. => [Mcp.operation "cassetta.files.operations" "put",
      ⟨"cassetta.files.bytes", (uploadManifest parts).totalSize, [("action", "put")]⟩]

end StorePut

/-! ## The property and the condition -/

/-- A bundle reads as it did, with its manifest and the bytes of its files. -/
def Backend.StillThere (b : Backend) (path : String) (m : BundleMeta) (t t' : DataTree) : Prop :=
  b.readBundleMeta t' path = some m ∧
    ∀ f ∈ m.files, b.openBundleFileRead t' path f.name = b.openBundleFileRead t path f.name

/-- A request that ends in an error has left the bundle at its path as it was. -/
def KeepsOld (cfg : Config) (env : Environment) (faults : Faults cfg.backend) (s : Server)
    (put : StorePut) (m : BundleMeta) : Prop :=
  ∀ e s', runE (execFaulty cfg env faults) (put.handler cfg) s = (.error e, s') →
    cfg.backend.StillThere (storePath put.path) m s.disk.tree s'.disk.tree

/-- A request passes all checks that come before the store is touched. -/
structure Accepted (cfg : Config) (env : Environment) (put : StorePut) (parts : List FilePart) :
    Prop where
  valid : validatePath cfg.allowedPathChars put.path = .ok ()
  unreserved : ¬(startsWith put.path "inbox/" ∨ startsWith put.path "store/")
  parts_eq : put.parts = some parts
  within : evaluateUpload cfg parts = .ok ()
  allowed : env.check put.identity (.files put.path) .write = .ok true

/-- The read that looks for the old bundle fails; there is none over MCP. -/
def ReadFails (faults : Faults cfg.backend) : StorePut → Prop
  | .rest _ path _ => faults.fault (.readBundleMeta (storePath path)) ≠ none
  | .mcp .. => False

/-- The delete fails and has not touched the bundle. -/
def DeleteSpares (faults : Faults cfg.backend) (s : Server) (path : String) (m : BundleMeta) :
    Prop :=
  ∃ e left, faults.fault (.deleteBundle (storePath path)) = some (e, left) ∧
    cfg.backend.StillThere (storePath path) m s.disk.tree (left s.disk).tree

/-- The delete goes through, and so does everything after it. -/
def Replaces (env : Environment) (faults : Faults cfg.backend) (s : Server) (put : StorePut)
    (parts : List FilePart) : Prop :=
  faults.fault (.deleteBundle (storePath put.path)) = none ∧
    GoesThrough cfg faults (storePath put.path) parts none "application/octet-stream" s.nextId
      (s.putting put.path (cfg.backend.dropped s put.path)) ∧
    ∀ c ∈ put.counters parts, env.increment c = .ok ()

/-- A request comes to an error before the old bundle is gone, or to none. -/
def SparesOld (cfg : Config) (env : Environment) (faults : Faults cfg.backend) (s : Server)
    (put : StorePut) (m : BundleMeta) : Prop :=
  (∀ parts, ¬Accepted cfg env put parts) ∨ ReadFails faults put ∨
    DeleteSpares faults s put.path m ∨ ∃ parts, Accepted cfg env put parts ∧
      Replaces env faults s put parts

/-! ## Up to the delete -/

section Run

variable {put : StorePut} {parts : List FilePart} {m : BundleMeta} {path : String}

private theorem runE_discard {h : (c : Call) → Server → c.Answer × Server} {α : Type}
    (x : Handler α)
    (s : Server) :
    runE h (discard x) s = match runE h x s with
      | (.ok _, s') => (.ok (), s')
      | (.error e, s') => (.error e, s') := by
  rw [discard, runE_bind]
  rcases runE h x s with ⟨r | r, s'⟩ <;> rfl

private theorem runE_faulty_validateOr {h : (c : Call) → Server → c.Answer × Server}
    {allowed : Char → Bool} {path : String} (hv : validatePath allowed path = .ok ())
    (refusal : PathValidationError → Exc) (s : Server) :
    runE h (validateOr allowed path refusal) s = (.ok (), s) := by
  rw [validateOr, hv]
  rfl

private theorem runE_faulty_enforce {identity : Identity} {resource : Resource} {action : Action}
    (hcheck : env.check identity resource action = .ok true) (denied : Exc) (s : Server) :
    runE (execFaulty cfg env faults) (enforce identity resource action denied) s =
      (.ok (), { s with asked := resource :: s.asked }) := by
  have hask : runE (execFaulty cfg env faults) (check identity resource action) s =
      (.ok (env.check identity resource action), { s with asked := resource :: s.asked }) := rfl
  rw [enforce, runE_bind_ok hask, hcheck]
  rfl

/-- The two reserved prefixes, as the route looks for them. -/
theorem find_reservedPrefixes {path : String} :
    Files.reservedPrefixes.find? (startsWith path) = none ↔
      ¬(startsWith path "inbox/" ∨ startsWith path "store/") := by
  simp [Files.reservedPrefixes]

/-- The policy is asked, and what is not allowed goes no further. -/
theorem wpE_faulty_enforce {identity : Identity} {resource : Resource} {action : Action}
    {denied : Exc} {Q : Unit → Server → Prop}
    (h : env.check identity resource action = .ok true →
      Q () { s with asked := resource :: s.asked }) :
    wpE (execFaulty cfg env faults) (fun _ _ => True) (enforce identity resource action denied) Q
      (fun _ s' => s'.disk = s.disk) s := by
  refine (wpE_bind _ _ _).mpr ⟨trivial, (wpE_bind _ _ _).mpr ?_⟩
  show wpE _ _ (orCollaborator (env.check identity resource action)) _ _
    { s with asked := resource :: s.asked }
  cases hcheck : env.check identity resource action with
  | error u => rfl
  | ok allowed =>
    cases allowed with
    | false => rfl
    | true => exact h hcheck

/-- A request that does not pass the checks leaves the disk alone. -/
theorem wpE_refused (h : ∀ parts, ¬Accepted cfg env put parts) :
    wpE (execFaulty cfg env faults) (fun _ _ => True) (put.handler cfg)
      (fun _ _ => True) (fun _ s' => s'.disk = s.disk) s := by
  cases put with
  | rest identity path body =>
    refine (wpE_bind _ _ _).mpr ((wpE_bind _ _ _).mpr ?_)
    cases hpath : validatePath cfg.allowedPathChars path with
    | error e =>
      rw [validateOr, hpath]
      rfl
    | ok u =>
      rw [validateOr, hpath]
      refine (wpE_pure _).mpr ?_
      cases hres : Files.reservedPrefixes.find? (startsWith path) with
      | some pre => rfl
      | none =>
        refine (wpE_bind _ _ _).mpr (wpE_faulty_enforce fun hallowed => ?_)
        by_cases hparts : body.fileParts path = []
        · rw [if_pos hparts]
          rfl
        rw [if_neg hparts]
        cases hlimits : evaluateUpload cfg (body.fileParts path) with
        | error r => rfl
        | ok v =>
          refine absurd ⟨hpath, find_reservedPrefixes.mp hres, ?_, hlimits, hallowed⟩ (h _)
          exact if_neg hparts
  | mcp caller path content files =>
    refine (wpE_bind _ _ _).mpr ((wpE_bind _ _ _).mpr ?_)
    cases hpath : validatePath cfg.allowedPathChars path with
    | error e =>
      rw [validateOr, hpath]
      rfl
    | ok u =>
      rw [validateOr, hpath]
      refine (wpE_pure _).mpr ?_
      by_cases hres : startsWith path "inbox/" ∨ startsWith path "store/"
      · rw [if_pos hres]
        rfl
      rw [if_neg hres]
      cases hparts : mcpFileParts path content files with
      | error e => rfl
      | ok parts =>
        cases hlimits : evaluateUpload cfg parts with
        | error r =>
          simp only [hlimits]
          rfl
        | ok v =>
          simp only [hlimits]
          refine (wpE_bind _ _ _).mpr (wpE_faulty_enforce fun hallowed => ?_)
          refine absurd ⟨hpath, hres, ?_, hlimits, hallowed⟩ (h parts)
          simp [StorePut.parts, hparts, Except.toOption]

/-! ## From the delete on -/

/-- What `upload_file` does once it has found the old bundle. -/
def replaceOld (cfg : Config) (path : String) (parts : List FilePart) (a : Files.Uploaded) :
    Handler Files.Uploaded := do
  deleteQuiet (storePath path)
  let bundleId ← newId
  let _ ← writeBundle cfg (storePath path) parts none "application/octet-stream" bundleId
  return a

section Rest

variable {identity : Identity} {path : String} {body : Body}

/-- An accepted body gets to the look at the old bundle. -/
theorem runE_uploadFile_accepted (h : Accepted cfg env (.rest identity path body) parts)
    {r : Except StorageError BundleMeta} {s₁ : Server}
    (hfound : runE (execFaulty cfg env faults) (readBundleMeta (storePath path))
      { s with asked := .files path :: s.asked } = (.ok r, s₁)) (hr : r ≠ .error .fileNotFound) :
    ∃ a, runE (execFaulty cfg env faults) (Files.uploadFile cfg identity path body) s =
      runE (execFaulty cfg env faults)
        (match r with
          | .ok _ => replaceOld cfg path parts a
          | .error e => throw (.storage e)) s₁ := by
  obtain ⟨hpath, hres, hparts, hlimits, hallowed⟩ := h
  have hbody : ¬body.fileParts path = [] ∧ body.fileParts path = parts := by
    simpa [StorePut.parts] using hparts
  obtain ⟨hne, rfl⟩ := hbody
  refine ⟨⟨path, ((body.fileParts path).map (·.data.length)).sum, true⟩, ?_⟩
  change validatePath cfg.allowedPathChars path = .ok () at hpath
  change ¬(startsWith path "inbox/" ∨ startsWith path "store/") at hres
  change env.check identity (.files path) .write = .ok true at hallowed
  unfold Files.uploadFile
  rw [runE_bind_ok (runE_faulty_validateOr hpath badPath s)]
  simp only [find_reservedPrefixes.mpr hres, if_neg hne, hlimits]
  rw [runE_bind_ok (runE_faulty_enforce hallowed httpForbidden s), runE_bind_ok hfound]
  cases r with
  | ok m => rfl
  | error e =>
    cases e with
    | fileNotFound => exact absurd rfl hr
    | _ => rfl

/-- It goes on to replace the old bundle. -/
theorem runE_uploadFile_replaces (h : Accepted cfg env (.rest identity path body) parts)
    (hread : faults.fault (.readBundleMeta (storePath path)) = none)
    (hold : cfg.backend.readBundleMeta s.disk.tree (storePath path) = some m) :
    ∃ a, runE (execFaulty cfg env faults) (Files.uploadFile cfg identity path body) s =
      runE (execFaulty cfg env faults) (replaceOld cfg path parts a)
        { s with asked := .files path :: s.asked } := by
  have hfound : runE (execFaulty cfg env faults) (readBundleMeta (storePath path))
      { s with asked := .files path :: s.asked } =
        (.ok (.ok m), { s with asked := .files path :: s.asked }) := by
    show (Except.ok (execFaulty cfg env faults (.readBundleMeta (storePath path)) _).1,
      (execFaulty cfg env faults (.readBundleMeta (storePath path)) _).2) = _
    rw [execFaulty_eq hread, exec]
    dsimp only
    rw [hold]
    rfl
  exact runE_uploadFile_accepted h hfound (by rintro ⟨⟩)

/-- A `PUT` whose look at the old bundle fails goes no further. -/
theorem runE_uploadFile_readFails (h : Accepted cfg env (.rest identity path body) parts)
    (hread : faults.fault (.readBundleMeta (storePath path)) ≠ none) :
    ∃ e s', runE (execFaulty cfg env faults) (Files.uploadFile cfg identity path body) s =
      (.error e, s') ∧ s'.disk = s.disk := by
  obtain ⟨⟨e, left⟩, hf⟩ := Option.ne_none_iff_exists'.mp hread
  have hfound : runE (execFaulty cfg env faults) (readBundleMeta (storePath path))
      { s with asked := .files path :: s.asked } =
        (.ok (.error (.osError e)), { s with asked := .files path :: s.asked }) := by
    show (Except.ok (execFaulty cfg env faults (.readBundleMeta (storePath path)) _).1,
      (execFaulty cfg env faults (.readBundleMeta (storePath path)) _).2) = _
    rw [execFaulty_fault rfl hf, (faults.halfDone hf _).looks rfl]
    rfl
  obtain ⟨a, hrun⟩ := runE_uploadFile_accepted h hfound nofun
  exact ⟨_, _, hrun, rfl⟩

end Rest

/-- What `_cassetta_put` does with its files, once they are accepted. -/
theorem runE_cassettaPut_accepted {caller : Mcp.Caller} {path content : String}
    {files : FilesArg} (h : Accepted cfg env (.mcp caller path content files) parts) :
    runE (execFaulty cfg env faults) (Mcp.cassettaPut cfg caller path content files) s =
      runE (execFaulty cfg env faults) (do
        deleteQuiet (storePath path)
        let _ ← writeBundle cfg (storePath path) parts none "application/octet-stream" s.nextId
        increment (Mcp.operation "cassetta.files.operations" "put")
        increment ⟨"cassetta.files.bytes", (uploadManifest parts).totalSize, [("action", "put")]⟩
        pure parts.length)
        { s with asked := .files path :: s.asked, nextId := s.nextId + 1 } := by
  obtain ⟨hpath, hres, hparts, hlimits, hallowed⟩ := h
  have hfiles : mcpFileParts path content files = .ok parts := by
    simp only [StorePut.parts] at hparts
    cases hp : mcpFileParts path content files with
    | error e => simp [hp, Except.toOption] at hparts
    | ok ps => simpa [hp, Except.toOption] using hparts
  have hid : runE (execFaulty cfg env faults) newId { s with asked := .files path :: s.asked } =
      (.ok s.nextId, { s with asked := .files path :: s.asked, nextId := s.nextId + 1 }) := rfl
  change validatePath cfg.allowedPathChars path = .ok () at hpath
  change ¬(startsWith path "inbox/" ∨ startsWith path "store/") at hres
  change env.check caller.effective (.files path) .write = .ok true at hallowed
  unfold Mcp.cassettaPut
  rw [runE_bind_ok (runE_faulty_validateOr hpath invalidPath s)]
  simp only [if_neg hres, hfiles, hlimits]
  rw [Mcp.enforceMcp, runE_bind_ok (runE_faulty_enforce hallowed _ s), runE_bind_ok hid]

/-- The increments a request ends with. -/
def countAll : List Counter → Handler Unit
  | [] => pure ()
  | c :: rest => do
    increment c
    countAll rest

private theorem runE_countAll (counters : List Counter) (s : Server) :
    runE (execFaulty cfg env faults) (countAll counters) s =
      (if ∀ c ∈ counters, env.increment c = .ok () then .ok () else .error .collaborator, s) := by
  induction counters with
  | nil => simp [countAll]
  | cons c rest ih =>
    have htry : runE (execFaulty cfg env faults) (tryIncrement c) s =
        (.ok (env.increment c), s) := rfl
    rw [countAll, runE_bind, increment, runE_bind_ok htry]
    cases hc : env.increment c with
    | error u => simp [orCollaborator, hc]
    | ok u =>
      simp only [orCollaborator, runE_pure, ih, List.forall_mem_cons, hc]
      simp

/-- The write that replaces the old bundle, and what follows it. -/
def replacing (cfg : Config) (put : StorePut) (parts : List FilePart) (bundleId : Id) :
    Handler Unit := do
  let _ ← writeBundle cfg (storePath put.path) parts none "application/octet-stream" bundleId
  countAll (put.counters parts)

/-- A delete that fails ends the request. -/
theorem accepted_delete_fails (h : Accepted cfg env put parts) (hread : ¬ReadFails faults put)
    (hold : cfg.backend.readBundleMeta s.disk.tree (storePath put.path) = some m) {e : Errno}
    {left : Disk → Disk} (hf : faults.fault (.deleteBundle (storePath put.path)) = some (e, left)) :
    ∃ e' s', runE (execFaulty cfg env faults) (put.handler cfg) s = (.error e', s') ∧
      s'.disk = left s.disk := by
  cases put with
  | rest identity path body =>
    change faults.fault (.deleteBundle (storePath path)) = some (e, left) at hf
    obtain ⟨a, hrun⟩ := runE_uploadFile_replaces h (not_not.mp hread) hold
    have hfail : runE (execFaulty cfg env faults)
        ((StorePut.rest identity path body).handler cfg) s = (.error (.storage (.osError e)),
          Server.setDisk { s with asked := .files path :: s.asked } (left s.disk)) := by
      rw [StorePut.handler_rest, runE_discard, hrun, replaceOld, runE_bind,
        runE_faulty_deleteQuiet_fails hf]
    exact ⟨_, _, hfail, rfl⟩
  | mcp caller path content files =>
    change faults.fault (.deleteBundle (storePath path)) = some (e, left) at hf
    have hfail : runE (execFaulty cfg env faults)
        ((StorePut.mcp caller path content files).handler cfg) s = (.error (.storage (.osError e)),
          Server.setDisk { s with asked := .files path :: s.asked, nextId := s.nextId + 1 }
            (left s.disk)) := by
      rw [StorePut.handler_mcp, runE_discard, runE_cassettaPut_accepted h, runE_bind,
        runE_faulty_deleteQuiet_fails hf]
    exact ⟨_, _, hfail, rfl⟩

/-- A delete that goes through leaves the rest of the request to be done on what it left. -/
theorem accepted_replaces (h : Accepted cfg env put parts) (hread : ¬ReadFails faults put)
    (hold : cfg.backend.readBundleMeta s.disk.tree (storePath put.path) = some m)
    (hf : faults.fault (.deleteBundle (storePath put.path)) = none) :
    runE (execFaulty cfg env faults) (put.handler cfg) s =
      runE (execFaulty cfg env faults) (replacing cfg put parts s.nextId)
        (s.putting put.path (cfg.backend.dropped s put.path)) := by
  have hvalid := h.valid
  cases put with
  | rest identity path body =>
    change validatePath cfg.allowedPathChars path = .ok () at hvalid
    obtain ⟨a, hrun⟩ := runE_uploadFile_replaces h (not_not.mp hread) hold
    have hdelete : runE (execFaulty cfg env faults) (deleteQuiet (storePath path))
        { s with asked := .files path :: s.asked } =
          (.ok (),
          { s with asked := .files path :: s.asked, disk := cfg.backend.dropped s path }) :=
      runE_faulty_deleteQuiet (resolve_storePath hvalid) (storeLoc_ne_nil _ _) hf _
    have hid : runE (execFaulty cfg env faults) newId
        { s with asked := .files path :: s.asked, disk := cfg.backend.dropped s path } =
          (.ok s.nextId, s.putting path (cfg.backend.dropped s path)) := rfl
    rw [StorePut.handler_rest, runE_discard, hrun, replaceOld, runE_bind_ok hdelete,
      runE_bind_ok hid, runE_bind, replacing, runE_bind, StorePut.path]
    rcases runE (execFaulty cfg env faults)
      (writeBundle cfg (storePath path) parts none "application/octet-stream" s.nextId)
      (s.putting path (cfg.backend.dropped s path)) with ⟨r | r, s'⟩ <;> rfl
  | mcp caller path content files =>
    change validatePath cfg.allowedPathChars path = .ok () at hvalid
    have hdelete : runE (execFaulty cfg env faults) (deleteQuiet (storePath path))
        { s with asked := .files path :: s.asked, nextId := s.nextId + 1 } =
          (.ok (), s.putting path (cfg.backend.dropped s path)) :=
      runE_faulty_deleteQuiet (resolve_storePath hvalid) (storeLoc_ne_nil _ _) hf _
    rw [StorePut.handler_mcp, runE_discard, runE_cassettaPut_accepted h, runE_bind_ok hdelete,
      runE_bind, replacing, runE_bind, StorePut.path]
    rcases runE (execFaulty cfg env faults)
      (writeBundle cfg (storePath path) parts none "application/octet-stream" s.nextId)
      (s.putting path (cfg.backend.dropped s path)) with ⟨r | r, s'⟩
    · rfl
    · simp only [StorePut.counters, countAll, runE_bind]
      rcases runE (execFaulty cfg env faults)
        (increment (Mcp.operation "cassetta.files.operations" "put")) s' with ⟨r | r, s₁⟩
      · rfl
      · dsimp only
        rcases runE (execFaulty cfg env faults) (increment
          ⟨"cassetta.files.bytes", (uploadManifest parts).totalSize, [("action", "put")]⟩) s₁ with
          ⟨r | r, s₂⟩ <;> rfl

/-! ## What becomes of the old bundle -/

variable (env faults parts) in
/-- From the delete on, a request either goes through or leaves another manifest or none. -/
theorem replacing_spec {allowed : Char → Bool} (hv : validatePath allowed put.path = .ok ())
    (hfresh : m.bundleId ≠ s.nextId) :
    match runE (execFaulty cfg env faults) (replacing cfg put parts s.nextId)
      (s.putting put.path (cfg.backend.dropped s put.path)) with
    | (.ok _, _) => GoesThrough cfg faults (storePath put.path) parts none
        "application/octet-stream" s.nextId (s.putting put.path (cfg.backend.dropped s put.path)) ∧
        ∀ c ∈ put.counters parts, env.increment c = .ok ()
    | (.error _, s') => ¬(GoesThrough cfg faults (storePath put.path) parts none
        "application/octet-stream" s.nextId (s.putting put.path (cfg.backend.dropped s put.path)) ∧
        ∀ c ∈ put.counters parts, env.increment c = .ok ()) ∧
        cfg.backend.readBundleMeta s'.disk.tree (storePath put.path) ≠ some m := by
  have hspell := resolve_storePath (b := cfg.backend) hv
  have hnone : ∀ q, StrictlyInside (cfg.backend.storeLoc ++ below put.path) q →
      (s.putting put.path (cfg.backend.dropped s put.path)).disk.tree.fileAt q = none :=
    fun q hq => Backend.deleteBundle_inside hspell hq
  have hwrite := wpE_faulty_writeBundle env faults parts none "application/octet-stream" s.nextId
    (s := s.putting put.path (cfg.backend.dropped s put.path)) hspell hnone
  have hgoes := returns_faulty_writeBundle env faults (storePath put.path) parts none
    "application/octet-stream" s.nextId (s.putting put.path (cfg.backend.dropped s put.path))
  rw [returns_iff_run] at hgoes
  rw [replacing, runE_bind]
  rcases hrun : runE (execFaulty cfg env faults)
    (writeBundle cfg (storePath put.path) parts none "application/octet-stream" s.nextId)
    (s.putting put.path (cfg.backend.dropped s put.path)) with ⟨e | m', s₁⟩
  · have hlost := wpE_error hwrite hrun
    refine ⟨fun hboth => ?_, ?_⟩
    · obtain ⟨a, s₂, hok, -⟩ := hgoes.mpr hboth.1
      rw [hrun] at hok
      cases hok
    · have hin := strictlyInside_concat (cfg.backend.storeLoc ++ below put.path) bundleManifest
      rw [Backend.readBundleMeta_eq hspell, Backend.metaAt, hlost _ fun _ => hin, hnone _ hin]
      rintro ⟨⟩
  · obtain ⟨hid, hnew, -⟩ := wpE_ok hwrite hrun
    have hthrough := hgoes.mp ⟨m', s₁, hrun, trivial⟩
    dsimp only
    rw [runE_countAll]
    by_cases hcount : ∀ c ∈ put.counters parts, env.increment c = .ok ()
    · rw [if_pos hcount]
      exact ⟨hthrough, hcount⟩
    · rw [if_neg hcount]
      refine ⟨fun hboth => hcount hboth.2, ?_⟩
      rw [Backend.readBundleMeta_eq hspell, hnew]
      intro heq
      exact hfresh ((congrArg BundleMeta.bundleId (Option.some.inj heq)).symm.trans hid)

private theorem not_keepsOld {e : Exc}
    (hrun : (runE (execFaulty cfg env faults) (put.handler cfg) s).1 = .error e)
    (hgone : cfg.backend.readBundleMeta (runE (execFaulty cfg env faults) (put.handler cfg)
      s).2.disk.tree (storePath put.path) = none) : ¬KeepsOld cfg env faults s put m := by
  intro hkeeps
  have hstill := (hkeeps e _ (Prod.ext hrun rfl)).1
  rw [hgone] at hstill
  cases hstill

end Run

/-! ## A form with one name twice -/

/-- A server with an empty file `p` in the store. -/
def oldServer : Server :=
  (srvSystem.run srvConfig .core [.plain (.putFile alice "p" (.raw []))]).server

/-- The manifest of that file. -/
def oldMeta : BundleMeta where
  bundleId := 0
  sender := none
  createdAt := 5000000
  contentType := "application/octet-stream"
  fileCount := 1
  files := [⟨"p", 0, "application/octet-stream"⟩]

private theorem oldServer_meta :
    srvConfig.backend.readBundleMeta oldServer.disk.tree (storePath "p") = some oldMeta := by
  decide +kernel

/-- A form with one name twice. -/
def sameNameTwice : StorePut :=
  .rest alice "p" (.multipart [⟨"a", [], none⟩, ⟨"a", [], none⟩])

end Cassetta
