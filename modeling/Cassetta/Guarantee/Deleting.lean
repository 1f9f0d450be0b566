import Cassetta.Server.Rules
import Cassetta.Storage.Removal

/-!
# Deletes by path

Nine places of the surfaces delete at a bundle path, and `delete_bundle` removes whatever
directory is there. The explicit deletes answer by what `delete_bundle` found; the others take
a missing directory for done.
-/

namespace Cassetta

open FileTree Prog

/-! ## The places -/

/-- A delete of a surface. `quiet` is the one before a write of `_cassetta_put` and of the
broadcasts, and the one of an expired bundle that was asked for. -/
inductive DeleteSite where
  | restFile (identity : Identity) (path : String)
  | restInbox (identity : Identity) (agent path : String)
  | mcpFile (caller : Mcp.Caller) (path : String)
  | quiet (key : String)

namespace DeleteSite

/-- The key that is handed to the backend. -/
def key : DeleteSite → String
  | .restFile _ path => storePath path
  | .restInbox _ agent path => inboxPath agent path
  | .mcpFile _ path => storePath path
  | .quiet key => key

def handler (cfg : Config) : DeleteSite → Handler Unit
  | .restFile identity path => Files.deleteFile identity path
  | .restInbox identity agent path => Inbox.deleteInboxFile identity agent path
  | .mcpFile caller path => Mcp.cassettaDelete cfg caller path
  | .quiet key => deleteQuiet key

/-- The refusal of a delete that somebody asked for. -/
def notFound : DeleteSite → Option Exc
  | .restFile _ path => some (httpNotFound path)
  | .restInbox _ _ path => some (httpNotFound path)
  | .mcpFile _ path => some (valueNotFound path)
  | .quiet _ => none

/-- The surface lets the path through. -/
def Accepts (cfg : Config) : DeleteSite → Prop
  | .restFile _ path => validatePath defaultAllowedChars path = .ok ()
  | .mcpFile _ path => validatePath cfg.allowedPathChars path = .ok ()
  | _ => True

end DeleteSite

/-! ## The property and its condition -/

section Property

variable (cfg : Config) (env : Environment) (s : Server) (site : DeleteSite)

/-- The answer and the server after the delete. -/
def deleteAt : Except Exc Unit × Server := runE (exec cfg env) (site.handler cfg) s

/-- The bundle at the path is gone, every other one is as it was, and where there was none an
explicit delete says so. -/
structure DeletesOne : Prop where
  gone : cfg.backend.readBundleMeta s.disk.tree site.key ≠ none →
    cfg.backend.metaAt (deleteAt cfg env s site).2.disk.tree (cfg.backend.location site.key) = none
  others : ∀ loc m, cfg.backend.metaAt s.disk.tree loc = some m →
    (cfg.backend.readBundleMeta s.disk.tree site.key = none ∨
      loc ≠ cfg.backend.location site.key) →
    cfg.backend.KeepsBundle s.disk.tree (deleteAt cfg env s site).2.disk.tree loc m
  missing : ∀ e, site.notFound = some e →
    cfg.backend.readBundleMeta s.disk.tree site.key = none →
    (deleteAt cfg env s site).1 = .error e

/-- Where the path names a directory, no other bundle reaches into it; and for an explicit
delete the directory is a bundle, or the path leads through the content of the directory. -/
def DeletesAlone : Prop :=
  s.disk.tree.isDir (cfg.backend.resolve site.key) = true →
    (∀ loc m, cfg.backend.metaAt s.disk.tree loc = some m →
      (cfg.backend.readBundleMeta s.disk.tree site.key = none ∨
        loc ≠ cfg.backend.location site.key) →
      ¬Reaches s.disk.tree (cfg.backend.location site.key) loc m) ∧
    (site.notFound ≠ none → cfg.backend.readBundleMeta s.disk.tree site.key = none →
      (s.disk.tree.clear (cfg.backend.location site.key)).resolve (cfg.backend.resolve site.key) ≠
        .ok (cfg.backend.location site.key))

end Property

/-! ## What the backend answers -/

/-- Without its content, a directory is reached as before or not at all. -/
theorem resolveFrom_clear {t : DataTree} (loc : List String) {start q : List String}
    {path : List (Step String)}
    (h : t.resolveFrom start path = .ok q) :
    (t.clear loc).resolveFrom start path = .ok q ∨
      (t.clear loc).resolveFrom start path = .error .noEntry := by
  induction path generalizing start with
  | nil => exact .inl h
  | cons s rest ih =>
    simp only [Tree.resolveFrom] at h ⊢
    split at h
    · rename_i hdir
      have hget : (t.clear loc).get start = some .dir ∨ (t.clear loc).get start = none := by
        by_cases hnil : start = []
        · exact .inl (by simp [hnil])
        · rw [Tree.get_clear _ _ hnil]
          split
          · exact .inr rfl
          · exact .inl hdir
      rcases hget with hg | hg
      · simp only [hg]
        exact ih h
      · simp [hg]
    · cases h
    · cases h

namespace Backend

variable {b : Backend} {d : Disk} {now : Nat} {path : String}

/-- The answer of a delete of a directory. -/
theorem deleteBundle_answer (h : d.tree.isDir (b.resolve path) = true) :
    (b.deleteBundle now path d).1 =
      if (d.tree.clear (b.location path)).resolve (b.resolve path) =
        .ok (b.location path) then .ok ()
      else .error .fileNotFound := by
  obtain ⟨hres, hget⟩ := Tree.isDir_iff.mp h
  unfold deleteBundle Tree.rmtree
  rw [if_pos h, Tree.stat_eq_ok_iff.mpr ⟨hres, hget⟩]
  rcases resolveFrom_clear (b.location path) hres with hok | herr
  · have hok' : (d.tree.clear (normalize (b.resolve path))).resolve (b.resolve path) =
        .ok (normalize (b.resolve path)) := hok
    simp only [hok', location, if_true]
  · have herr' : (d.tree.clear (normalize (b.resolve path))).resolve (b.resolve path) =
        .error .noEntry := herr
    simp [herr', location, StorageError.ofErrno]

private theorem deleteBundle_of_not_dir (h : ¬d.tree.isDir (b.resolve path) = true) :
    b.deleteBundle now path d = (.error .fileNotFound, d) := by
  rw [deleteBundle, if_neg h]

private theorem deleteBundle_without (now : Nat) (h : d.tree.isDir (b.resolve path) = true) :
    Without d.tree (b.deleteBundle now path d).2.tree (· = b.location path) := by
  refine ⟨?_, fun q => ?_⟩
  · rintro dir rfl
    exact (Tree.isDir_iff.mp h).2
  · rw [deleteBundle_fileAt]
    by_cases hp : b.location path <+: q
    · exact .inl ⟨⟨_, rfl, hp⟩, if_pos ⟨h, hp⟩⟩
    · refine .inr ⟨?_, if_neg fun hh => hp hh.2⟩
      rintro dir rfl
      exact hp

/-- A manifest that can be read lies in a directory the path leads to. -/
theorem readBundleMeta_some {t : DataTree} {m : BundleMeta} (h : b.readBundleMeta t path = some m) :
    t.isDir (b.resolve path) = true ∧ b.metaAt t (b.location path) = some m := by
  obtain ⟨blob, hr, hl⟩ := Option.bind_eq_some_iff.mp h
  refine ⟨Tree.isDir_of_readFile hr, ?_⟩
  have hf := fileAt_of_readFile hr
  rw [normalize_metaPath, ← location] at hf
  rw [metaAt, hf]
  exact hl

end Backend

/-! ## What the surfaces answer -/

section Answers

variable {cfg : Config} {env : Environment} {s : Server}

/-- How a site answers what the backend has said. -/
def DeleteSite.answer (site : DeleteSite) : Except StorageError Unit → Except Exc Unit
  | .ok () => .ok ()
  | .error .fileNotFound =>
    match site.notFound with
    | some e => .error e
    | none => .ok ()
  | .error e => .error (.storage e)

/-- Every site asks the backend once and answers by what it says. -/
theorem deleteAt_eq (hcheck : ∀ i r a, env.check i r a = .ok true)
    (hincrement : ∀ c, env.increment c = .ok ()) {site : DeleteSite} (h : site.Accepts cfg)
    (s : Server) :
    (deleteAt cfg env s site).1 =
        site.answer (cfg.backend.deleteBundle s.wall site.key s.disk).1 ∧
      (deleteAt cfg env s site).2.disk = (cfg.backend.deleteBundle s.wall site.key s.disk).2 := by
  cases site with
  | restFile identity path =>
    rw [deleteAt, DeleteSite.handler, Files.deleteFile, runE_bind_ok (runE_validateOr h _ _),
      runE_bind_ok (runE_enforce hcheck _ _ _ _ _), runE_deleteOr]
    exact ⟨rfl, rfl⟩
  | restInbox identity agent path =>
    rw [deleteAt, DeleteSite.handler, Inbox.deleteInboxFile,
      runE_bind_ok (runE_enforce hcheck _ _ _ _ _), runE_deleteOr]
    exact ⟨rfl, rfl⟩
  | mcpFile caller path =>
    have hcount : ∀ s, runE (exec cfg env) (do
        deleteOr (storePath path) (valueNotFound path)
        increment (Mcp.operation "cassetta.files.operations" "delete")) s =
        runE (exec cfg env) (deleteOr (storePath path) (valueNotFound path)) s := by
      intro s
      rw [runE_bind]
      rcases runE (exec cfg env) (deleteOr (storePath path) (valueNotFound path)) s with ⟨r, s'⟩
      cases r with
      | error e => rfl
      | ok u => exact runE_increment (hincrement _) s'
    rw [deleteAt, DeleteSite.handler, Mcp.cassettaDelete, runE_bind_ok (runE_validateOr h _ _),
      Mcp.enforceMcp, runE_bind_ok (runE_enforce hcheck _ _ _ _ _), hcount, runE_deleteOr]
    exact ⟨rfl, rfl⟩
  | quiet key =>
    rw [deleteAt, DeleteSite.handler, runE_deleteQuiet]
    exact ⟨rfl, rfl⟩

end Answers

/-! ## A bundle below the path -/

/-- A store with the bundle `a/b`. -/
def storeServer : Server :=
  { srvSystem.server with
    disk := Runs.run srvBackend.step (Disk.init srvTree)
      [.openBundleWrite 0 "store/a/b", .writeFile 0 0 "f" [1], .commit 0 0 (smallMeta ["f"])] }

end Cassetta
