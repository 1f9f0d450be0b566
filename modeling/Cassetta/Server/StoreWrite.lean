import Cassetta.Server.Writing
import Cassetta.Storage.Removal

/-!
# A raw body at a store path

`PUT` and the MCP put file a body under the last segment of its path, in the directory the
whole path leads to. This module says where an accepted path leads and when such a bundle can
be written there.
-/

namespace Cassetta

open Prog FileTree

variable {cfg : Config} {env : Environment} {s : Server} {b : Backend} {path : String}

/-! ## The last segment -/

private theorem lastSegment_mem (path : String) : lastSegment path ∈ segments path := by
  rw [lastSegment, List.getLast?_eq_some_getLast (segments_ne_nil path), Option.getD_some]
  exact List.getLast_mem _

/-- A segment is its own only segment. -/
theorem segments_lastSegment (path : String) : segments (lastSegment path) = [lastSegment path] :=
  segments_of_not_mem (slash_not_mem_of_mem_segments (lastSegment_mem path))

private theorem relative_lastSegment (path : String) : isAbsolute (lastSegment path) = false := by
  have hslash := slash_not_mem_of_mem_segments (lastSegment_mem path)
  rw [isAbsolute, startsWith]
  cases hl : (lastSegment path).toList with
  | nil => decide
  | cons c w =>
    have hc : ('/' == c) = false := by
      rw [beq_eq_false_iff_ne]
      rintro rfl
      exact hslash (by simp [hl])
    simp [List.isPrefixOf, hc]

/-- Where the last segment of an accepted path leads from the directory of the path. -/
theorem below_lastSegment {allowed : Char → Bool} (h : validatePath allowed path = .ok ()) :
    below (lastSegment path) =
      if FileName (lastSegment path) then [lastSegment path] else [] := by
  have hslash := slash_not_mem_of_mem_segments (lastSegment_mem path)
  have hup : lastSegment path ≠ ".." :=
    fun he => (validatePath_ok h).2.2.1 (he ▸ lastSegment_mem path)
  rw [below, steps, segments_lastSegment]
  by_cases hnone : lastSegment path = "" ∨ lastSegment path = "."
  · have hc : component (lastSegment path) = none := by rw [component, if_pos hnone]
    have hname : ¬FileName (lastSegment path) := fun hf => by
      rw [FileName, hc] at hf
      cases hf.1
    rw [if_neg hname]
    simp [hc]
  · have hc : component (lastSegment path) = some (.into (lastSegment path)) := by
      rw [component, if_neg hnone, if_neg hup]
    rw [if_pos ⟨hc, hslash⟩]
    simp [hc, FileTree.normalize, normalizeFrom, Step.apply]

/-- Where the one file of a raw body goes. -/
theorem fileLoc_lastSegment {allowed : Char → Bool} (h : validatePath allowed path = .ok ())
    (loc : List String) :
    fileLoc loc (lastSegment path) =
      loc ++ if FileName (lastSegment path) then [lastSegment path] else [] := by
  have hup : Step.up ∉ steps (lastSegment path) := by
    refine up_not_mem_steps ?_
    rw [segments_lastSegment, List.mem_singleton]
    exact fun he => (validatePath_ok h).2.2.1 (he ▸ lastSegment_mem path)
  rw [fileLoc, relative_lastSegment, ← below_lastSegment h, below]
  simp only [Bool.false_eq_true, if_false]
  rw [eq_spell_normalize hup, normalizeFrom_spell, normalize_spell]

/-! ## The directory -/

/-- Where the bundles of the store lie. -/
def Backend.storeLoc (b : Backend) : List String := b.dataLoc ++ ["store"]

/-- An accepted path goes straight down from there. -/
theorem resolve_storeSteps (path : String) :
    b.resolve (storePath path) = spell b.storeLoc ++ steps path := by
  have hrel : isAbsolute (storePath path) = false := by
    simp [isAbsolute, startsWith, storePath, List.isPrefixOf]
  have hstore : steps "store" = spell ["store"] := by decide
  rw [Backend.resolve, joinPath, hrel, storePath, steps_append_slash, hstore, Backend.storeLoc,
    spell_append, ← b.dataRoot_eq]
  simp

/-- A valid path resolves below the store. -/
theorem resolve_storePath {allowed : Char → Bool} (h : validatePath allowed path = .ok ()) :
    b.resolve (storePath path) = spell (b.storeLoc ++ below path) := by
  rw [resolve_storeSteps, (downward_of_validatePath h).spelled, spell_append]

/-- The location of a valid path is below the store. -/
theorem location_storePath {allowed : Char → Bool} (h : validatePath allowed path = .ok ()) :
    b.location (storePath path) = b.storeLoc ++ below path := by
  rw [Backend.location, resolve_storePath h, normalize_spell]

/-- A location below the store is not the root. -/
theorem storeLoc_ne_nil (b : Backend) (x : List String) : b.storeLoc ++ x ≠ [] := by
  simp [Backend.storeLoc]

/-! ## One file in it -/

/-- The one part of a raw body. -/
def rawParts (path : String) (data : Bytes) : List FilePart := [⟨lastSegment path, data, none⟩]

/-- The one file of a raw body. -/
theorem partFiles_rawParts (path : String) (data : Bytes) :
    partFiles (rawParts path data) = [(lastSegment path, data)] := rfl

private theorem fills_rawParts (path : String) (data : Bytes) (sender : Option String)
    (contentType : String) (bundleId : Id) (createdAt : Nat) :
    Backend.Fills (partMeta cfg (rawParts path data) sender contentType bundleId createdAt)
      (partFiles (rawParts path data)) := by
  have hnames : (partMeta cfg (rawParts path data) sender contentType bundleId createdAt).names =
      [lastSegment path] := rfl
  refine ⟨by simp [hnames], fun n => by simp [hnames, partFiles_rawParts], ?_⟩
  intro f hf
  obtain rfl := List.mem_singleton.mp hf
  exact ⟨data, by simp [partFiles_rawParts], rfl⟩

private theorem storable_single {name : String} (h : below name = [name]) : Storable [name] := by
  have hinside : ∀ k : String, ¬StrictlyInside [k] [name] := by
    rintro k ⟨hp, hne⟩
    exact hne (hp.eq_of_length rfl).symm
  refine ⟨by simp, by simp [h], ?_, ?_, ?_⟩
  · simp [h, hinside]
  · simp [h, hinside]
  · simp [h, hinside]

/-- A raw body is written at an accepted store path where nothing is, exactly when no bundle is
in the way, the path can be reached, and its last segment is a file name. -/
theorem writeStore_isOk_iff {allowed : Char → Bool} (h : validatePath allowed path = .ok ())
    (hnone : s.disk.tree.get (cfg.backend.storeLoc ++ below path) = none) (data : Bytes)
    (sender : Option String) (contentType : String) (bundleId : Id) :
    Returns (exec cfg env)
        (writeBundle cfg (storePath path) (rawParts path data) sender contentType bundleId)
        (fun _ _ => True) s ↔
      cfg.backend.checkBundlePathCollision s.disk.tree
        (cfg.backend.resolve (storePath path)) = none ∧
        cfg.backend.Reachable s.disk (storePath path) ∧ FileName (lastSegment path) := by
  rw [returns_writeBundle]
  simp only [and_true]
  by_cases hcollide : cfg.backend.checkBundlePathCollision s.disk.tree
      (cfg.backend.resolve (storePath path)) = none
  · have hfree : cfg.backend.FreeAt s.disk (storePath path) :=
      ⟨hcollide, by rw [location_storePath h]; exact hnone⟩
    rw [and_iff_right hcollide]
    by_cases hempty : lastSegment path = ""
    · have hname : ¬FileName (lastSegment path) := by
        rw [hempty]
        decide
      simp only [hname, and_false, iff_false]
      rintro ⟨k, d₁, d₂, d₃, hopen, hwr, -⟩
      obtain ⟨hw, -, -⟩ := Backend.openBundleWrite_laid hopen
      rw [partFiles_rawParts, hempty, Backend.writeAll] at hwr
      simp [Backend.writeFile, hw] at hwr
    · have hdown : Downward (lastSegment path) := by
        refine ⟨hempty, relative_lastSegment path, eq_spell_normalize (up_not_mem_steps ?_)⟩
        rw [segments_lastSegment, List.mem_singleton]
        exact fun he => (validatePath_ok h).2.2.1 (he ▸ lastSegment_mem path)
      rw [Backend.layout_isOk_iff s.wall s.reading hfree (by simpa [partFiles_rawParts] using hdown)
        (by simp [partFiles_rawParts])
        (fills_rawParts path data sender contentType bundleId s.reading)]
      refine and_congr_right fun _ => ?_
      show Storable [lastSegment path] ↔ _
      have hbelow := below_lastSegment h
      constructor
      · intro hs
        by_contra hname
        rw [if_neg hname] at hbelow
        exact hs.leads_down _ (by simp) hbelow
      · intro hname
        rw [if_pos hname] at hbelow
        exact storable_single hbelow
  · simp only [hcollide, false_and, iff_false]
    rintro ⟨k, d₁, d₂, d₃, hopen, -⟩
    rcases Backend.openBundleWrite_cases (b := cfg.backend) s.wall (storePath path) s.disk with
      ⟨e, t, heq, -⟩ | ⟨e, heq⟩ | ⟨t, t', hno, -⟩
    · rw [heq] at hopen
      cases hopen
    · rw [heq] at hopen
      cases hopen
    · exact hcollide hno

/-- A write that fails there leaves every file as it was. -/
theorem writeStore_fails {allowed : Char → Bool} (h : validatePath allowed path = .ok ())
    (data : Bytes) (sender : Option String) (contentType : String) (bundleId : Id) {e : Exc}
    {s' : Server} (hrun : runE (exec cfg env)
      (writeBundle cfg (storePath path) (rawParts path data) sender contentType bundleId) s =
        (.error e, s')) : s'.disk.tree.fileAt = s.disk.tree.fileAt := by
  refine wpE_error (fails_writeBundle _ sender contentType bundleId fun f hf => ?_) hrun
  obtain rfl := List.mem_singleton.mp hf
  rw [fileLoc_lastSegment h]
  exact List.prefix_append _ _

/-! ## Puts -/

section Puts

variable {identity : Identity} {data : Bytes}

/-- What both puts check before they look at the store. -/
structure Admitted (cfg : Config) (path : String) (data : Bytes) : Prop where
  valid : validatePath cfg.allowedPathChars path = .ok ()
  unreserved : Files.reservedPrefixes.find? (startsWith path) = none
  within : evaluateUpload cfg (rawParts path data) = .ok ()

/-- The server when a put gets to its write. -/
def Server.putting (s : Server) (path : String) (d : Disk) : Server :=
  { s with asked := .files path :: s.asked, nextId := s.nextId + 1, disk := d }

/-- The write both puts end with. -/
def putBundle (cfg : Config) (path : String) (data : Bytes) (bundleId : Id) : Handler BundleMeta :=
  writeBundle cfg (storePath path) (rawParts path data) none "application/octet-stream" bundleId

/-- The disk without the directory of a store path. -/
def Backend.dropped (b : Backend) (s : Server) (path : String) : Disk :=
  (b.deleteBundle s.wall (storePath path) s.disk).2

/-- A delete before a write goes through. -/
theorem runE_deleteQuiet_store {allowed : Char → Bool} (h : validatePath allowed path = .ok ())
    (s : Server) :
    runE (exec cfg env) (deleteQuiet (storePath path)) s =
      (.ok (), s.setDisk (cfg.backend.dropped s path)) :=
  runE_deleteQuiet_spelled (resolve_storePath h) (storeLoc_ne_nil _ _) s

private theorem fileParts_raw (path : String) (data : Bytes) :
    Body.fileParts path (.raw data) = rawParts path data := rfl

private theorem rawParts_ne_nil (path : String) (data : Bytes) : rawParts path data ≠ [] := by
  simp [rawParts]

/-- A write that is not admitted changes nothing. -/
theorem uploadFile_refused (hallowed : env.check identity (.files path) .write = .ok true)
    (h : ¬Admitted cfg path data) :
    ∃ e s',
      runE (exec cfg env) (Files.uploadFile cfg identity path (.raw data)) s = (.error e, s') ∧
      s'.disk = s.disk := by
  unfold Files.uploadFile
  cases hpath : validatePath cfg.allowedPathChars path with
  | error e =>
    refine ⟨badPath e, s, ?_, rfl⟩
    rw [runE_bind, validateOr, hpath]
    rfl
  | ok u =>
    rw [runE_bind_ok (runE_validateOr hpath badPath s)]
    cases hres : Files.reservedPrefixes.find? (startsWith path) with
    | some pre => exact ⟨_, s, rfl, rfl⟩
    | none =>
      simp only [fileParts_raw]
      rw [runE_bind_ok (runE_enforce_ok hallowed httpForbidden s)]
      cases heval : evaluateUpload cfg (rawParts path data) with
      | error r => exact ⟨.limits r, { s with asked := .files path :: s.asked }, rfl, rfl⟩
      | ok v => exact absurd ⟨hpath, hres, heval⟩ h

/-- A `PUT` that returns was allowed and admitted. -/
theorem admitted_of_uploadFile {a : Files.Uploaded} {s₁ : Server}
    (hput : runE (exec cfg env) (Files.uploadFile cfg identity path (.raw data)) s = (.ok a, s₁)) :
    env.check identity (.files path) .write = .ok true ∧ Admitted cfg path data := by
  have hallowed : env.check identity (.files path) .write = .ok true := by
    have hensures : Ensures (exec cfg env) (Files.uploadFile cfg identity path (.raw data))
        (fun _ _ => env.check identity (.files path) .write = .ok true) s := by
      unfold Files.uploadFile
      refine (wpE_bind _ _ _).mpr (ensures_mono (ensures_validateOr _ _ _) ?_)
      rintro _ _ ⟨rfl, -⟩
      split
      · trivial
      refine (wpE_bind _ _ _).mpr (ensures_mono (ensures_enforce_allowed _ _ _ _) ?_)
      exact fun _ _ hcheck => wpE_mono (fun _ _ _ => hcheck) (fun _ _ h => h) (wpE_trivial _)
    exact wpE_ok hensures hput
  refine ⟨hallowed, ?_⟩
  by_contra hadmitted
  obtain ⟨e, s', hrun, -⟩ := uploadFile_refused (s := s) hallowed hadmitted
  rw [hput] at hrun
  cases hrun

/-- Go on with what a put answers once its write has gone through. -/
def answering {α : Type} (a : α) : Except Exc BundleMeta × Server → Except Exc α × Server
  | (.ok _, s') => (.ok a, s')
  | (.error e, s') => (.error e, s')

private theorem runE_numbered {α : Type} (a : α) (s : Server) :
    runE (exec cfg env) (do
      let bundleId ← newId
      let _ ← writeBundle cfg (storePath path) (rawParts path data) none "application/octet-stream"
        bundleId
      pure a) s =
      answering a (runE (exec cfg env) (putBundle cfg path data s.nextId)
        { s with nextId := s.nextId + 1 }) := by
  have hid : runE (exec cfg env) newId s = (.ok s.nextId, { s with nextId := s.nextId + 1 }) := rfl
  rw [runE_bind_ok hid, runE_bind, ← putBundle]
  rcases runE (exec cfg env) (putBundle cfg path data s.nextId)
    { s with nextId := s.nextId + 1 } with
    ⟨r, s'⟩
  cases r <;> rfl

/-- An admitted `PUT` deletes what it can read the manifest of, and writes. -/
theorem runE_uploadFile (hallowed : env.check identity (.files path) .write = .ok true)
    (h : Admitted cfg path data) :
    ∃ a, runE (exec cfg env) (Files.uploadFile cfg identity path (.raw data)) s =
      answering a (runE (exec cfg env) (putBundle cfg path data s.nextId) (s.putting path
        (if (cfg.backend.readBundleMeta s.disk.tree (storePath path)).isSome
          then cfg.backend.dropped s path else s.disk))) := by
  have hread := @runE_readBundleMeta_plain cfg env (storePath path)
    { s with asked := .files path :: s.asked }
  unfold Files.uploadFile
  rw [runE_bind_ok (runE_validateOr h.valid badPath s)]
  simp only [h.unreserved, fileParts_raw, if_neg (rawParts_ne_nil path data), h.within]
  rw [runE_bind_ok (runE_enforce_ok hallowed httpForbidden s), runE_bind_ok hread]
  cases hm : cfg.backend.readBundleMeta s.disk.tree (storePath path) with
  | none => exact ⟨_, runE_numbered _ _⟩
  | some m =>
    exact ⟨_, (runE_bind_ok (runE_deleteQuiet_store h.valid _)).trans (runE_numbered _ _)⟩

end Puts

end Cassetta
