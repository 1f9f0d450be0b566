import Cassetta.Server.StoreWrite

/-!
# Put, get and delete

A raw body is put into the store over REST; it is got again, deleted, and looked for once more,
each time at the same path of a URL. Each of the four requests is routed and checks its path for
itself. This module says exactly which paths the round trip survives.
-/

namespace Cassetta

open Prog FileTree

variable {cfg : Config} {env : Environment} {s s₁ : Server} {identity : Identity}
  {rest path : String} {data : Bytes}

/-! ## What a client reads -/

/-- The bytes an inline content stands for. -/
def InlineContent.decoded : InlineContent → Option Bytes
  | .utf8 text => some (Percent.utf8 text)
  | .base64 text => Base64.decode text

/-- Whatever form the envelope chooses, it stands for the stored bytes. -/
theorem buildInlineEnvelope_single (m : BundleMeta) (name : String) (data : Bytes) :
    ∃ content, buildInlineEnvelope m [(name, data)] = .inline m [(name, content)] ∧
      content.decoded = some data := by
  unfold buildInlineEnvelope
  cases htext : String.fromUTF8? data.toByteArray with
  | some text =>
    refine ⟨.utf8 text, by simp [htext], ?_⟩
    rw [InlineContent.decoded, Percent.utf8_of_fromUTF8 htext]
  | none =>
    refine ⟨.base64 (Base64.encode data), by simp [htext], ?_⟩
    rw [InlineContent.decoded, Base64.decode_encode]

/-- A get answers with an inline envelope of one file that stands for the body, a delete after
it goes through, and a get after that finds nothing. -/
def ComesBack (cfg : Config) (env : Environment) (identity : Identity) (rest : String)
    (data : Bytes) (s : Server) : Prop :=
  let got := runE (exec cfg env) (Files.routedGet cfg identity rest) s
  let deleted := runE (exec cfg env) (Files.routedDelete identity rest) got.2
  let again := runE (exec cfg env) (Files.routedGet cfg identity rest) deleted.2
  (∃ m name content, got.1 = .ok (.file (.inline m [(name, content)])) ∧
      content.decoded = some data) ∧
    deleted.1 = .ok () ∧ ∃ detail, again.1 = .error (.http 404 detail)

/-! ## What a put leaves -/

/-- The manifest of a put. -/
def putMeta (cfg : Config) (s : Server) (path : String) (data : Bytes) : BundleMeta :=
  partMeta cfg (rawParts path data) none "application/octet-stream" s.nextId s.reading

/-- A bundle that was put: its manifest, and under the one name it lists the body, unless the
writer's own files have that name. -/
structure PutAt (cfg : Config) (s : Server) (path : String) (data : Bytes) (t : DataTree) :
    Prop where
  manifest : cfg.backend.readBundleMeta t (storePath path) = some (putMeta cfg s path data)
  content : cfg.backend.openBundleFileRead t (storePath path) (lastSegment path) =
    if lastSegment path = bundleManifest then some (cfg.backend.dumps (putMeta cfg s path data))
    else if lastSegment path = bundleManifestTmp then none
    else some data

private theorem writeStore_putAt {allowed : Char → Bool} (h : validatePath allowed path = .ok ())
    {d : Disk} {m : BundleMeta}
    (hrun : runE (exec cfg env) (putBundle cfg path data s.nextId) (s.putting path d) =
      (.ok m, s₁)) : PutAt cfg s path data s₁.disk.tree := by
  have hreturns : Returns (exec cfg env) (putBundle cfg path data s.nextId)
      (fun _ s' => s' = s₁) (s.putting path d) := returns_iff_run.mpr ⟨m, s₁, hrun, rfl⟩
  have hsome : Returns (exec cfg env) (putBundle cfg path data s.nextId) (fun _ _ => True)
      (s.putting path d) := returns_iff_run.mpr ⟨m, s₁, hrun, trivial⟩
  rw [putBundle, returns_writeBundle] at hreturns
  obtain ⟨k, d₁, d₂, d₃, hopen, hwrite, hcommit, hend⟩ := hreturns
  have hdisk : s₁.disk = d₃ := by rw [← hend]; rfl
  have hnone : (s.putting path d).disk.tree.get (cfg.backend.storeLoc ++ below path) = none := by
    rcases Backend.openBundleWrite_cases (b := cfg.backend) s.wall (storePath path) d with
      ⟨e, t, heq, -⟩ | ⟨e, heq⟩ | ⟨t, t', -, hgrown, hmk, -⟩
    · exact absurd (heq.symm.trans hopen) (by simp)
    · exact absurd (heq.symm.trans hopen) (by simp)
    · obtain ⟨-, hfree, -, -⟩ := Tree.mkdir_ok hmk
      rw [resolve_storePath h, normalize_spell] at hfree
      by_contra hsome
      obtain ⟨node, hnode⟩ := Option.ne_none_iff_exists'.mp hsome
      rw [hgrown.get_some hnode] at hfree
      cases hfree
  have hname : FileName (lastSegment path) :=
    ((writeStore_isOk_iff h hnone data _ _ _).mp hsome).2.2
  obtain ⟨-, hmeta, hfiles⟩ := Backend.written_ok hopen hwrite hcommit
  refine ⟨by rw [hdisk]; exact hmeta, ?_⟩
  obtain ⟨e', he', -, hread⟩ := hfiles (lastSegment path, data) (by simp [partFiles_rawParts])
  obtain rfl := List.mem_singleton.mp he'
  rw [hdisk, hread, fileLoc_lastSegment h, if_pos hname]
  simp only [List.append_cancel_left_eq, List.cons.injEq, and_true]
  rfl

private theorem putAt_of_uploadFile {a : Files.Uploaded}
    (hput : runE (exec cfg env) (Files.uploadFile cfg identity path (.raw data)) s = (.ok a, s₁)) :
    Admitted cfg path data ∧ PutAt cfg s path data s₁.disk.tree := by
  obtain ⟨hallowed, hadmitted⟩ := admitted_of_uploadFile hput
  obtain ⟨a', hrun⟩ := runE_uploadFile (s := s) hallowed hadmitted
  rw [hput] at hrun
  refine ⟨hadmitted, ?_⟩
  generalize hd : (if (cfg.backend.readBundleMeta s.disk.tree (storePath path)).isSome = true
    then cfg.backend.dropped s path else s.disk) = d at hrun
  rcases hwrite : runE (exec cfg env) (putBundle cfg path data s.nextId) (s.putting path d) with
    ⟨r, s'⟩
  rw [hwrite] at hrun
  cases r with
  | error e => cases hrun
  | ok m =>
    obtain ⟨-, rfl⟩ := Prod.mk.inj hrun
    exact writeStore_putAt hadmitted.valid hwrite

/-! ## The requests after it -/

private theorem runE_readFreshOr_missing {path : String} (s : Server) (missing : Exc)
    (h : cfg.backend.readBundleMeta s.disk.tree path = none) :
    runE (exec cfg env) (readFreshOr cfg path missing) s = (.error missing, s) := by
  have hread : runE (exec cfg env) (readBundleMeta path) s = (.ok (.error .fileNotFound), s) := by
    rw [runE_readBundleMeta_plain, h]
  have hmeta : runE (exec cfg env) (readMetaOr path missing) s = (.error missing, s) := by
    rw [readMetaOr, runE_bind_ok hread]
    rfl
  rw [readFreshOr, runE_bind, hmeta]

/-- A read before the time is up finds the manifest. -/
theorem runE_readFreshOr_fresh {path : String} {m : BundleMeta} (missing : Exc)
    (h : cfg.backend.readBundleMeta s.disk.tree path = some m)
    (hfresh : ¬PastTtl cfg m.createdAt s.reading) :
    ∃ s', runE (exec cfg env) (readFreshOr cfg path missing) s = (.ok m, s') ∧
      s'.disk = s.disk := by
  have hread : runE (exec cfg env) (readBundleMeta path) s = (.ok (.ok m), s) := by
    rw [runE_readBundleMeta_plain, h]
  have hmeta : runE (exec cfg env) (readMetaOr path missing) s = (.ok m, s) := by
    rw [readMetaOr, runE_bind_ok hread]
    rfl
  rw [readFreshOr, runE_bind_ok hmeta]
  by_cases httl : cfg.defaultTtl = 0
  · have hexpired : runE (exec cfg env) (isExpiredByMeta cfg m.createdAt) s = (.ok false, s) := by
      rw [isExpiredByMeta, if_pos httl]
      rfl
    exact ⟨s, by rw [runE_bind_ok hexpired]; rfl, rfl⟩
  · have hnow : runE (exec cfg env) now s = (.ok s.reading, s.timed) := rfl
    have hnot : ¬m.createdAt + secondsToMicros cfg.defaultTtl < s.reading :=
      fun hlt => hfresh ⟨httl, hlt⟩
    have hexpired : runE (exec cfg env) (isExpiredByMeta cfg m.createdAt) s =
        (.ok false, s.timed) := by
      rw [isExpiredByMeta, if_neg httl, runE_bind_ok hnow, decide_eq_false hnot]
      rfl
    exact ⟨s.timed, by rw [runE_bind_ok hexpired]; rfl, rfl⟩

section Requests

/-- What is admitted inline is served inline. -/
theorem evaluateDownload_putMeta (hadmitted : Admitted cfg path data) (s : Server) :
    evaluateDownload cfg.limits (putMeta cfg s path data).totalSize = .inline := by
  have hsize : (putMeta cfg s path data).totalSize = (data.length : Int) := by
    simp [BundleMeta.totalSize, putMeta, partMeta, partRecords, rawParts]
  have htotal : (uploadManifest (rawParts path data)).totalSize = (data.length : Int) := by
    simp [uploadManifest, UploadManifest.totalSize, rawParts]
  have hwithin := hadmitted.within
  unfold evaluateUpload checkManifestAgainstLimits at hwithin
  rw [htotal] at hwithin
  rw [hsize, evaluateDownload]
  by_cases hover : overCap cfg.limits.maxInlineSize data.length = true
  · rw [if_pos hover] at hwithin
    split at hwithin
    · cases hwithin
    · rename_i hmode
      split at hmode
      · cases hmode
      split at hmode
      · cases hmode
      split at hmode <;> cases hmode
    · cases hwithin
  · rw [if_neg hover]

/-- A get of a bundle that was put. -/
theorem runE_downloadFile_putAt (hvalid : validatePath defaultAllowedChars path = .ok ())
    (hread : env.check identity (.files path) .read = .ok true) (hadmitted : Admitted cfg path data)
    (h : PutAt cfg s path data s₁.disk.tree) (hfresh : ¬PastTtl cfg s.reading s₁.reading) :
    ∃ s', s'.disk = s₁.disk ∧
      runE (exec cfg env) (Files.downloadFile cfg identity path) s₁ =
        match cfg.backend.openBundleFileRead s₁.disk.tree (storePath path) (lastSegment path) with
        | some data' => (.ok (buildInlineEnvelope (putMeta cfg s path data)
            [(lastSegment path, data')]), s')
        | none => (.error (.storage .fileNotFound), s') := by
  let asked : Server := { s₁ with asked := .files path :: s₁.asked }
  have hcollected : ∀ s₂ : Server, s₂.disk = s₁.disk →
      runE (exec cfg env) (collectBundleFiles (storePath path) (putMeta cfg s path data).files) s₂ =
        match cfg.backend.openBundleFileRead s₁.disk.tree (storePath path) (lastSegment path) with
        | some data' => (.ok [(lastSegment path, data')], s₂)
        | none => (.error (.storage .fileNotFound), s₂) := by
    intro s₂ hdisk
    have hopen : runE (exec cfg env) (openBundleFileRead (storePath path) (lastSegment path)) s₂ =
        (.ok (match cfg.backend.openBundleFileRead s₁.disk.tree (storePath path)
            (lastSegment path) with
          | some data => .ok data
          | none => .error .fileNotFound), s₂) := by
      rw [← hdisk]
      rfl
    show runE (exec cfg env) (collectBundleFiles (storePath path) [_]) s₂ = _
    rw [collectBundleFiles, runE_bind_ok hopen]
    cases cfg.backend.openBundleFileRead s₁.disk.tree (storePath path) (lastSegment path) <;> rfl
  obtain ⟨s₂, hrun, hdisk⟩ : ∃ s₂, runE (exec cfg env)
      (readFreshOr cfg (storePath path) (httpNotFound path)) asked =
        (.ok (putMeta cfg s path data), s₂) ∧ s₂.disk = asked.disk :=
    runE_readFreshOr_fresh _ h.manifest hfresh
  refine ⟨s₂, hdisk, ?_⟩
  rw [Files.downloadFile, runE_bind_ok (runE_validateOr hvalid badPath s₁),
    runE_bind_ok (runE_enforce_ok hread httpForbidden s₁), runE_bind_ok hrun]
  simp only [evaluateDownload_putMeta hadmitted]
  rw [runE_bind, hcollected s₂ hdisk]
  cases cfg.backend.openBundleFileRead s₁.disk.tree (storePath path) (lastSegment path) <;> rfl

/-- A delete of a bundle that was put, and a get after it. -/
theorem runE_deleteFile_putAt (hvalid : validatePath defaultAllowedChars path = .ok ())
    (hdelete : env.check identity (.files path) .delete = .ok true)
    (hread : env.check identity (.files path) .read = .ok true)
    (h : PutAt cfg s path data s₁.disk.tree) :
    ∃ s₂ s₃, runE (exec cfg env) (Files.deleteFile identity path) s₁ = (.ok (), s₂) ∧
      runE (exec cfg env) (Files.downloadFile cfg identity path) s₂ =
        (.error (httpNotFound path), s₃) := by
  have hspell := resolve_storePath (b := cfg.backend) hvalid
  have hne := storeLoc_ne_nil cfg.backend (below path)
  have hmeta := h.manifest
  rw [Backend.readBundleMeta_eq hspell] at hmeta
  have hdir : s₁.disk.tree.dirAt (cfg.backend.storeLoc ++ below path) = true :=
    Tree.dirAt_iff.mpr (Backend.dir_of_metaAt hmeta)
  let gone : Disk := s₁.disk.setTree s₁.wall
    (s₁.disk.tree.remove (cfg.backend.storeLoc ++ below path))
  let s₂ : Server := { s₁ with asked := .files path :: s₁.asked, disk := gone }
  have hremoved : runE (exec cfg env) (deleteOr (storePath path) (httpNotFound path))
      { s₁ with asked := .files path :: s₁.asked } = (.ok (), s₂) := by
    rw [runE_deleteOr, Backend.deleteBundle_spelled hspell hne, if_pos hdir]
    rfl
  have hnone : cfg.backend.readBundleMeta gone.tree (storePath path) = none := by
    have hfile :
      gone.tree.fileAt (cfg.backend.storeLoc ++ below path ++ [bundleManifest]) = none := by
      rw [Tree.fileAt, Disk.setTree_tree,
        Tree.get_remove _ _ (by simp), if_pos (List.prefix_append _ _)]
    rw [Backend.readBundleMeta_eq hspell, Backend.metaAt, hfile]
    rfl
  refine ⟨s₂, { s₂ with asked := .files path :: s₂.asked }, ?_, ?_⟩
  · rw [Files.deleteFile, runE_bind_ok (runE_validateOr hvalid badPath s₁),
      runE_bind_ok (runE_enforce_ok hdelete httpForbidden s₁), hremoved]
  · rw [Files.downloadFile, runE_bind_ok (runE_validateOr hvalid badPath s₂),
      runE_bind_ok (runE_enforce_ok hread httpForbidden s₂), runE_bind,
      runE_readFreshOr_missing _ _ hnone]

private theorem runE_getFile_plain (h : endsWith path "/peek" = false) (s : Server) :
    runE (exec cfg env) (Files.getFile cfg identity path) s =
      match runE (exec cfg env) (Files.downloadFile cfg identity path) s with
      | (.ok e, s') => (.ok (.file e), s')
      | (.error e, s') => (.error e, s') := by
  rw [Files.getFile, h]
  simp only [Bool.false_eq_true, if_false]
  rw [runE_bind]
  rcases runE (exec cfg env) (Files.downloadFile cfg identity path) s with ⟨r, s'⟩
  cases r <;> rfl

end Requests

/-! ## The round trip -/

/-- What comes back behind the routes is what comes back at the path they find. -/
theorem comesBack_routed (hpath : pathParam rest = some path) :
    ComesBack cfg env identity rest data s ↔
      let got := runE (exec cfg env) (Files.getFile cfg identity path) s
      let deleted := runE (exec cfg env) (Files.deleteFile identity path) got.2
      let again := runE (exec cfg env) (Files.getFile cfg identity path) deleted.2
      (∃ m name content, got.1 = .ok (.file (.inline m [(name, content)])) ∧
          content.decoded = some data) ∧
        deleted.1 = .ok () ∧ ∃ detail, again.1 = .error (.http 404 detail) := by
  simp only [ComesBack, Files.routedGet, Files.routedDelete, hpath, routed_some]

/-- A get of a path that ends in `/peek` is taken for a peek. -/
theorem getFile_peek (h : endsWith path "/peek" = true) (e : Envelope) :
    (runE (exec cfg env) (Files.getFile cfg identity path) s).1 ≠ .ok (.file e) := by
  rw [Files.getFile, if_pos h, runE_bind]
  rcases runE (exec cfg env) (Files.peekStoreFile cfg identity
    (String.ofList (path.toList.take (path.length - 5)))) s with ⟨r, s'⟩
  cases r <;> simp

/-- A get refuses the characters it does not know. -/
theorem getFile_refused (hpeek : endsWith path "/peek" = false)
    (h : validatePath defaultAllowedChars path ≠ .ok ()) (e : Envelope) :
    (runE (exec cfg env) (Files.getFile cfg identity path) s).1 ≠ .ok (.file e) := by
  cases hv : validatePath defaultAllowedChars path with
  | ok u => exact absurd hv h
  | error refusal =>
    rw [runE_getFile_plain hpeek, Files.downloadFile, runE_bind, validateOr, hv]
    simp

/-- At a path a get takes, what comes back is what is read under the last segment. -/
theorem comesBack_iff_read (hpath : pathParam rest = some path)
    (hpeek : endsWith path "/peek" = false)
    (hvalid : validatePath defaultAllowedChars path = .ok ())
    (hread : env.check identity (.files path) .read = .ok true)
    (hdelete : env.check identity (.files path) .delete = .ok true)
    (hadmitted : Admitted cfg path data) (hat : PutAt cfg s path data s₁.disk.tree)
    (hfresh : ¬PastTtl cfg s.reading s₁.reading) :
    ComesBack cfg env identity rest data s₁ ↔
      cfg.backend.openBundleFileRead s₁.disk.tree (storePath path) (lastSegment path) =
        some data := by
  rw [comesBack_routed hpath]
  obtain ⟨s₂, hdisk, hget⟩ := runE_downloadFile_putAt hvalid hread hadmitted hat hfresh
  cases hfile : cfg.backend.openBundleFileRead s₁.disk.tree (storePath path)
    (lastSegment path) with
  | none =>
    rw [hfile] at hget
    simp only [runE_getFile_plain hpeek, hget]
    simp
  | some stored =>
    rw [hfile] at hget
    obtain ⟨content, henv, hdecoded⟩ :=
      buildInlineEnvelope_single (putMeta cfg s path data) (lastSegment path) stored
    simp only [henv] at hget
    have hat₂ : PutAt cfg s path data s₂.disk.tree := by
      rw [hdisk]
      exact hat
    obtain ⟨s₃, s₄, hdel, hagain⟩ := runE_deleteFile_putAt hvalid hdelete hread hat₂
    simp only [runE_getFile_plain hpeek, hget, hdel, hagain]
    constructor
    · rintro ⟨⟨m, name, content', henv', hbody⟩, -⟩
      obtain ⟨rfl, rfl, rfl⟩ : _ = m ∧ _ = name ∧ content = content' := by simpa using henv'
      rw [← hdecoded, hbody]
    · rintro hsame
      refine ⟨⟨_, _, content, rfl, ?_⟩, trivial, _, rfl⟩
      rw [hdecoded, hsame]

/-- A raw body that was put comes back at the same URL path, before its time is up and to a caller
who may read and delete it, if and only if the default characters allow the path that the route
finds in it, that path is not the one of a peek, and the body was not filed under a name of the
writer's own. -/
theorem put_comesBack_iff {a : Files.Uploaded} (hpath : pathParam rest = some path)
    (hput : runE (exec cfg env) (Files.routedUpload cfg identity rest (.raw data)) s = (.ok a, s₁))
    (hread : env.check identity (.files path) .read = .ok true)
    (hdelete : env.check identity (.files path) .delete = .ok true)
    (hfresh : ¬PastTtl cfg s.reading s₁.reading) :
    ComesBack cfg env identity rest data s₁ ↔
      validatePath defaultAllowedChars path = .ok () ∧ endsWith path "/peek" = false ∧
        lastSegment path ≠ bundleManifestTmp ∧
        (lastSegment path = bundleManifest →
          cfg.backend.dumps (putMeta cfg s path data) = data) := by
  rw [Files.routedUpload, hpath, routed_some] at hput
  obtain ⟨hadmitted, hat⟩ := putAt_of_uploadFile hput
  by_cases hpeek : endsWith path "/peek" = true
  · simp only [hpeek, Bool.true_eq_false, false_and, and_false, iff_false, comesBack_routed hpath]
    rintro ⟨⟨m, name, content, hgot, -⟩, -⟩
    exact getFile_peek hpeek _ hgot
  rw [Bool.not_eq_true] at hpeek
  by_cases hvalid : validatePath defaultAllowedChars path = .ok ()
  swap
  · simp only [hvalid, false_and, iff_false, comesBack_routed hpath]
    rintro ⟨⟨m, name, content, hgot, -⟩, -⟩
    exact getFile_refused hpeek hvalid _ hgot
  rw [comesBack_iff_read hpath hpeek hvalid hread hdelete hadmitted hat hfresh, hat.content]
  simp only [hvalid, hpeek, true_and]
  by_cases hman : lastSegment path = bundleManifest
  · have htmp : bundleManifest ≠ bundleManifestTmp := by decide
    simp [hman, htmp]
  · by_cases htmp : lastSegment path = bundleManifestTmp
    · simp [htmp, Backend.tmp_ne_manifest]
    · simp [hman, htmp]

/-- A byte put at `a/b`, with a newline after it in the URL. -/
theorem put_comesBack_small :
    ∃ a s₁, runE (exec oneByteConfig .core)
        (Files.routedUpload oneByteConfig alice "a/b\n" (.raw [7])) srvSystem.server = (.ok a, s₁) ∧
      ComesBack oneByteConfig .core alice "a/b\n" [7] s₁ := by
  have hok : (runE (exec oneByteConfig .core) (Files.routedUpload oneByteConfig alice "a/b\n"
      (.raw [7])) srvSystem.server).1.toOption.isSome = true := by decide +kernel
  rcases hput : runE (exec oneByteConfig .core)
    (Files.routedUpload oneByteConfig alice "a/b\n" (.raw [7])) srvSystem.server with ⟨r, s₁⟩
  rw [hput] at hok
  cases r with
  | error e => cases hok
  | ok a =>
    have hfresh : ¬PastTtl oneByteConfig srvSystem.server.reading s₁.reading := fun h => h.1 rfl
    have hcond : validatePath defaultAllowedChars "a/b" = .ok () ∧
        endsWith "a/b" "/peek" = false ∧ lastSegment "a/b" ≠ bundleManifestTmp ∧
        (lastSegment "a/b" = bundleManifest → oneByteConfig.backend.dumps
          (putMeta oneByteConfig srvSystem.server "a/b" [7]) = [7]) := by
      refine ⟨by decide, by decide, by decide, fun hman => absurd hman (by decide)⟩
    exact ⟨a, s₁, rfl, (put_comesBack_iff (by decide) hput rfl rfl hfresh).mpr hcond⟩

/-- The same server with one more character in paths. -/
def spacedConfig : Config :=
  { oneByteConfig with allowedPathChars := fun c => defaultAllowedChars c || c = ' ' }

/-- A put takes the configured characters; a get knows only the default ones. -/
theorem put_lost :
    (runE (exec spacedConfig .core) (Files.routedUpload spacedConfig alice "a b" (.raw [7]))
        srvSystem.server).1 = .ok ⟨"a b", 1, false⟩ ∧
      (runE (exec spacedConfig .core) (Files.routedGet spacedConfig alice "a b")
        (runE (exec spacedConfig .core) (Files.routedUpload spacedConfig alice "a b" (.raw [7]))
          srvSystem.server).2).1.toOption.isNone = true ∧
      ¬ComesBack spacedConfig .core alice "a b" [7]
        (runE (exec spacedConfig .core) (Files.routedUpload spacedConfig alice "a b" (.raw [7]))
          srvSystem.server).2 := by
  have hget : (runE (exec spacedConfig .core) (Files.routedGet spacedConfig alice "a b")
      (runE (exec spacedConfig .core) (Files.routedUpload spacedConfig alice "a b" (.raw [7]))
        srvSystem.server).2).1.toOption.isNone = true := by decide +kernel
  refine ⟨by decide +kernel, hget, ?_⟩
  rintro ⟨⟨m, name, content, hgot, -⟩, -⟩
  rw [hgot] at hget
  cases hget

end Cassetta
