import Cassetta.Guarantee.TwoPhase
import Cassetta.Server.Staging

/-!
# All of a batch upload or nothing

The entries of a tar come as the client likes. The checks are spread over the loop that reads
them, the writer and the commit, and each of them ends in an abort. An abort takes the bundle
directory away; a directory that was made on the way to the bundle is not, and it may be the
bundle's own place when the recipient leads through it and back.
-/

namespace Cassetta

open FileTree Prog

variable {cfg : Config} {env : Environment}

/-! ## The property and the condition -/

/-- The entries are regular files, a permutation of a manifest, with the declared sizes in the
header and in fact and within the cap on each file. -/
structure Upload.Delivers (cfg : Config) (files : List ManifestFile)
    (infos : List Upload.TarEntry) : Prop where
  regular : ∀ info ∈ infos, info.isReg = true
  declared : (infos.map fun i => (i.name, i.size)).Perm (files.map fun f => (f.name, f.size))
  actual : ∀ info ∈ infos, (info.data.length : Int) = info.size
  capped : ∀ info ∈ infos, info.size ≤ Upload.perFileCap cfg

/-- One more commit than before: that of the session's bundle with the bytes of the entries, and
its manifest in place. -/
def SendInitResult.Stored (cfg : Config) (r : SendInitResult) (files : List ManifestFile)
    (written : List (String × Bytes)) (s s' : Server) : Prop :=
  ∃ m, s'.disk.commits = s.disk.commits ++ [⟨cfg.backend.location r.bundlePath, m, written⟩] ∧
    m.bundleId = r.bundleId ∧
    m.files.map (fun f => (f.name, f.size)) = files.map (fun f => (f.name, f.size)) ∧
    cfg.backend.readBundleMeta s'.disk.tree r.bundlePath = some m

/-- An upload that answers 201 was given the declared files and has committed them; any other
leaves nothing at the path. No file elsewhere is touched. -/
structure SendInitResult.AllOrNothing (cfg : Config) (r : SendInitResult)
    (files : List ManifestFile) (infos : List Upload.TarEntry) (end_ : Upload.TarEnd) (s : Server)
    (x : Except Exc Unit × Server) : Prop where
  all : x.1 = .ok () → end_ = .complete ∧ Upload.Delivers cfg files infos ∧
    r.Stored cfg files (infos.map fun i => (i.name, i.data)) s x.2
  nothing : x.1 ≠ .ok () → x.2.disk.tree.get (cfg.backend.location r.bundlePath) = none ∧
    x.2.disk.commits = s.disk.commits
  elsewhere : ∀ q, ¬cfg.backend.location r.bundlePath <+: q →
    x.2.disk.tree.fileAt q = s.disk.tree.fileAt q

/-- Where the collision check lets the bundle through, the way to it does not make it. -/
def SendInitResult.Untouched (cfg : Config) (r : SendInitResult) (s : Server) : Prop :=
  cfg.backend.checkBundlePathCollision s.disk.tree (cfg.backend.resolve r.bundlePath) = none →
    cfg.backend.StaysFree s.disk.tree r.bundlePath

instance (r : SendInitResult) (s : Server) : Decidable (r.Untouched cfg s) :=
  inferInstanceAs (Decidable (_ → _))

/-! ## What failures leave -/

namespace Upload

variable {s : Server} {path : String} {before : Disk}

/-- An open that was refused. -/
def Refused (b : Backend) (path : String) (before d : Disk) : Prop :=
  d.commits = before.commits ∧
    (d.tree = before.tree ∨
      b.checkBundlePathCollision before.tree (b.resolve path) = none ∧
        d.tree = b.above before.tree path)

/-- The upload of a session comes to an open writer, or nothing or little has happened. -/
theorem stages_begin {claims : Claims} {key : SigningKey} {bundleId : Id} (param : String)
    (hid : claims.bundleId = some bundleId) :
    wpE (exec cfg env) (fun _ _ => True) (begin (some (.signed claims key)) param)
      (fun task s' => task.manifestFiles = claims.manifest.getD [] ∧
        Staged cfg.backend (claims.bundlePath.getD "") s.disk task.handle s'.disk)
      (fun _ s' => Refused cfg.backend (claims.bundlePath.getD "") s.disk s'.disk) s := by
  rw [begin]
  simp only [wpE_bind]
  refine wpE_mono ?_ (fun e s' hd => ⟨by rw [hd], .inl (by rw [hd])⟩)
    (wpE_verifyToken_disk (.signed claims key) mapJwtError s)
  rintro claims' s₁ ⟨hdisk, key', htok⟩
  obtain ⟨rfl, rfl⟩ := Token.signed.inj htok
  have hrefused : Refused cfg.backend (claims.bundlePath.getD "") s.disk s₁.disk :=
    ⟨by rw [hdisk], .inl (by rw [hdisk])⟩
  split
  · exact hrefused
  split
  · exact hrefused
  simp only [hid, wpE_bind, wpE_openBundleWrite, true_and]
  rw [hdisk]
  rcases hopen : cfg.backend.openBundleWrite s₁.wall (claims.bundlePath.getD "") s.disk with ⟨r, d'⟩
  cases r with
  | ok k => exact ⟨rfl, .openBundleWrite hopen⟩
  | error e =>
    have hd' : Refused cfg.backend (claims.bundlePath.getD "") s.disk d' := by
      obtain ⟨hcommits, ⟨-, htree⟩ | ⟨hcheck, htree⟩⟩ := Backend.openBundleWrite_error hopen
      · exact ⟨hcommits, .inl htree⟩
      · exact ⟨hcommits, .inr ⟨hcheck, htree⟩⟩
    cases e with
    | osError e => cases e <;> exact hd'
    | fileNotFound => exact hd'
    | bundlePathConflict p k => exact hd'
    | valueError v => exact hd'

/-- An entry is written, or the upload is undone. -/
theorem stages_entry {task : Task} (info : TarEntry)
    (hnames : ∀ name f, byName task.manifestFiles name = some f → Downward name)
    (h : Staged cfg.backend path before task.handle s.disk) :
    wpE (exec cfg env) (fun _ _ => True) (entry cfg task info)
      (fun task' s' => task' = task.after info ∧
        Staged cfg.backend path before task.handle s'.disk)
      (fun _ s' => Undone cfg.backend path before s'.disk) s := by
  refine Staged.wpE_orAbort ?_
  split
  · exact h
  cases hf : byName task.manifestFiles info.name with
  | none => exact h
  | some f =>
    dsimp only
    split
    · exact h
    split
    · exact h
    split
    · exact h
    simp only [wpE_bind, wpE_pure]
    exact wpE_mono (fun _ s' hs => ⟨rfl, hs⟩) (fun _ s' hs => hs)
      (h.wpE_writeFile info.data (hnames _ f hf))

private theorem stages_streamTar {task : Task} (infos : List TarEntry)
    (hnames : ∀ name f, byName task.manifestFiles name = some f → Downward name)
    (h : Staged cfg.backend path before task.handle s.disk) :
    wpE (exec cfg env) (fun _ _ => True) (streamTar cfg task infos)
      (fun task' s' => task'.handle = task.handle ∧
        Staged cfg.backend path before task.handle s'.disk)
      (fun _ s' => Undone cfg.backend path before s'.disk) s := by
  induction infos generalizing task s with
  | nil => exact ⟨rfl, h⟩
  | cons info rest ih =>
    simp only [streamTar, wpE_bind]
    refine wpE_mono ?_ (fun _ _ hs => hs) (stages_entry info hnames h)
    rintro task' s' ⟨rfl, hs⟩
    exact ih hnames hs

private theorem stages_finish {task : Task} (end_ : TarEnd)
    (h : Staged cfg.backend path before task.handle s.disk) :
    wpE (exec cfg env) (fun _ _ => True) (finish task end_)
      (fun _ s' => ∀ q, ¬cfg.backend.location path <+: q →
        s'.disk.tree.get q = (cfg.backend.above before.tree path).get q)
      (fun _ s' => Undone cfg.backend path before s'.disk) s := by
  refine Staged.wpE_orAbort ?_
  cases end_ with
  | tarError => exact h
  | broken => exact h
  | complete =>
    dsimp only
    split
    · exact h
    · simp only [wpE_bind, wpE_now, true_and]
      exact Staged.wpE_commit _ h

end Upload

/-! ## Sessions -/

namespace Granted

variable {path : String} {raw : SendManifest} {r : SendInitResult} {manifest : UploadManifest}
  {recipient sender : String} {iat : Nat} {jti : Id} {s : Server}

/-- What the manifest of a session lists is declared, and goes straight down. -/
theorem declared_of_byName (h : Granted cfg path raw r manifest recipient sender iat jti)
    {name : String} {f : FileRecord}
    (hf : Upload.byName (enrichManifestMimes cfg manifest) name = some f) :
    Downward name ∧ (name, f.size) ∈ raw.files.map fun g => (g.name, g.size) := by
  unfold Upload.byName at hf
  have hmem : f ∈ enrichManifestMimes cfg manifest := by simpa using List.mem_of_find?_eq_some hf
  have hname : f.name = name := by simpa using List.find?_some hf
  rw [enrichManifestMimes, (parseManifest_ok h.parsed).1] at hmem
  obtain ⟨g, hg, rfl⟩ := List.mem_map.mp hmem
  obtain rfl : g.name = name := hname
  exact ⟨h.downward (List.mem_map_of_mem hg), List.mem_map.mpr ⟨g, hg, rfl⟩⟩

/-- Entries that are all listed, with names that are all different and all there, are the declared
files. -/
theorem delivers (h : Granted cfg path raw r manifest recipient sender iat jti)
    {infos : List Upload.TarEntry}
    (hlisted : ∀ info ∈ infos, Upload.Listed (enrichManifestMimes cfg manifest) info)
    (hcaps : ∀ info ∈ infos, info.size ≤ Upload.perFileCap cfg)
    (hseen : ∀ f ∈ enrichManifestMimes cfg manifest, f.name ∈ infos.map (·.name))
    (hnodup : (infos.map (·.name)).Nodup) : Upload.Delivers cfg raw.files infos := by
  have hpairs : ∀ {α : Type} (l : List α) (name : α → String) (size : α → Int),
      (l.map name).Nodup → (l.map fun x => (name x, size x)).Nodup := by
    intro α l name size hn
    apply List.Nodup.of_map Prod.fst
    rwa [List.map_map]
  refine ⟨fun info hi => (hlisted info hi).1, ?_, fun info hi => ?_, hcaps⟩
  · apply (List.perm_ext_iff_of_nodup (hpairs infos _ _ hnodup) (hpairs raw.files _ _ h.nodup)).mpr
    rintro ⟨name, size⟩
    constructor
    · intro hmem
      obtain ⟨info, hi, heq⟩ := List.mem_map.mp hmem
      obtain ⟨rfl, rfl⟩ := Prod.mk.inj heq
      obtain ⟨-, f, hf, hsize, -⟩ := hlisted info hi
      rw [hsize]
      exact (h.declared_of_byName hf).2
    · intro hmem
      obtain ⟨g, hg, heq⟩ := List.mem_map.mp hmem
      obtain ⟨rfl, rfl⟩ := Prod.mk.inj heq
      have hg' := h.byName_declared hg
      have hin : (⟨g.name, g.size, cfg.pickMime g.name g.mime⟩ : FileRecord) ∈
          enrichManifestMimes cfg manifest := by
        simpa using List.mem_of_find?_eq_some hg'
      obtain ⟨info, hi, hname⟩ := List.mem_map.mp (hseen _ hin)
      obtain ⟨-, f, hf, hsize, -⟩ := hlisted info hi
      rw [hname, hg'] at hf
      obtain rfl := Option.some.inj hf
      exact List.mem_map.mpr ⟨info, hi, Prod.ext hname hsize⟩
  · obtain ⟨-, f, -, hsize, hlen⟩ := hlisted info hi
    rw [hlen, hsize]

/-- An upload that is answered with 201 was given the declared files and has committed them. -/
theorem stored_of_returns (h : Granted cfg path raw r manifest recipient sender iat jti)
    {infos : List Upload.TarEntry} {end_ : Upload.TarEnd} {param : String} {s' : Server}
    (hmode : r.mode = .batch) (hiat : secondsToMicros iat ≤ s.reading)
    (hexp : s.reading < secondsToMicros r.expiresAt)
    (hrun : Returns (exec cfg env) (Upload.uploadBundle cfg (some r.token) param infos end_)
      (fun _ s₁ => s₁ = s') s) :
    end_ = .complete ∧ Upload.Delivers cfg raw.files infos ∧
      r.Stored cfg raw.files (infos.map fun i => (i.name, i.data)) s s' := by
  obtain ⟨-, ⟨rfl, hinfos, hseen⟩, -, k, d₁, d₂, d₃, hopen, hwr, hc, rfl⟩ :=
    (h.returns_upload (refusing_exec cfg env) hmode (h.timely hiat hexp)).mp hrun
  have hdown : ∀ e ∈ infos.map fun i => (i.name, i.data), Downward e.1 := by
    intro e he
    obtain ⟨info, hi, rfl⟩ := List.mem_map.mp he
    obtain ⟨-, f, hf, -⟩ := (hinfos info hi).1
    exact (h.declared_of_byName hf).1
  have hnodup : (infos.map (·.name)).Nodup := by
    have hfresh := Backend.writeAll_nodup (Backend.openBundleWrite_laid hopen).1 List.nodup_nil hwr
    rwa [List.nil_append, List.map_map] at hfresh
  obtain ⟨hcommits, hmeta⟩ := Backend.layout_committed hopen hwr hc hdown
  have hdelivers :=
    h.delivers (fun info hi => (hinfos info hi).1) (fun info hi => (hinfos info hi).2)
    hseen hnodup
  refine ⟨rfl, hdelivers, _, hcommits, rfl, ?_, hmeta⟩
  rw [sessionMeta, enrichManifestMimes, (parseManifest_ok h.parsed).1, List.map_map]
  rfl

variable (env) in
/-- What an upload leaves outside the bundle, and what it leaves when it fails. -/
theorem leaves (h : Granted cfg path raw r manifest recipient sender iat jti) (param : String)
    (infos : List Upload.TarEntry) (end_ : Upload.TarEnd) (s : Server) :
    wpE (exec cfg env) (fun _ _ => True)
      (Upload.uploadBundle cfg (some r.token) param infos end_)
      (fun _ s' => ∀ q, ¬cfg.backend.location r.bundlePath <+: q →
        s'.disk.tree.get q = (cfg.backend.above s.disk.tree r.bundlePath).get q)
      (fun _ s' => Upload.Refused cfg.backend r.bundlePath s.disk s'.disk ∨
        Undone cfg.backend r.bundlePath s.disk s'.disk ∧
          (cfg.backend.above s.disk.tree r.bundlePath).get
            (cfg.backend.location r.bundlePath) = none) s := by
  have hpathClaim :
    (sessionClaims cfg path r manifest recipient sender iat jti).bundlePath.getD "" =
      r.bundlePath := h.bundlePath_eq.symm
  have hbegin := @Upload.stages_begin cfg env s
    (sessionClaims cfg path r manifest recipient sender iat jti) cfg.jwtPrimaryKey _ param rfl
  rw [hpathClaim] at hbegin
  rw [h.token, Upload.uploadBundle]
  simp only [wpE_bind]
  refine wpE_mono ?_ (fun _ _ hs => .inl hs) hbegin
  rintro task s₁ ⟨hfiles, hs⟩
  have hnames : ∀ name f, Upload.byName task.manifestFiles name = some f → Downward name := by
    intro name f hf
    rw [hfiles] at hf
    exact (h.declared_of_byName hf).1
  refine wpE_mono ?_ (fun _ _ hs' => .inr ⟨hs', hs.free⟩) (Upload.stages_streamTar infos hnames hs)
  rintro task' s₂ ⟨hhandle, hs₂⟩
  rw [← hhandle] at hs₂
  exact wpE_mono (fun _ _ hs' => hs') (fun _ _ hs' => .inr ⟨hs', hs.free⟩)
    (Upload.stages_finish end_ hs₂)

/-- A session whose path stays free is all or nothing. -/
theorem allOrNothing (h : Granted cfg path raw r manifest recipient sender iat jti) {s : Server}
    (hmode : r.mode = .batch) (hiat : secondsToMicros iat ≤ s.reading)
    (hexp : s.reading < secondsToMicros r.expiresAt)
    (hfree : s.disk.tree.get (cfg.backend.location r.bundlePath) = none)
    (hun : r.Untouched cfg s) (param : String) (infos : List Upload.TarEntry)
    (end_ : Upload.TarEnd) :
    r.AllOrNothing cfg raw.files infos end_ s
      (runE (exec cfg env) (Upload.uploadBundle cfg (some r.token) param infos end_) s) := by
  have hleaves := h.leaves env param infos end_ s
  have hgrown := @Backend.grown_above cfg.backend s.disk.tree r.bundlePath
  rcases hrun : runE (exec cfg env) (Upload.uploadBundle cfg (some r.token) param infos end_) s with
    ⟨e | u, s'⟩
  · have hnothing : s'.disk.tree.get (cfg.backend.location r.bundlePath) = none ∧
        s'.disk.commits = s.disk.commits ∧ s'.disk.tree.fileAt = s.disk.tree.fileAt := by
      rcases wpE_error hleaves hrun with ⟨hcommits, htree | ⟨hcheck, htree⟩⟩ | ⟨hundone, hnone⟩
      · rw [htree]
        exact ⟨hfree, hcommits, rfl⟩
      · rw [htree, Backend.above_location hfree, if_pos (hun hcheck)]
        exact ⟨rfl, hcommits, hgrown.fileAt_eq⟩
      · refine ⟨(hundone.tree _).trans hnone, hundone.commits, ?_⟩
        rw [← hgrown.fileAt_eq]
        funext q
        simp only [Tree.fileAt, hundone.tree]
    exact ⟨by rintro ⟨⟩, fun _ => ⟨hnothing.1, hnothing.2.1⟩, fun q _ => by rw [hnothing.2.2]⟩
  · have houtside := wpE_ok hleaves hrun
    have hreturns : Returns (exec cfg env)
        (Upload.uploadBundle cfg (some r.token) param infos end_) (fun _ s₁ => s₁ = s') s := by
      rw [Returns, wpE_iff_run, hrun]
      exact ⟨wpE_trivial _, rfl⟩
    refine ⟨fun _ => h.stored_of_returns hmode hiat hexp hreturns, fun hne => absurd rfl hne,
      fun q hq => ?_⟩
    rw [← hgrown.fileAt_eq]
    simp only [Tree.fileAt, houtside q hq]

variable (env) in
/-- A bundle that is made on the way to it is refused, and stays. -/
theorem occupied (h : Granted cfg path raw r manifest recipient sender iat jti) {s : Server}
    (hmode : r.mode = .batch) (hiat : secondsToMicros iat ≤ s.reading)
    (hexp : s.reading < secondsToMicros r.expiresAt)
    (hkey : cfg.jwtPrimaryKey = s.slots.primary ∨
      (resolveSecondary s.slots s.mono).1 = some cfg.jwtPrimaryKey)
    (hcheck : cfg.backend.checkBundlePathCollision s.disk.tree
      (cfg.backend.resolve r.bundlePath) = none)
    (hmade : (cfg.backend.above s.disk.tree r.bundlePath).get
      (cfg.backend.location r.bundlePath) = some .dir)
    (infos : List Upload.TarEntry) (end_ : Upload.TarEnd) :
    wpE (exec cfg env) (fun _ _ => True)
      (Upload.uploadBundle cfg (some r.token) (Percent.quote r.bundlePath) infos end_)
      (fun _ _ => False)
      (fun _ s' => s'.disk.tree.get (cfg.backend.location r.bundlePath) = some .dir) s := by
  have hmodeClaim : (sessionClaims cfg path r manifest recipient sender iat jti).mode =
      some .batch := congrArg some hmode
  have hpathClaim :
    (sessionClaims cfg path r manifest recipient sender iat jti).bundlePath.getD "" =
      r.bundlePath := h.bundlePath_eq.symm
  have hidClaim : (sessionClaims cfg path r manifest recipient sender iat jti).bundleId =
      some r.bundleId := rfl
  have hverify : Returns (exec cfg env)
      (verifyToken (.signed (sessionClaims cfg path r manifest recipient sender iat jti)
        cfg.jwtPrimaryKey) Upload.mapJwtError)
      (fun claims s₁ => claims = sessionClaims cfg path r manifest recipient sender iat jti ∧
        s₁ = s.verified cfg env) s :=
    (returns_verifyToken (h.timely hiat hexp)).mpr ⟨hkey, rfl, rfl⟩
  rw [h.token, Upload.uploadBundle, Upload.begin]
  simp only [wpE_bind]
  refine wpE_mono ?_ (fun _ _ hfalse => hfalse.elim) hverify
  rintro claims s₁ ⟨rfl, rfl⟩
  obtain ⟨e, d', hopen⟩ := Backend.openBundleWrite_occupied (b := cfg.backend)
    (s.verified cfg env).wall hcheck hmade
  have hget : d'.tree.get (cfg.backend.location r.bundlePath) = some .dir := by
    rcases (Backend.openBundleWrite_error hopen).2 with ⟨hno, -⟩ | ⟨-, htree⟩
    · exact absurd hcheck hno
    · rw [htree, hmade]
  have hdisk : (s.verified cfg env).disk = s.disk := rfl
  simp only [hmodeClaim, hpathClaim, hidClaim, Percent.unquote_quote, ne_eq, not_true_eq_false,
    if_false, wpE_bind, wpE_openBundleWrite, true_and, hdisk, hopen]
  cases e with
  | osError e => cases e <;> exact hget
  | fileNotFound => exact hget
  | bundlePathConflict p k => exact hget
  | valueError v => exact hget

end Granted

/-- At a free path and before its session expires, every upload is all or nothing, whatever the
entries and however the tar ends, exactly where the way to the bundle cannot make its place. -/
theorem upload_allOrNothing_iff {to_ path : String} {raw : SendManifest} {identity : Identity}
    {label : Option String} {allowInline : Bool} {r : SendInitResult} {s₀ s₁ s : Server}
    (hinit : runE (exec cfg env) (prepareSendInit cfg to_ path raw identity label allowInline) s₀ =
      (.ok r, s₁))
    (hmode : r.mode = .batch) (hafter : s₁.wall ≤ s.wall)
    (hexp : s.reading < secondsToMicros r.expiresAt)
    (hkey : cfg.jwtPrimaryKey = s.slots.primary ∨
      (resolveSecondary s.slots s.mono).1 = some cfg.jwtPrimaryKey)
    (hfree : s.disk.tree.get (cfg.backend.location r.bundlePath) = none) :
    (∀ (param : String) (infos : List Upload.TarEntry) (end_ : Upload.TarEnd),
      r.AllOrNothing cfg raw.files infos end_ s
        (runE (exec cfg env) (Upload.uploadBundle cfg (some r.token) param infos end_) s)) ↔
      r.Untouched cfg s := by
  obtain ⟨manifest, recipient, sender, iat, jti, hg, hiat⟩ :=
    wpE_ok (ensures_prepareSendInit to_ path raw identity label allowInline) hinit
  have hiat' : secondsToMicros iat ≤ s.reading :=
    hiat.trans (hafter.trans (Nat.le_add_right _ _))
  constructor
  · intro hall hcheck
    by_contra hstays
    have hmade : (cfg.backend.above s.disk.tree r.bundlePath).get
        (cfg.backend.location r.bundlePath) = some .dir := by
      rw [Backend.above_location hfree, if_neg hstays]
    have hoccupied := hg.occupied env hmode hiat' hexp hkey hcheck hmade [] .complete
    have hrun := hall (Percent.quote r.bundlePath) [] .complete
    rcases hx : runE (exec cfg env) (Upload.uploadBundle cfg (some r.token)
      (Percent.quote r.bundlePath) [] .complete) s with ⟨e | u, s'⟩
    · rw [hx] at hrun
      have hdir := wpE_error hoccupied hx
      rw [(hrun.nothing nofun).1] at hdir
      cases hdir
    · exact (wpE_ok hoccupied hx).elim
  · exact fun hun param infos end_ => hg.allOrNothing hmode hiat' hexp hfree hun param infos end_

/-! ## On a small server -/

/-- A tar of one file for the session of one file. -/
def smallTarRun : Except Exc Unit × Server :=
  runE (exec srvConfig .core) (Upload.uploadBundle srvConfig (some (smallSession ["a"]).token)
    "inbox%2Fbob%3Ab%2Fp" [⟨"a", true, 1, [1]⟩] .complete) srvSystem.server

/-- A small upload, with all of its one file. -/
theorem upload_allOrNothing_small :
    (smallSession ["a"]).AllOrNothing srvConfig (smallManifest ["a"]).files [⟨"a", true, 1, [1]⟩]
      .complete srvSystem.server smallTarRun := by
  have hinit : (smallInit ["a"]).1 = .ok (smallSession ["a"]) := by decide +kernel
  have hrun : smallInit ["a"] = (.ok (smallSession ["a"]), (smallInit ["a"]).2) :=
    Prod.ext hinit rfl
  have hafter : (smallInit ["a"]).2.wall ≤ srvSystem.server.wall := by decide +kernel
  have hfree : srvSystem.server.disk.tree.get
      (srvConfig.backend.location (smallSession ["a"]).bundlePath) = none := by decide +kernel
  have huntouched : (smallSession ["a"]).Untouched srvConfig srvSystem.server := by decide +kernel
  exact Iff.mpr (upload_allOrNothing_iff hrun rfl hafter (by decide +kernel) (.inl rfl) hfree)
    huntouched _ _ _

/-- The session for a recipient whose name leads through the bundle and back. -/
def twistedSession : SendInitResult where
  bundleId := 0
  mode := .batch
  token := .signed
    { uploadClaims "inbox/b/p/../p" 0 "alice:a" "b/p/.." .batch
        [⟨"a", 1, "application/octet-stream"⟩] 300 5 with jti := some 1 }
    srvConfig.jwtPrimaryKey
  expiresAt := 305
  uploadUrl := some "http://localhost:16001/upload/inbox%2Fb%2Fp%2F..%2Fp"

/-- Its upload is refused as a conflict, and leaves an empty bundle directory. -/
theorem twisted_upload_leaves_directory :
    (runE (exec srvConfig .core) (prepareSendInit srvConfig "b/p/.." "p" (smallManifest ["a"]) alice
        (some "alice:a") false) srvSystem.server).1 = .ok twistedSession ∧
      srvSystem.server.disk.tree.get (srvConfig.backend.location twistedSession.bundlePath) = none ∧
      ¬∀ (param : String) (infos : List Upload.TarEntry) (end_ : Upload.TarEnd),
        twistedSession.AllOrNothing srvConfig (smallManifest ["a"]).files infos end_
          srvSystem.server (runE (exec srvConfig .core) (Upload.uploadBundle srvConfig
            (some twistedSession.token) param infos end_) srvSystem.server) := by
  refine ⟨by decide +kernel, by decide +kernel, fun hall => ?_⟩
  have hrefused : (runE (exec srvConfig .core) (Upload.uploadBundle srvConfig
      (some twistedSession.token) "inbox%2Fb%2Fp%2F..%2Fp" [⟨"a", true, 1, [1]⟩] .complete)
        srvSystem.server).1 = .error (.upload 409 "bundle_path_conflict" "shadow_child" none) := by
    decide +kernel
  have hthere : (runE (exec srvConfig .core) (Upload.uploadBundle srvConfig
      (some twistedSession.token) "inbox%2Fb%2Fp%2F..%2Fp" [⟨"a", true, 1, [1]⟩] .complete)
        srvSystem.server).2.disk.tree.get
          (srvConfig.backend.location twistedSession.bundlePath) = some .dir := by
    decide +kernel
  have hnothing := (hall "inbox%2Fb%2Fp%2F..%2Fp" [⟨"a", true, 1, [1]⟩] .complete).nothing
  rw [hrefused, hthere] at hnothing
  cases (hnothing nofun).1

end Cassetta
