import Cassetta.Server.Naming

/-!
# Two phases of a send

Phase one checks the manifest, the path, the recipient and the limits and hands out a token.
Phase two takes the token and the files and has checks of its own: the key, the route and the
decoded path, a default cap on each file, and whatever the disk and the operating system say to the
names. This module says exactly which sessions a phase two with the declared contents completes.
-/

namespace Cassetta

open FileTree Prog

variable {cfg : Config} {env : Environment} {answer : (c : Call) → Server → c.Answer × Server}
  {Takes : List (Step String) → Prop}

/-! ## The property and the condition -/

/-- The path a session's token is bound to; the route parameter of its URL, once decoded. -/
def SendInitResult.bundlePath (r : SendInitResult) : String :=
  match r.token with
  | .signed claims _ => claims.bundlePath.getD ""
  | .malformed => ""

/-- What a client sends in phase two. -/
inductive SecondPhase where
  | upload (infos : List Upload.TarEntry)
  | inline (sent : List SendInlineFile)

/-- The phase-two call of a session. The path of an upload's URL has been decoded to the bundle
path when it comes to the route. -/
def SecondPhase.handler (cfg : Config) (r : SendInitResult) : SecondPhase → Handler Unit
  | .upload infos => routed (pathParam r.bundlePath) fun param =>
    Upload.uploadBundle cfg (some r.token) param infos .complete
  | .inline sent => discard (cassettaSendInline r.token sent)

/-- The call matches the session and brings exactly the declared files, in whatever order. -/
def SecondPhase.Brings (r : SendInitResult) (files : List ManifestFile)
    (contents : String → Bytes) : SecondPhase → Prop
  | .upload infos => r.mode = .batch ∧
    infos.Perm (files.map fun f => ⟨f.name, true, f.size, contents f.name⟩)
  | .inline sent => r.mode = .inline ∧
    (sent.map fun x => (x.name, decodeInlineContent x.content x.encoding)).Perm
      (files.map fun f => (f.name, some (contents f.name)))

/-- One more commit than before: that of the session's bundle, with its manifest in place. -/
def SendInitResult.Committed (cfg : Config) (r : SendInitResult) (files : List ManifestFile)
    (s s' : Server) : Prop :=
  ∃ m written, s'.disk.commits =
      s.disk.commits ++ [⟨cfg.backend.location r.bundlePath, m, written⟩] ∧
    m.bundleId = r.bundleId ∧ m.files.map (fun f => (f.name, f.size)) =
      files.map (fun f => (f.name, f.size)) ∧
    cfg.backend.readBundleMeta s'.disk.tree r.bundlePath = some m

/-- What phase two asks for beyond phase one: the signing key is still in force, an uploaded
path is one line with no escapes left in it and its files stay under the default cap, the files fit
beside each other on disk, the path can be reached, and the operating system takes all that is made
there. -/
structure SendInitResult.Completable (cfg : Config) (r : SendInitResult)
    (files : List ManifestFile) (s : Server) : Prop where
  keyed : cfg.jwtPrimaryKey = s.slots.primary ∨
    (resolveSecondary s.slots s.mono).1 = some cfg.jwtPrimaryKey
  unescaped : r.mode = .batch →
    Percent.hasEscape r.bundlePath.toList = false ∧ '\n' ∉ r.bundlePath.toList
  capped : r.mode = .batch → cfg.limits.perFileMax = none →
    ∀ f ∈ files, f.size ≤ (Upload.defaultPerFileMax : Int)
  storable : Storable (files.map (·.name))
  reachable : cfg.backend.Reachable s.disk r.bundlePath
  named : TakesBundle OsPath (cfg.backend.resolve r.bundlePath) (files.map (·.name))

/-! ## Phase one -/

/-- The claims of a session's token. -/
def sessionClaims (cfg : Config) (path : String) (r : SendInitResult) (manifest : UploadManifest)
    (recipient sender : String) (iat : Nat) (jti : Id) : Claims :=
  { uploadClaims (inboxPath recipient path) r.bundleId sender recipient r.mode
      (enrichManifestMimes cfg manifest) cfg.limits.uploadTokenTtl iat with jti := some jti }

/-- The manifest that an upload of a session commits. -/
def sessionMeta (cfg : Config) (r : SendInitResult) (manifest : UploadManifest) (sender : String)
    (createdAt : Nat) : BundleMeta where
  bundleId := r.bundleId
  sender := some sender
  createdAt := createdAt
  contentType := Upload.contentTypeOf (enrichManifestMimes cfg manifest)
  fileCount := (enrichManifestMimes cfg manifest).length
  files := enrichManifestMimes cfg manifest

/-- Everything a session says. -/
structure Granted (cfg : Config) (path : String) (raw : SendManifest) (r : SendInitResult)
    (manifest : UploadManifest) (recipient sender : String) (iat : Nat) (jti : Id) : Prop where
  parsed : parseManifest raw = .ok manifest
  within : ∃ mode, checkManifestAgainstLimits manifest cfg.limits = .ok mode
  token : r.token =
    .signed (sessionClaims cfg path r manifest recipient sender iat jti) cfg.jwtPrimaryKey
  expires : r.expiresAt = iat + cfg.limits.uploadTokenTtl

/-- A session that is prepared is granted for what was asked. -/
theorem ensures_prepareSendInit {s : Server} (to_ path : String) (raw : SendManifest)
    (identity : Identity) (label : Option String) (allowInline : Bool) :
    Ensures (exec cfg env) (prepareSendInit cfg to_ path raw identity label allowInline)
      (fun r s' => ∃ manifest recipient sender iat jti,
        Granted cfg path raw r manifest recipient sender iat jti ∧
          secondsToMicros iat ≤ s'.wall) s := by
  unfold prepareSendInit
  split
  · trivial
  rename_i manifest hparse
  simp only [Ensures, wpE_bind]
  refine ensures_mono (ensures_validateOr _ _ _) fun _ s₁ _ => ?_
  refine ensures_mono (Q := fun _ _ => True) (wpE_mono (fun _ _ _ => trivial)
    (fun _ _ _ => trivial) (wpE_trivial _)) fun recipient s₂ _ => ?_
  refine ensures_mono (ensures_enforce _ _ _ _) fun _ s₃ _ => ?_
  split
  · trivial
  rename_i mode hmode
  simp only [wpE_bind, wpE_newId, wpE_now, true_and, wpE_pure]
  exact ⟨manifest, recipient, _, _, _, ⟨hparse, ⟨mode, hmode⟩, rfl, rfl⟩, Nat.div_mul_le_self _ _⟩

/-- Phase one makes nothing. -/
theorem makeless_prepareSendInit (to_ path : String) (raw : SendManifest) (identity : Identity)
    (label : Option String) (allowInline : Bool) :
    OnlyE Call.Makeless (prepareSendInit cfg to_ path raw identity label allowInline) := by
  have hresolve : OnlyE Call.Makeless (resolveRecipient to_ label) := by
    refine OnlyE.bind (onlyE_performE trivial) fun answer => ?_
    refine OnlyE.bind (by cases answer <;> trivial) fun resolved => ?_
    cases resolved with
    | none => dsimp only; split <;> trivial
    | some resolved => dsimp only; split <;> trivial
  unfold prepareSendInit
  split
  · trivial
  refine OnlyE.bind ((looks_validateOr _ _ _).mono Call.Looks.makeless) fun _ => ?_
  refine OnlyE.bind hresolve fun recipient => ?_
  refine OnlyE.bind ((looks_enforce _ _ _ _).mono Call.Looks.makeless) fun _ => ?_
  split
  · trivial
  refine OnlyE.bind (onlyE_performE trivial) fun _ => ?_
  refine OnlyE.bind (onlyE_performE trivial) fun _ => ?_
  exact OnlyE.bind (onlyE_performE trivial) fun _ => trivial

/-- An accepted manifest is the one that came in, and its names passed `validate_manifest`. -/
theorem parseManifest_ok {raw : SendManifest} {manifest : UploadManifest}
    (h : parseManifest raw = .ok manifest) :
    manifest.files = raw.files ∧ validateManifest (raw.files.map (·.name)) = .ok () := by
  unfold parseManifest manifestFromInput at h
  split at h
  · cases h
  rename_i m hm
  split at hm
  · obtain rfl := Option.some.inj hm
    split at h
    · cases h
    · rename_i hv
      obtain rfl := Except.ok.inj h
      exact ⟨rfl, hv⟩
  · cases hm

private theorem validateEntries_nodup {seen names out : List String} (hseen : seen.Nodup)
    (h : validateEntries seen names = .ok out) : out.Nodup ∧ out = seen ++ names := by
  induction names generalizing seen with
  | nil =>
    obtain rfl := Except.ok.inj h
    exact ⟨hseen, by simp⟩
  | cons name rest ih =>
    simp only [validateEntries] at h
    split at h
    · cases h
    split at h
    · cases h
    split at h
    · cases h
    rename_i hdup
    have hseen' : (seen ++ [name]).Nodup := by
      rw [List.nodup_append]
      exact ⟨hseen, by simp, fun a ha b hb => by
        rintro rfl
        exact hdup (List.mem_singleton.mp hb ▸ ha)⟩
    simpa using ih hseen' h

/-- No name is listed twice. -/
theorem validateManifest_nodup {names : List String} (h : validateManifest names = .ok ()) :
    names.Nodup := by
  unfold validateManifest at h
  split at h
  · cases h
  · rename_i seen he
    obtain ⟨hn, heq⟩ := validateEntries_nodup List.nodup_nil he
    rwa [heq, List.nil_append] at hn

/-! ## The tar upload -/

private theorem byName_of_mem {files : List FileRecord} (hn : (files.map (·.name)).Nodup)
    {f : FileRecord}
    (hf : f ∈ files) : Upload.byName files f.name = some f := by
  unfold Upload.byName
  cases hfind : files.reverse.find? (·.name = f.name) with
  | none =>
    rw [List.find?_eq_none] at hfind
    exact absurd (hfind f (by simpa using hf)) (by simp)
  | some g =>
    have hg : g ∈ files := by simpa using List.mem_of_find?_eq_some hfind
    have hname : g.name = f.name := by simpa using List.find?_some hfind
    exact congrArg some (List.inj_on_of_nodup_map hn hg hf hname)

namespace Upload

/-- The cap an entry meets. -/
def perFileCap (cfg : Config) : Int := cfg.limits.perFileMax.getD defaultPerFileMax

/-- An entry is one of a manifest's, regular and of the listed length. -/
def Listed (files : List FileRecord) (info : TarEntry) : Prop :=
  info.isReg = true ∧ ∃ f, byName files info.name = some f ∧ info.size = f.size ∧
    (info.data.length : Int) = f.size

/-- The task after an entry. -/
def Task.after (task : Task) (info : TarEntry) : Task :=
  { task with seen := task.seen ++ [info.name], bytesTotal := task.bytesTotal + info.data.length }

/-- An entry goes through if it is listed, under the cap, and can be written. -/
theorem returns_entry (hh : Refusing answer cfg env Takes) {s : Server} {task : Task} {w : Writer}
    (hw : s.disk.writers task.handle = some w) {info : TarEntry} {Q : Task → Server → Prop} :
    Returns answer (entry cfg task info) Q s ↔
      (Listed task.manifestFiles info ∧ info.size ≤ perFileCap cfg ∧ Takes (w.target info.name)) ∧
        ∃ n d', Backend.writeFile s.wall task.handle info.name info.data s.disk = (.ok n, d') ∧
          Q (task.after info) (s.setDisk d') := by
  rw [entry, returns_orAbort]
  by_cases hreg : info.isReg = true
  swap
  · rw [if_pos hreg]
    exact iff_of_false id fun h => hreg h.1.1.1
  rw [if_neg (not_not.mpr hreg)]
  cases hf : byName task.manifestFiles info.name with
  | none =>
    refine iff_of_false id fun h => ?_
    obtain ⟨-, f, hf', -⟩ := h.1.1
    rw [hf] at hf'
    cases hf'
  | some f =>
    have hlisted : Listed task.manifestFiles info ↔
        info.size = f.size ∧ (info.data.length : Int) = f.size := by
      simp [Listed, hreg, hf]
    rw [hlisted, perFileCap]
    dsimp only
    by_cases hsize : info.size = f.size
    swap
    · rw [if_pos hsize]
      exact iff_of_false id fun h => hsize h.1.1.1
    rw [if_neg (not_not.mpr hsize)]
    by_cases hcap : info.size ≤ cfg.limits.perFileMax.getD defaultPerFileMax
    swap
    · rw [if_pos (not_le.mp hcap)]
      exact iff_of_false id fun h => hcap h.1.2.1
    rw [if_neg (not_lt.mpr hcap)]
    by_cases hlen : (info.data.length : Int) = f.size
    swap
    · rw [if_pos hlen]
      exact iff_of_false id fun h => hlen h.1.1.2
    rw [if_neg (not_not.mpr hlen)]
    rw [and_iff_right (show _ ∧ _ from ⟨hsize, hlen⟩), and_iff_right hcap]
    exact (wpE_bind _ _ _).trans (hh.returns_writeFile hw)

/-- The entries of a tar go through if each does. -/
theorem returns_streamTar (hh : Refusing answer cfg env Takes) {s : Server} {task : Task}
    {w : Writer} (hw : s.disk.writers task.handle = some w) {infos : List TarEntry}
    {Q : Task → Server → Prop} :
    Returns answer (streamTar cfg task infos) Q s ↔
      (∀ info ∈ infos, Listed task.manifestFiles info ∧ info.size ≤ perFileCap cfg ∧
          Takes (w.target info.name)) ∧
        ∃ d', Backend.writeAll s.wall task.handle (infos.map fun i => (i.name, i.data)) s.disk =
            .ok d' ∧ Q (infos.foldl Task.after task) (s.setDisk d') := by
  induction infos generalizing s task w with
  | nil => simp [streamTar, Returns, Backend.writeAll, Server.setDisk]
  | cons info rest ih =>
    have hstep : Returns answer (streamTar cfg task (info :: rest)) Q s ↔
        Returns answer (entry cfg task info)
          (fun task' s' => Returns answer (streamTar cfg task' rest) Q s') s := wpE_bind _ _ _
    rw [hstep, returns_entry hh hw]
    simp only [List.map_cons, Backend.writeAll, List.foldl_cons, List.forall_mem_cons]
    rcases hwrite : Backend.writeFile s.wall task.handle info.name info.data s.disk with ⟨r, d₁⟩
    cases r with
    | error e => simp
    | ok n =>
      have hw₁ := (Backend.writeFile_ok hwrite hw).1
      have hrest := @ih (s.setDisk d₁) (task.after info) _ hw₁
      constructor
      · rintro ⟨hinfo, n', d₂, heq, hq⟩
        obtain rfl : d₁ = d₂ := congrArg Prod.snd heq
        obtain ⟨hinfos, hlaid⟩ := hrest.mp hq
        exact ⟨⟨hinfo, hinfos⟩, hlaid⟩
      · rintro ⟨⟨hinfo, hinfos⟩, hlaid⟩
        exact ⟨hinfo, n, d₁, rfl, hrest.mpr ⟨hinfos, hlaid⟩⟩

private theorem foldl_after (task : Task) (infos : List TarEntry) :
    (infos.foldl Task.after task).seen = task.seen ++ infos.map (·.name) ∧
      (infos.foldl Task.after task).handle = task.handle ∧
      (infos.foldl Task.after task).manifestFiles = task.manifestFiles ∧
      (infos.foldl Task.after task).bundleId = task.bundleId ∧
      (infos.foldl Task.after task).sender = task.sender := by
  induction infos generalizing task with
  | nil => simp
  | cons info rest ih =>
    obtain ⟨h₁, h₂, h₃, h₄, h₅⟩ := ih (task.after info)
    rw [List.foldl_cons, h₁, h₂, h₃, h₄, h₅]
    simp [Task.after]

/-- The manifest a finished task commits. -/
def Task.meta_ (task : Task) (createdAt : Nat) : BundleMeta where
  bundleId := task.bundleId
  sender := task.sender
  createdAt := createdAt
  contentType := contentTypeOf task.manifestFiles
  fileCount := task.manifestFiles.length
  files := task.manifestFiles

/-- The end of an upload goes through if the tar is whole and the commit does. -/
theorem returns_finish (hh : Refusing answer cfg env Takes) {s : Server} {task : Task} {w : Writer}
    (hw : s.disk.writers task.handle = some w) {end_ : TarEnd} {Q : Unit → Server → Prop} :
    Returns answer (finish task end_) Q s ↔
      (end_ = .complete ∧ ∀ f ∈ task.manifestFiles, f.name ∈ task.seen) ∧
        Takes (Backend.tmpPath w.bundleDir) ∧
        ∃ d', Backend.commit (exec cfg env .now s).2.wall task.handle
            (task.meta_ s.reading) s.disk = (.ok (), d') ∧
          Q () ((exec cfg env .now s).2.setDisk d') := by
  unfold finish
  rw [returns_orAbort]
  cases end_ with
  | tarError => exact iff_of_false id fun h => TarEnd.noConfusion h.1.1
  | broken => exact iff_of_false id fun h => TarEnd.noConfusion h.1.1
  | complete =>
    have hnil : ((task.manifestFiles.map (·.name)).filter (· ∉ task.seen)).insertionSort (· ≤ ·) =
        [] ↔ ∀ f ∈ task.manifestFiles, f.name ∈ task.seen := by
      rw [← List.length_eq_zero_iff, (List.perm_insertionSort _ _).length_eq,
        List.length_eq_zero_iff, List.filter_eq_nil_iff]
      simp
    dsimp only
    cases hmissing : ((task.manifestFiles.map (·.name)).filter
        (· ∉ task.seen)).insertionSort (· ≤ ·) with
    | cons first rest =>
      refine iff_of_false id fun h => ?_
      rw [hnil.mpr h.1.2] at hmissing
      cases hmissing
    | nil =>
      have hw' : (exec cfg env .now s).2.disk.writers task.handle = some w := hw
      rw [and_iff_right ⟨rfl, hnil.mp hmissing⟩]
      exact hh.returns_now.trans (hh.returns_commit hw')

/-- An upload under a token that is in time comes to an open writer if the key is in force, the
path is that of the token, and the bundle can be opened. -/
theorem returns_begin (hh : Refusing answer cfg env Takes) {s : Server} {claims : Claims}
    {key : SigningKey} {bundlePath : String} {bundleId : Id} {Q : Task → Server → Prop}
    (ht : claims.Timely s.reading) (hmode : claims.mode = some .batch)
    (hid : claims.bundleId = some bundleId) :
    Returns answer (begin (some (.signed claims key)) bundlePath) Q s ↔
      (key = s.slots.primary ∨ (resolveSecondary s.slots s.mono).1 = some key) ∧
        Percent.unquote bundlePath = claims.bundlePath.getD "" ∧
        Takes (cfg.backend.resolve (claims.bundlePath.getD "")) ∧
        ∃ k d', cfg.backend.openBundleWrite (s.verified cfg env).wall (claims.bundlePath.getD "")
            s.disk = (.ok k, d') ∧
          Q ⟨k, claims.manifest.getD [], bundleId, claims.sender, [], 0⟩
            ((s.verified cfg env).setDisk d') := by
  rw [begin]
  refine (wpE_bind _ _ _).trans ((hh.returns_verifyToken ht).trans ?_)
  refine and_congr_right fun _ => ?_
  simp only [hmode, ne_eq, not_true_eq_false, if_false, hid]
  by_cases hpath : Percent.unquote bundlePath = claims.bundlePath.getD ""
  · rw [if_neg (not_not.mpr hpath), and_iff_right hpath]
    refine hh.returns_openBundleWrite fun e s' => ?_
    cases e with
    | osError e => cases e <;> exact id
    | fileNotFound => exact id
    | bundlePathConflict p k => exact id
    | valueError v => exact id
  · rw [if_pos hpath]
    exact iff_of_false id fun h => hpath h.1

end Upload

/-! ## The inline send -/

/-- The files of an inline send as they are kept, the latest first. -/
def keptFiles (contents : String → Bytes) (sent : List SendInlineFile) : List (String × Bytes) :=
  (sent.map fun x => (x.name, contents x.name)).reverse

private theorem mem_keptFiles {contents : String → Bytes} {sent : List SendInlineFile}
    {e : String × Bytes} :
    e ∈ keptFiles contents sent ↔ e.1 ∈ sent.map (·.name) ∧ e.2 = contents e.1 := by
  obtain ⟨n, data⟩ := e
  simp only [keptFiles, List.mem_reverse, List.mem_map, Prod.mk.injEq]
  constructor
  · rintro ⟨x, hx, rfl, rfl⟩
    exact ⟨⟨x, hx, rfl⟩, rfl⟩
  · rintro ⟨⟨x, hx, rfl⟩, rfl⟩
    exact ⟨x, hx, rfl, rfl⟩

private theorem find_keptFiles {contents : String → Bytes} {sent : List SendInlineFile}
    {name : String}
    (h : name ∈ sent.map (·.name)) :
    (keptFiles contents sent).find? (·.1 = name) = some (name, contents name) := by
  cases hc : (keptFiles contents sent).find? (·.1 = name) with
  | none =>
    rw [List.find?_eq_none] at hc
    exact absurd (hc (name, contents name) (mem_keptFiles.mpr ⟨h, rfl⟩)) (by simp)
  | some e =>
    have hname : e.1 = name := by simpa using List.find?_some hc
    have hdata := (mem_keptFiles.mp (List.mem_of_find?_eq_some hc)).2
    exact congrArg some (Prod.ext hname (by rw [hdata, hname]))

/-- Files that are all listed, with the listed lengths, are all taken. -/
theorem decodeInlineFiles_ok {manifest : List FileRecord} {sent : List SendInlineFile}
    {contents : String → Bytes} (done : List (String × Bytes))
    (h : ∀ x ∈ sent, decodeInlineContent x.content x.encoding = some (contents x.name) ∧
      ∃ f, Upload.byName manifest x.name = some f ∧
        ((contents x.name).length : Int) = f.size) :
    decodeInlineFiles manifest done sent =
      .ok (keptFiles contents sent ++ done) := by
  induction sent generalizing done with
  | nil => rfl
  | cons x rest ih =>
    obtain ⟨hdec, f, hf, hlen⟩ := h x (by simp)
    rw [decodeInlineFiles]
    simp only [hf, hdec, hlen, ne_eq, not_true_eq_false, if_false]
    rw [ih _ fun y hy => h y (by simp [hy])]
    simp [keptFiles]

private theorem returns_writeInlineFiles (hh : Refusing answer cfg env Takes) {s : Server}
    {handle : Nat}
    {w : Writer} (hw : s.disk.writers handle = some w) {decoded : List (String × Bytes)}
    {contents : String → Bytes} {records : List FileRecord} {Q : Unit → Server → Prop}
    (hdec : ∀ f ∈ records, decoded.find? (·.1 = f.name) = some (f.name, contents f.name)) :
    Returns answer (writeInlineFiles handle decoded records) Q s ↔
      (∀ f ∈ records, Takes (w.target f.name)) ∧
      ∃ d', Backend.writeAll s.wall handle (records.map fun f => (f.name, contents f.name)) s.disk =
        .ok d' ∧ Q () (s.setDisk d') := by
  induction records generalizing s w with
  | nil => simp [writeInlineFiles, Returns, Backend.writeAll, Server.setDisk]
  | cons f rest ih =>
    have hstep : Returns answer (writeInlineFiles handle decoded (f :: rest)) Q s ↔
        Returns answer (writeFile handle f.name (contents f.name))
          (fun _ s' => Returns answer (writeInlineFiles handle decoded rest) Q s') s := by
      rw [writeInlineFiles, hdec f (by simp)]
      exact wpE_bind _ _ _
    rw [hstep, hh.returns_writeFile hw]
    simp only [List.map_cons, Backend.writeAll, List.forall_mem_cons]
    rcases hwrite : Backend.writeFile s.wall handle f.name (contents f.name) s.disk with ⟨r, d₁⟩
    cases r with
    | error e => simp
    | ok n =>
      have hw₁ := (Backend.writeFile_ok hwrite hw).1
      have hrest := @ih (s.setDisk d₁) _ hw₁ fun g hg => hdec g (by simp [hg])
      constructor
      · rintro ⟨hf, n', d₂, heq, hq⟩
        obtain rfl : d₁ = d₂ := congrArg Prod.snd heq
        obtain ⟨hfiles, hlaid⟩ := hrest.mp hq
        exact ⟨⟨hf, hfiles⟩, hlaid⟩
      · rintro ⟨⟨hf, hfiles⟩, hlaid⟩
        exact ⟨hf, n, d₁, rfl, hrest.mpr ⟨hfiles, hlaid⟩⟩

/-- The manifest an inline send commits. -/
def inlineMeta (claims : Claims) (bundleId : Id) (createdAt : Nat) : BundleMeta where
  bundleId := bundleId
  sender := claims.sender
  createdAt := createdAt
  contentType := Upload.contentTypeOf (claims.manifest.getD [])
  fileCount := (claims.manifest.getD []).length
  files := claims.manifest.getD []

/-- An inline send whose files decode, with one to be found for every listed name. -/
theorem returns_cassettaSendInline_decoded (hh : Refusing answer cfg env Takes) {s : Server}
    {claims : Claims} {key : SigningKey} {path : String} {bundleId : Id}
    {sent : List SendInlineFile} {contents : String → Bytes} {decoded : List (String × Bytes)}
    {Q : Id → Server → Prop} (ht : claims.Timely s.reading) (hmode : claims.mode = some .inline)
    (hpath : claims.bundlePath = some path) (hid : claims.bundleId = some bundleId)
    (hdecoded : decodeInlineFiles (claims.manifest.getD []) [] sent = .ok decoded)
    (hfind : ∀ f ∈ claims.manifest.getD [],
      decoded.find? (·.1 = f.name) = some (f.name, contents f.name)) :
    Returns answer (cassettaSendInline (.signed claims key) sent) Q s ↔
      (key = s.slots.primary ∨ (resolveSecondary s.slots s.mono).1 = some key) ∧
        TakesBundle Takes (cfg.backend.resolve path)
          ((claims.manifest.getD []).map (·.name)) ∧
        ∃ k d₁ d₂ d₃, cfg.backend.openBundleWrite (s.verified cfg env).wall path s.disk =
            (.ok k, d₁) ∧
          Backend.writeAll (s.verified cfg env).wall k
            ((claims.manifest.getD []).map fun f => (f.name, contents f.name)) d₁ = .ok d₂ ∧
          Backend.commit (exec cfg env .now (s.verified cfg env)).2.wall k
            (inlineMeta claims bundleId (s.verified cfg env).reading) d₂ =
              (.ok (), d₃) ∧
          Q bundleId ((exec cfg env .now (s.verified cfg env)).2.setDisk d₃) := by
  have hnone : ((claims.manifest.getD []).map (·.name)).filter
      (· ∉ decoded.map Prod.fst) = [] := by
    rw [List.filter_eq_nil_iff]
    intro n hn
    obtain ⟨f, hf, rfl⟩ := List.mem_map.mp hn
    have hmem : f.name ∈ decoded.map Prod.fst :=
      List.mem_map.mpr ⟨_, List.mem_of_find?_eq_some (hfind f hf), rfl⟩
    simpa using hmem
  have hwritten : ∀ (s₁ : Server) (k : Nat),
      s₁.disk.writers k = some ⟨cfg.backend.resolve path, []⟩ →
      (Returns answer (Upload.orAbort k (do
          writeInlineFiles k decoded (claims.manifest.getD [])
          let createdAt ← now
          commit k (inlineMeta claims bundleId createdAt)
          pure bundleId)) Q s₁ ↔
        (∀ f ∈ claims.manifest.getD [], Takes (joinPath (cfg.backend.resolve path) f.name)) ∧
          Takes (Backend.tmpPath (cfg.backend.resolve path)) ∧
          ∃ d₂ d₃, Backend.writeAll s₁.wall k
              ((claims.manifest.getD []).map fun f => (f.name, contents f.name)) s₁.disk =
                .ok d₂ ∧
            Backend.commit (exec cfg env .now s₁).2.wall k
              (inlineMeta claims bundleId s₁.reading) d₂ = (.ok (), d₃) ∧
            Q bundleId ((exec cfg env .now s₁).2.setDisk d₃)) := by
    intro s₁ k hw
    rw [returns_orAbort]
    refine (wpE_bind _ _ _).trans ((returns_writeInlineFiles hh hw hfind).trans ?_)
    refine and_congr_right fun _ => ?_
    have hcommit : ∀ d₂, Backend.writeAll s₁.wall k
        ((claims.manifest.getD []).map fun f => (f.name, contents f.name)) s₁.disk = .ok d₂ →
        (Returns answer (now >>= fun createdAt =>
            commit k (inlineMeta claims bundleId createdAt) >>= fun _ => pure bundleId) Q
            (s₁.setDisk d₂) ↔
          Takes (Backend.tmpPath (cfg.backend.resolve path)) ∧
            ∃ d₃, Backend.commit (exec cfg env .now s₁).2.wall k
                (inlineMeta claims bundleId s₁.reading) d₂ = (.ok (), d₃) ∧
              Q bundleId ((exec cfg env .now s₁).2.setDisk d₃)) := by
      intro d₂ hwr
      have hw₂ : (exec cfg env .now (s₁.setDisk d₂)).2.disk.writers k = some _ :=
        (Backend.writeAll_ok hwr hw).1
      exact hh.returns_now.trans ((wpE_bind _ _ _).trans (hh.returns_commit hw₂))
    constructor
    · rintro ⟨d₂, hwr, hrest⟩
      obtain ⟨hman, d₃, hc, hq⟩ := (hcommit d₂ hwr).mp hrest
      exact ⟨hman, d₂, d₃, hwr, hc, hq⟩
    · rintro ⟨hman, d₂, d₃, hwr, hc, hq⟩
      exact ⟨d₂, hwr, (hcommit d₂ hwr).mpr ⟨hman, d₃, hc, hq⟩⟩
  rw [cassettaSendInline]
  refine (wpE_bind _ _ _).trans ((hh.returns_verifyToken ht).trans ?_)
  refine and_congr_right fun _ => ?_
  simp only [hmode, ne_eq, not_true_eq_false, if_false, hdecoded, hnone, List.insertionSort_nil,
    hpath, hid]
  refine (hh.returns_openBundleWrite fun e s' => ?_).trans ?_
  · cases e with
    | osError e => cases e <;> exact id
    | fileNotFound => exact id
    | bundlePathConflict p k => exact id
    | valueError v => exact id
  · constructor
    · rintro ⟨hdir, k, d₁, hopen, hrest⟩
      obtain ⟨hfiles, hman, d₂, d₃, hlaid⟩ :=
        (hwritten _ k (Backend.openBundleWrite_laid hopen).1).mp hrest
      exact ⟨⟨hdir, List.forall_mem_map.mpr hfiles, hman⟩, k, d₁, d₂, d₃, hopen, hlaid⟩
    · rintro ⟨⟨hdir, hfiles, hman⟩, k, d₁, d₂, d₃, hopen, hlaid⟩
      exact ⟨hdir, k, d₁, hopen, (hwritten _ k (Backend.openBundleWrite_laid hopen).1).mpr
        ⟨fun f hf => hfiles _ (List.mem_map_of_mem hf), hman, d₂, d₃, hlaid⟩⟩

/-- An inline send of exactly the listed files. -/
theorem returns_cassettaSendInline (hh : Refusing answer cfg env Takes) {s : Server}
    {claims : Claims} {key : SigningKey} {path : String} {bundleId : Id}
    {sent : List SendInlineFile} {contents : String → Bytes} {Q : Id → Server → Prop}
    (ht : claims.Timely s.reading) (hmode : claims.mode = some .inline)
    (hpath : claims.bundlePath = some path) (hid : claims.bundleId = some bundleId)
    (hsent : ∀ x ∈ sent, decodeInlineContent x.content x.encoding = some (contents x.name) ∧
      ∃ f, Upload.byName (claims.manifest.getD []) x.name = some f ∧
        ((contents x.name).length : Int) = f.size)
    (hall : ∀ f ∈ claims.manifest.getD [], f.name ∈ sent.map (·.name)) :
    Returns answer (cassettaSendInline (.signed claims key) sent) Q s ↔
      (key = s.slots.primary ∨ (resolveSecondary s.slots s.mono).1 = some key) ∧
        TakesBundle Takes (cfg.backend.resolve path)
          ((claims.manifest.getD []).map (·.name)) ∧
        ∃ k d₁ d₂ d₃, cfg.backend.openBundleWrite (s.verified cfg env).wall path s.disk =
            (.ok k, d₁) ∧
          Backend.writeAll (s.verified cfg env).wall k
            ((claims.manifest.getD []).map fun f => (f.name, contents f.name)) d₁ = .ok d₂ ∧
          Backend.commit (exec cfg env .now (s.verified cfg env)).2.wall k
            (inlineMeta claims bundleId (s.verified cfg env).reading) d₂ =
              (.ok (), d₃) ∧
          Q bundleId ((exec cfg env .now (s.verified cfg env)).2.setDisk d₃) := by
  apply returns_cassettaSendInline_decoded hh ht hmode hpath hid
    (by simpa using decodeInlineFiles_ok [] hsent)
  exact fun f hf => find_keptFiles (hall f hf)

/-! ## The session and its call -/

/-- A cap that is set was checked in phase one. -/
theorem size_le_of_within {m : UploadManifest} {limits : LimitsConfig} {mode : UploadMode}
    (h : checkManifestAgainstLimits m limits = .ok mode) {c : Int}
    (hc : limits.perFileMax = some c) : ∀ f ∈ m.files, f.size ≤ c := by
  unfold checkManifestAgainstLimits at h
  split at h
  · cases h
  split at h
  · cases h
  rename_i hfind
  intro f hf
  have hover := (List.find?_eq_none.mp hfind) f hf
  simp only [overCap, hc, decide_eq_true_eq] at hover
  omega

private theorem capped_iff {m : UploadManifest} {mode : UploadMode}
    (h : checkManifestAgainstLimits m cfg.limits = .ok mode) :
    (∀ f ∈ m.files, f.size ≤ Upload.perFileCap cfg) ↔ (cfg.limits.perFileMax = none →
      ∀ f ∈ m.files, f.size ≤ (Upload.defaultPerFileMax : Int)) := by
  unfold Upload.perFileCap
  cases hc : cfg.limits.perFileMax with
  | none => simp
  | some c => simpa using size_le_of_within h hc

namespace Granted

variable {path : String} {raw : SendManifest} {r : SendInitResult} {manifest : UploadManifest}
  {recipient sender : String} {iat : Nat} {jti : Id}

/-- The bundle of a session is in the inbox of its recipient. -/
theorem bundlePath_eq (h : Granted cfg path raw r manifest recipient sender iat jti) :
    r.bundlePath = inboxPath recipient path := by
  rw [SendInitResult.bundlePath, h.token]
  rfl

/-- The types that are filled in change no name. -/
theorem names_enriched (h : Granted cfg path raw r manifest recipient sender iat jti) :
    (enrichManifestMimes cfg manifest).map (·.name) = raw.files.map (·.name) := by
  rw [enrichManifestMimes, (parseManifest_ok h.parsed).1, List.map_map]
  rfl

/-- The names of a session are different. -/
theorem nodup (h : Granted cfg path raw r manifest recipient sender iat jti) :
    (raw.files.map (·.name)).Nodup := validateManifest_nodup (parseManifest_ok h.parsed).2

/-- The names of a session lead downward. -/
theorem downward (h : Granted cfg path raw r manifest recipient sender iat jti) {n : String}
    (hn : n ∈ raw.files.map (·.name)) : Downward n :=
  downward_of_validatePath (validateManifest_ok (parseManifest_ok h.parsed).2 n hn).1

/-- The manifest in the token finds every declared file. -/
theorem byName_declared (h : Granted cfg path raw r manifest recipient sender iat jti)
    {f : ManifestFile} (hf : f ∈ raw.files) :
    Upload.byName (enrichManifestMimes cfg manifest) f.name =
      some ⟨f.name, f.size, cfg.pickMime f.name f.mime⟩ := by
  have hmem : (⟨f.name, f.size, cfg.pickMime f.name f.mime⟩ : FileRecord) ∈
      enrichManifestMimes cfg manifest := by
    rw [enrichManifestMimes, (parseManifest_ok h.parsed).1]
    exact List.mem_map.mpr ⟨f, hf, rfl⟩
  exact byName_of_mem (h.names_enriched ▸ h.nodup) hmem

/-- A session is in order from the moment it was handed out until it expires. -/
theorem timely (h : Granted cfg path raw r manifest recipient sender iat jti) {t : Nat}
    (hiat : secondsToMicros iat ≤ t) (hexp : t < secondsToMicros r.expiresAt) :
    (sessionClaims cfg path r manifest recipient sender iat jti).Timely t := by
  refine ⟨_, _, _, _, rfl, rfl, rfl, rfl, reached_iff.mpr hiat, reached_iff.mpr hiat, ?_⟩
  rw [not_reached_iff, ← h.expires]
  exact hexp

/-- The declared files, with contents of the declared lengths, fill the manifest. -/
theorem fills (h : Granted cfg path raw r manifest recipient sender iat jti)
    {contents : String → Bytes} {files : List (String × Bytes)} {m : BundleMeta}
    (hlen : ∀ f ∈ raw.files, ((contents f.name).length : Int) = f.size)
    (hfiles : files.Perm (raw.files.map fun f => (f.name, contents f.name)))
    (hm : m.files = enrichManifestMimes cfg manifest) : Backend.Fills m files := by
  have hnames : m.names = raw.files.map (·.name) := by rw [BundleMeta.names, hm, h.names_enriched]
  refine ⟨hnames ▸ h.nodup, fun n => ?_, fun f hf => ?_⟩
  · rw [hnames, (hfiles.map Prod.fst).mem_iff, List.map_map]
    rfl
  · rw [hm, enrichManifestMimes, (parseManifest_ok h.parsed).1] at hf
    obtain ⟨g, hg, rfl⟩ := List.mem_map.mp hf
    exact ⟨contents g.name, hfiles.mem_iff.mpr (List.mem_map.mpr ⟨g, hg, rfl⟩), hlen g hg⟩

/-- The write of a session's files, at a free path, and what it leaves. -/
theorem layout_iff (h : Granted cfg path raw r manifest recipient sender iat jti) {s : Server}
    {contents : String → Bytes} {files : List (String × Bytes)} {m : BundleMeta} (t₁ t₂ : Nat)
    (hlen : ∀ f ∈ raw.files, ((contents f.name).length : Int) = f.size)
    (hfiles : files.Perm (raw.files.map fun f => (f.name, contents f.name)))
    (hm : m.files = enrichManifestMimes cfg manifest) (hid : m.bundleId = r.bundleId)
    (hfree : cfg.backend.FreeAt s.disk r.bundlePath) :
    (∃ k d₁ d₂ d₃, cfg.backend.openBundleWrite t₁ r.bundlePath s.disk = (.ok k, d₁) ∧
        Backend.writeAll t₁ k files d₁ = .ok d₂ ∧ Backend.commit t₂ k m d₂ = (.ok (), d₃) ∧
        r.Committed cfg raw.files s (s.setDisk d₃)) ↔
      cfg.backend.Reachable s.disk r.bundlePath ∧ Storable (raw.files.map (·.name)) := by
  have hnames : m.names = raw.files.map (·.name) := by rw [BundleMeta.names, hm, h.names_enriched]
  have hdown : ∀ e ∈ files, Downward e.1 := by
    intro e he
    obtain ⟨f, hf, rfl⟩ := List.mem_map.mp (hfiles.mem_iff.mp he)
    exact h.downward (List.mem_map_of_mem (f := ManifestFile.name) hf)
  have hnodup : (files.map Prod.fst).Nodup := by
    rw [(hfiles.map Prod.fst).nodup_iff, List.map_map]
    exact h.nodup
  have hdeclared : m.files.map (fun f => (f.name, f.size)) =
      raw.files.map (fun f => (f.name, f.size)) := by
    rw [hm, enrichManifestMimes, (parseManifest_ok h.parsed).1, List.map_map]
    rfl
  rw [← hnames, ← Backend.layout_isOk_iff t₁ t₂ hfree hdown hnodup (h.fills hlen hfiles hm)]
  constructor
  · rintro ⟨k, d₁, d₂, d₃, hopen, hwr, hc, -⟩
    exact ⟨k, d₁, d₂, d₃, hopen, hwr, hc⟩
  · rintro ⟨k, d₁, d₂, d₃, hopen, hwr, hc⟩
    obtain ⟨hcommits, hmeta⟩ := Backend.layout_committed hopen hwr hc hdown
    exact ⟨k, d₁, d₂, d₃, hopen, hwr, hc, m, files, hcommits, hid, hdeclared, hmeta⟩

variable {s : Server} {contents : String → Bytes}

/-- An upload of a session that is in time goes through if the key is in force, the path is the
session's, the tar brings the files of the manifest, and the bundle can be laid out. -/
theorem returns_upload (h : Granted cfg path raw r manifest recipient sender iat jti)
    (hh : Refusing answer cfg env Takes) (hmode : r.mode = .batch)
    (ht : (sessionClaims cfg path r manifest recipient sender iat jti).Timely s.reading)
    {param : String} {infos : List Upload.TarEntry} {end_ : Upload.TarEnd}
    {Q : Unit → Server → Prop} :
    Returns answer (Upload.uploadBundle cfg (some r.token) param infos end_) Q s ↔
      ((cfg.jwtPrimaryKey = s.slots.primary ∨
          (resolveSecondary s.slots s.mono).1 = some cfg.jwtPrimaryKey) ∧
        Percent.unquote param = r.bundlePath) ∧
      (end_ = .complete ∧
        (∀ info ∈ infos, Upload.Listed (enrichManifestMimes cfg manifest) info ∧
          info.size ≤ Upload.perFileCap cfg) ∧
        ∀ f ∈ enrichManifestMimes cfg manifest, f.name ∈ infos.map (·.name)) ∧
      TakesBundle Takes (cfg.backend.resolve r.bundlePath) (infos.map (·.name)) ∧
      ∃ k d₁ d₂ d₃, cfg.backend.openBundleWrite (s.verified cfg env).wall r.bundlePath s.disk =
          (.ok k, d₁) ∧
        Backend.writeAll (s.verified cfg env).wall k (infos.map fun i => (i.name, i.data)) d₁ =
          .ok d₂ ∧
        Backend.commit (exec cfg env .now (s.verified cfg env)).2.wall k
          (sessionMeta cfg r manifest sender (s.verified cfg env).reading) d₂ = (.ok (), d₃) ∧
        Q () ((exec cfg env .now (s.verified cfg env)).2.setDisk d₃) := by
  have hmodeClaim : (sessionClaims cfg path r manifest recipient sender iat jti).mode =
      some .batch := congrArg some hmode
  have hpathClaim : (sessionClaims cfg path r manifest recipient sender iat jti).bundlePath.getD
      "" = r.bundlePath := h.bundlePath_eq.symm
  have hfinished : ∀ k d₁ d₂, cfg.backend.openBundleWrite (s.verified cfg env).wall r.bundlePath
      s.disk = (.ok k, d₁) →
      Backend.writeAll (s.verified cfg env).wall k (infos.map fun i => (i.name, i.data)) d₁ =
        .ok d₂ →
      (Returns answer (Upload.finish (infos.foldl Upload.Task.after
          ⟨k, enrichManifestMimes cfg manifest, r.bundleId, some sender, [], 0⟩) end_) Q
          ((s.verified cfg env).setDisk d₂) ↔
        (end_ = .complete ∧ ∀ f ∈ enrichManifestMimes cfg manifest, f.name ∈ infos.map (·.name)) ∧
          Takes (Backend.tmpPath (cfg.backend.resolve r.bundlePath)) ∧
          ∃ d₃, Backend.commit (exec cfg env .now (s.verified cfg env)).2.wall k
              (sessionMeta cfg r manifest sender (s.verified cfg env).reading) d₂ = (.ok (), d₃) ∧
            Q () ((exec cfg env .now (s.verified cfg env)).2.setDisk d₃)) := by
    intro k d₁ d₂ hopen hwr
    have hw := (Backend.writeAll_ok hwr (Backend.openBundleWrite_laid hopen).1).1
    obtain ⟨hseen, hhandle, hfiles, hid, hsender⟩ := Upload.foldl_after
      ⟨k, enrichManifestMimes cfg manifest, r.bundleId, some sender, [], 0⟩ infos
    have hfinish := @Upload.returns_finish _ _ _ _ hh ((s.verified cfg env).setDisk d₂)
      (infos.foldl Upload.Task.after
        ⟨k, enrichManifestMimes cfg manifest, r.bundleId, some sender, [], 0⟩) _
      (by rw [hhandle]; exact hw) end_ Q
    rw [hseen, hhandle, hfiles, List.nil_append] at hfinish
    have hmeta : (infos.foldl Upload.Task.after
        ⟨k, enrichManifestMimes cfg manifest, r.bundleId, some sender, [], 0⟩).meta_
        (s.verified cfg env).reading =
          sessionMeta cfg r manifest sender (s.verified cfg env).reading := by
      simp only [Upload.Task.meta_, sessionMeta, hfiles, hid, hsender]
    rw [← hmeta]
    exact hfinish
  rw [h.token, Upload.uploadBundle]
  refine (wpE_bind _ _ _).trans ((Upload.returns_begin hh ht hmodeClaim rfl).trans ?_)
  rw [hpathClaim]
  constructor
  · rintro ⟨hkey, hunq, hdir, k, d₁, hopen, hrest⟩
    have hw := (Backend.openBundleWrite_laid hopen).1
    obtain ⟨hinfos, d₂, hwr, hend⟩ :=
      (Upload.returns_streamTar hh hw).mp ((wpE_bind _ _ _).mp hrest)
    obtain ⟨⟨hcomplete, hseen⟩, hman, d₃, hc, hq⟩ := (hfinished k d₁ d₂ hopen hwr).mp hend
    exact ⟨⟨hkey, hunq⟩, ⟨hcomplete, fun i hi => ⟨(hinfos i hi).1, (hinfos i hi).2.1⟩, hseen⟩,
      ⟨hdir, List.forall_mem_map.mpr fun i hi => (hinfos i hi).2.2, hman⟩,
      k, d₁, d₂, d₃, hopen, hwr, hc, hq⟩
  · rintro ⟨⟨hkey, hunq⟩, ⟨hcomplete, hinfos, hseen⟩, ⟨hdir, hnames, hman⟩, k, d₁, d₂, d₃, hopen,
      hwr, hc, hq⟩
    have hw := (Backend.openBundleWrite_laid hopen).1
    refine ⟨hkey, hunq, hdir, k, d₁, hopen, (wpE_bind _ _ _).mpr ?_⟩
    exact (Upload.returns_streamTar hh (w := ⟨cfg.backend.resolve r.bundlePath, []⟩) hw).mpr
      ⟨fun i hi => ⟨(hinfos i hi).1, (hinfos i hi).2, hnames _ (List.mem_map_of_mem hi)⟩, d₂, hwr,
        (hfinished k d₁ d₂ hopen hwr).mpr ⟨⟨hcomplete, hseen⟩, hman, d₃, hc, hq⟩⟩

/-- The tar upload of a session. -/
theorem upload_iff (h : Granted cfg path raw r manifest recipient sender iat jti)
    (hh : Refusing answer cfg env OsPath) {infos : List Upload.TarEntry} (hmode : r.mode = .batch)
    (hlen : ∀ f ∈ raw.files, ((contents f.name).length : Int) = f.size)
    (hinfos : infos.Perm (raw.files.map fun f => ⟨f.name, true, f.size, contents f.name⟩))
    (hiat : secondsToMicros iat ≤ s.reading) (hexp : s.reading < secondsToMicros r.expiresAt)
    (hfree : cfg.backend.FreeAt s.disk r.bundlePath) :
    Returns answer ((SecondPhase.upload infos).handler cfg r)
        (fun _ s' => r.Committed cfg raw.files s s') s ↔ r.Completable cfg raw.files s := by
  have hlisted : ∀ info ∈ infos, Upload.Listed (enrichManifestMimes cfg manifest) info := by
    intro info hi
    obtain ⟨f, hf, rfl⟩ := List.mem_map.mp (hinfos.mem_iff.mp hi)
    exact ⟨rfl, _, h.byName_declared hf, rfl, hlen f hf⟩
  have hcap : (∀ info ∈ infos, info.size ≤ Upload.perFileCap cfg) ↔
      (cfg.limits.perFileMax = none →
        ∀ f ∈ raw.files, f.size ≤ (Upload.defaultPerFileMax : Int)) := by
    obtain ⟨mode, hwithin⟩ := h.within
    rw [← (parseManifest_ok h.parsed).1, ← capped_iff hwithin, (parseManifest_ok h.parsed).1]
    constructor
    · exact fun hall f hf => hall _ (hinfos.mem_iff.mpr (List.mem_map.mpr ⟨f, hf, rfl⟩))
    · intro hall info hi
      obtain ⟨f, hf, rfl⟩ := List.mem_map.mp (hinfos.mem_iff.mp hi)
      exact hall f hf
  have hfiles : (infos.map fun i => (i.name, i.data)).Perm
      (raw.files.map fun f => (f.name, contents f.name)) := by
    have := hinfos.map fun i => (i.name, i.data)
    rwa [List.map_map] at this
  have hseen : ∀ f ∈ enrichManifestMimes cfg manifest, f.name ∈ infos.map (·.name) := by
    intro f hf
    have hn : f.name ∈ raw.files.map (·.name) := by
      rw [← h.names_enriched]
      exact List.mem_map_of_mem (f := FileRecord.name) hf
    obtain ⟨g, hg, hgn⟩ := List.mem_map.mp hn
    rw [(hinfos.map _).mem_iff, List.map_map]
    exact List.mem_map.mpr ⟨g, hg, hgn⟩
  have hnames : TakesBundle OsPath (cfg.backend.resolve r.bundlePath) (infos.map (·.name)) ↔
      TakesBundle OsPath (cfg.backend.resolve r.bundlePath) (raw.files.map (·.name)) := by
    refine takesBundle_congr fun n => ?_
    rw [(hinfos.map _).mem_iff, List.map_map]
    rfl
  have hlayout := h.layout_iff (m := sessionMeta cfg r manifest sender (s.verified cfg env).reading)
    (s.verified cfg env).wall (exec cfg env .now (s.verified cfg env)).2.wall hlen hfiles rfl rfl
    hfree
  refine returns_routed.trans ?_
  constructor
  · rintro ⟨param, hparam, hrun⟩
    obtain ⟨⟨hkey, hunq⟩, ⟨-, hinfos, -⟩, htakes, k, d₁, d₂, d₃, hopen, hwr, hc, hq⟩ :=
      (h.returns_upload hh hmode (h.timely hiat hexp)).mp hrun
    obtain ⟨hreach, hstore⟩ := hlayout.mp ⟨k, d₁, d₂, d₃, hopen, hwr, hc, hq⟩
    exact ⟨hkey, fun _ => (unquote_pathParam_iff _).mp ⟨param, hparam, hunq⟩,
      fun _ => hcap.mp fun info hi => (hinfos info hi).2, hstore, hreach, hnames.mp htakes⟩
  · rintro ⟨hkey, hunescaped, hcaps, hstore, hreach, htakes⟩
    obtain ⟨param, hparam, hunq⟩ := (unquote_pathParam_iff _).mpr (hunescaped hmode)
    refine ⟨param, hparam, (h.returns_upload hh hmode (h.timely hiat hexp)).mpr ?_⟩
    exact ⟨⟨hkey, hunq⟩,
      ⟨rfl, fun info hi => ⟨hlisted info hi, hcap.mpr (hcaps hmode) info hi⟩, hseen⟩,
      hnames.mpr htakes, hlayout.mpr ⟨hreach, hstore⟩⟩

/-- The inline send of a session. -/
theorem inline_iff (h : Granted cfg path raw r manifest recipient sender iat jti)
    (hh : Refusing answer cfg env OsPath) {sent : List SendInlineFile} (hmode : r.mode = .inline)
    (hlen : ∀ f ∈ raw.files, ((contents f.name).length : Int) = f.size)
    (hsent : (sent.map fun x => (x.name, decodeInlineContent x.content x.encoding)).Perm
      (raw.files.map fun f => (f.name, some (contents f.name))))
    (hiat : secondsToMicros iat ≤ s.reading) (hexp : s.reading < secondsToMicros r.expiresAt)
    (hfree : cfg.backend.FreeAt s.disk r.bundlePath) :
    Returns answer ((SecondPhase.inline sent).handler cfg r)
        (fun _ s' => r.Committed cfg raw.files s s') s ↔ r.Completable cfg raw.files s := by
  have hdecode : ∀ x ∈ sent, decodeInlineContent x.content x.encoding = some (contents x.name) ∧
      ∃ f, Upload.byName (enrichManifestMimes cfg manifest) x.name = some f ∧
        ((contents x.name).length : Int) = f.size := by
    intro x hx
    have hmem := hsent.mem_iff.mp (List.mem_map.mpr ⟨x, hx, rfl⟩)
    obtain ⟨f, hf, heq⟩ := List.mem_map.mp hmem
    obtain ⟨hname, hdec⟩ := Prod.mk.inj heq
    rw [← hname, ← hdec]
    exact ⟨rfl, _, h.byName_declared hf, hlen f hf⟩
  have hall : ∀ f ∈ enrichManifestMimes cfg manifest, f.name ∈ sent.map (·.name) := by
    intro f hf
    have hn : f.name ∈ raw.files.map (·.name) := by
      rw [← h.names_enriched]
      exact List.mem_map_of_mem (f := FileRecord.name) hf
    have hfst := (hsent.map Prod.fst).mem_iff (a := f.name)
    rw [List.map_map, List.map_map] at hfst
    exact hfst.mpr hn
  have hwritten : ((enrichManifestMimes cfg manifest).map fun f => (f.name, contents f.name)) =
      raw.files.map fun f => (f.name, contents f.name) := by
    rw [enrichManifestMimes, (parseManifest_ok h.parsed).1, List.map_map]
    rfl
  have hmodeClaim : (sessionClaims cfg path r manifest recipient sender iat jti).mode =
      some .inline := congrArg some hmode
  have hpathClaim : (sessionClaims cfg path r manifest recipient sender iat jti).bundlePath =
      some r.bundlePath := congrArg some h.bundlePath_eq.symm
  have hbatch : r.mode ≠ .batch := by simp [hmode]
  have hlayout := h.layout_iff (m := inlineMeta
      (sessionClaims cfg path r manifest recipient sender iat jti) r.bundleId
      (s.verified cfg env).reading)
    (s.verified cfg env).wall (exec cfg env .now (s.verified cfg env)).2.wall hlen
    (List.Perm.of_eq hwritten) rfl rfl hfree
  have hnames : (enrichManifestMimes cfg manifest).map (·.name) = raw.files.map (·.name) :=
    h.names_enriched
  rw [SecondPhase.handler, h.token, discard]
  refine (wpE_bind _ _ _).trans ((returns_cassettaSendInline hh (h.timely hiat hexp) hmodeClaim
    hpathClaim rfl hdecode hall).trans ?_)
  constructor
  · rintro ⟨hkey, htakes, hrest⟩
    obtain ⟨hreach, hstore⟩ := hlayout.mp hrest
    exact ⟨hkey, fun hb => absurd hb hbatch, fun hb => absurd hb hbatch, hstore, hreach,
      hnames ▸ htakes⟩
  · rintro ⟨hkey, -, -, hstore, hreach, htakes⟩
    exact ⟨hkey, hnames.symm ▸ htakes, hlayout.mpr ⟨hreach, hstore⟩⟩

end Granted

/-- A session that phase one has handed out, at a free path and before it expires, is completed
by a phase two with contents of the declared lengths, whatever the operating system does at a path
that it does not take, if and only if the signing key is still in force, an uploaded path is one
line with no escapes left in it, the default cap on uploaded files is kept, the files fit beside
each other on disk, the path can be reached, and the operating system takes what is made there. -/
theorem secondPhase_commits_iff (refusal : Refusal) {to_ path : String} {raw : SendManifest}
    {identity : Identity} {label : Option String} {allowInline : Bool} {r : SendInitResult}
    {s₀ s₁ s : Server} {contents : String → Bytes} {call : SecondPhase}
    (hinit : runE (execOs cfg env refusal)
      (prepareSendInit cfg to_ path raw identity label allowInline) s₀ = (.ok r, s₁))
    (hlen : ∀ f ∈ raw.files, ((contents f.name).length : Int) = f.size)
    (hcall : call.Brings r raw.files contents) (hafter : s₁.wall ≤ s.wall)
    (hexp : s.reading < secondsToMicros r.expiresAt)
    (hfree : cfg.backend.FreeAt s.disk r.bundlePath) :
    Returns (execOs cfg env refusal) (call.handler cfg r)
        (fun _ s' => r.Committed cfg raw.files s s') s ↔
      r.Completable cfg raw.files s := by
  have hh := refusing_execOs cfg env refusal
  rw [hh.runE_eq (makeless_prepareSendInit to_ path raw identity label allowInline)] at hinit
  obtain ⟨manifest, recipient, sender, iat, jti, hg, hiat⟩ :=
    wpE_ok (ensures_prepareSendInit to_ path raw identity label allowInline) hinit
  have hiat' : secondsToMicros iat ≤ s.reading :=
    hiat.trans (hafter.trans (Nat.le_add_right _ _))
  cases call with
  | upload infos => exact hg.upload_iff hh hcall.1 hlen hcall.2 hiat' hexp hfree
  | inline sent => exact hg.inline_iff hh hcall.1 hlen hcall.2 hiat' hexp hfree

/-! ## On a small server -/

/-- A manifest of one-byte files. -/
def smallManifest (names : List String) : SendManifest where
  files := names.map fun n => ⟨n, 1, none⟩

/-- The session `alice` gets for a bundle of one-byte files in the inbox of `bob`. -/
def smallSession (names : List String) : SendInitResult where
  bundleId := 0
  mode := .batch
  token := .signed
    { uploadClaims "inbox/bob:b/p" 0 "alice:a" "bob:b" .batch
        (names.map fun n => ⟨n, 1, "application/octet-stream"⟩) 300 5 with jti := some 1 }
    srvConfig.jwtPrimaryKey
  expiresAt := 305
  uploadUrl := some "http://localhost:16001/upload/inbox%2Fbob%3Ab%2Fp"

/-- The tar of those files. -/
def smallTar (names : List String) : SecondPhase :=
  .upload (names.map fun n => ⟨n, true, 1, [1]⟩)

/-- What phase one answers to a manifest of one-byte files. -/
def smallInit (names : List String) : Except Exc SendInitResult × Server :=
  runE (exec srvConfig .core) (prepareSendInit srvConfig "bob:b" "p" (smallManifest names) alice
    (some "alice:a") false) srvSystem.server

/-- The same on an operating system. -/
def smallOsInit (names : List String) : Except Exc SendInitResult × Server :=
  runE (execOs srvConfig .core .plain) (prepareSendInit srvConfig "bob:b" "p"
    (smallManifest names) alice (some "alice:a") false) srvSystem.server

/-- Two files, one of them in a subdirectory, are uploaded and committed. -/
theorem secondPhase_commits_two :
    (smallOsInit ["a", "b/c"]).1 = .ok (smallSession ["a", "b/c"]) ∧
      Returns (execOs srvConfig .core .plain) ((smallTar ["b/c", "a"]).handler srvConfig
          (smallSession ["a", "b/c"]))
        (fun _ s' => (smallSession ["a", "b/c"]).Committed srvConfig
          (smallManifest ["a", "b/c"]).files srvSystem.server s') srvSystem.server := by
  have hinit : (smallOsInit ["a", "b/c"]).1 = .ok (smallSession ["a", "b/c"]) := by decide +kernel
  have hrun : smallOsInit ["a", "b/c"] =
      (.ok (smallSession ["a", "b/c"]), (smallOsInit ["a", "b/c"]).2) := Prod.ext hinit rfl
  have hlen : ∀ f ∈ (smallManifest ["a", "b/c"]).files,
      (((fun _ => [1] : String → Bytes) f.name).length : Int) = f.size := by decide
  have hcall : (smallTar ["b/c", "a"]).Brings (smallSession ["a", "b/c"])
      (smallManifest ["a", "b/c"]).files fun _ => [1] := ⟨rfl, by decide⟩
  refine ⟨hinit, (secondPhase_commits_iff .plain hrun hlen hcall ?_ ?_ ?_).mpr ?_⟩
  · decide +kernel
  · decide +kernel
  · decide +kernel
  · exact ⟨.inl rfl, fun _ => by decide +kernel, fun _ _ => by decide +kernel, by decide,
      by decide +kernel, ⟨by decide +kernel, by decide +kernel, by decide +kernel⟩⟩

/-- Phase one compares neighbours of the sorted names only: it takes `a` and `a/c` when `a-b`
stands between them, and the tar of these files is then refused. -/
theorem secondPhase_refused :
    (smallOsInit ["a", "a-b", "a/c"]).1 = .ok (smallSession ["a", "a-b", "a/c"]) ∧
      (smallTar ["a", "a-b", "a/c"]).Brings (smallSession ["a", "a-b", "a/c"])
        (smallManifest ["a", "a-b", "a/c"]).files (fun _ => [1]) ∧
      srvConfig.backend.FreeAt srvSystem.server.disk (smallSession ["a", "a-b", "a/c"]).bundlePath ∧
      (smallOsInit ["a", "a-b", "a/c"]).2.wall ≤ srvSystem.server.wall ∧
      srvSystem.server.reading < secondsToMicros (smallSession ["a", "a-b", "a/c"]).expiresAt ∧
      (runE (execOs srvConfig .core .plain) ((smallTar ["a", "a-b", "a/c"]).handler srvConfig
        (smallSession ["a", "a-b", "a/c"])) srvSystem.server).1 =
          .error (.storage (.osError .exist)) :=
  ⟨by decide +kernel, ⟨rfl, List.Perm.refl _⟩, by decide +kernel, by decide +kernel,
    by decide +kernel, by decide +kernel⟩

end Cassetta
