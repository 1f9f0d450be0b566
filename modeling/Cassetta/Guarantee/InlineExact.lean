import Cassetta.Guarantee.AllOrNothing

/-!
# An inline send is exact

The entries of an inline send are folded into a dictionary before anything is written, so an
entry may come twice, and the later one counts. What fails once the bundle is about to be opened
leaves the directories that were made above it.
-/

namespace Cassetta

open FileTree Prog

variable {cfg : Config} {env : Environment}

/-! ## The property and the condition -/

/-- What an entry decodes to under its declared encoding. -/
def SendInlineFile.data (x : SendInlineFile) : Option Bytes :=
  decodeInlineContent x.content x.encoding

/-- The entries decode to the lengths a manifest declares under their names, and name it all. -/
structure InlineComplete (files : List ManifestFile) (sent : List SendInlineFile) : Prop where
  listed : ∀ x ∈ sent, ∃ f ∈ files, f.name = x.name ∧
    ∃ data, x.data = some data ∧ (data.length : Int) = f.size
  all : ∀ f ∈ files, f.name ∈ sent.map (·.name)

/-- A send that is answered was given every declared file exactly once and has committed the
decoded bytes; any other leaves everything as it was. -/
structure SendInitResult.Exact (cfg : Config) (r : SendInitResult) (files : List ManifestFile)
    (sent : List SendInlineFile) (s : Server) (x : Except Exc Id × Server) : Prop where
  exact : ∀ id, x.1 = .ok id → ∃ contents : String → Bytes,
    (sent.map fun y => (y.name, y.data)).Perm
        (files.map fun f => (f.name, some (contents f.name))) ∧
      (∀ f ∈ files, ((contents f.name).length : Int) = f.size) ∧
      r.Stored cfg files (files.map fun f => (f.name, contents f.name)) s x.2
  unchanged : (∀ id, x.1 ≠ .ok id) → (∀ q, x.2.disk.tree.get q = s.disk.tree.get q) ∧
    x.2.disk.commits = s.disk.commits

/-- What opening and writing a session's files takes, past the collision check. -/
def SendInitResult.Writable (cfg : Config) (r : SendInitResult) (files : List ManifestFile)
    (s : Server) : Prop :=
  s.disk.tree.get (cfg.backend.location r.bundlePath) = none ∧
    cfg.backend.Reachable s.disk r.bundlePath ∧ Storable (files.map (·.name))

instance (r : SendInitResult) (files : List ManifestFile) (s : Server) :
    Decidable (r.Writable cfg files s) := inferInstanceAs (Decidable (_ ∧ _))

/-- Where complete entries come to the open: a name comes once where the bundle can be written,
and the directories above it are there where it cannot. -/
def SendInitResult.InlineSound (cfg : Config) (r : SendInitResult) (files : List ManifestFile)
    (sent : List SendInlineFile) (s : Server) : Prop :=
  InlineComplete files sent →
    cfg.backend.checkBundlePathCollision s.disk.tree (cfg.backend.resolve r.bundlePath) = none →
      if r.Writable cfg files s then (sent.map (·.name)).Nodup
      else cfg.backend.Prepared s.disk.tree r.bundlePath

/-! ## Decoding -/

/-- The decoded entries, the latest first. -/
def decodedFiles (sent : List SendInlineFile) : List (String × Bytes) :=
  (sent.map fun x => (x.name, x.data.getD [])).reverse

/-- The bytes of the latest entry of a name. -/
def decodedContents (sent : List SendInlineFile) (name : String) : Bytes :=
  (((decodedFiles sent).find? (·.1 = name)).map Prod.snd).getD []

/-- The entries are taken if each is listed and decodes to the declared length. -/
theorem decodeInlineFiles_iff {manifest : List FileRecord} {sent : List SendInlineFile}
    {done decoded : List (String × Bytes)} :
    decodeInlineFiles manifest done sent = .ok decoded ↔
      (∀ x ∈ sent, ∃ f, Upload.byName manifest x.name = some f ∧
        ∃ data, x.data = some data ∧ (data.length : Int) = f.size) ∧
      decoded = decodedFiles sent ++ done := by
  induction sent generalizing done with
  | nil => simp [decodeInlineFiles, decodedFiles, eq_comm]
  | cons x rest ih =>
    rw [decodeInlineFiles, List.forall_mem_cons]
    cases hf : Upload.byName manifest x.name with
    | none => simp
    | some f =>
      have hdata : decodeInlineContent x.content x.encoding = x.data := rfl
      rw [hdata]
      cases hx : x.data with
      | none => simp
      | some data =>
        dsimp only
        by_cases hlen : (data.length : Int) = f.size
        · simp [hlen, ih, decodedFiles, hx]
        · simp [hlen]

private theorem find_decodedFiles {sent : List SendInlineFile} {name : String}
    (h : name ∈ sent.map (·.name)) :
    (decodedFiles sent).find? (·.1 = name) = some (name, decodedContents sent name) := by
  cases hc : (decodedFiles sent).find? (·.1 = name) with
  | none =>
    obtain ⟨x, hx, rfl⟩ := List.mem_map.mp h
    have hmem : (x.name, x.data.getD []) ∈ decodedFiles sent := by
      rw [decodedFiles, List.mem_reverse]
      exact List.mem_map_of_mem hx
    exact absurd (List.find?_eq_none.mp hc _ hmem) (by simp)
  | some e =>
    have hname : e.1 = name := by simpa using List.find?_some hc
    refine congrArg some (Prod.ext hname ?_)
    rw [decodedContents, hc]
    rfl

/-- The bytes under a name are those of an entry. -/
theorem exists_decodedContents {sent : List SendInlineFile} {name : String}
    (h : name ∈ sent.map (·.name)) :
    ∃ x ∈ sent, x.name = name ∧ x.data.getD [] = decodedContents sent name := by
  have hmem := List.mem_of_find?_eq_some (find_decodedFiles h)
  rw [decodedFiles, List.mem_reverse] at hmem
  obtain ⟨x, hx, heq⟩ := List.mem_map.mp hmem
  obtain ⟨hname, hdata⟩ := Prod.mk.inj heq
  exact ⟨x, hx, hname, hdata⟩

/-! ## What failures leave -/

private theorem Staged.wpE_writeInlineFiles {b : Backend} {path : String} {before : Disk} {k : Nat}
    {s : Server} {decoded : List (String × Bytes)} {records : List FileRecord}
    (hnames : ∀ f ∈ records, Downward f.name) (h : Staged b path before k s.disk) :
    wpE (exec cfg env) (fun _ _ => True) (writeInlineFiles k decoded records)
      (fun _ s' => Staged b path before k s'.disk) (fun _ s' => Staged b path before k s'.disk)
      s := by
  induction records generalizing s with
  | nil => exact h
  | cons f rest ih =>
    rw [writeInlineFiles]
    cases decoded.find? (·.1 = f.name) with
    | none => exact h
    | some e =>
      simp only [wpE_bind]
      exact wpE_mono (fun _ s' hs => ih (fun g hg => hnames g (List.mem_cons_of_mem _ hg)) hs)
        (fun _ _ hs => hs) (h.wpE_writeFile e.2 (hnames f (by simp)))

namespace Granted

variable {path : String} {raw : SendManifest} {r : SendInitResult} {manifest : UploadManifest}
  {recipient sender : String} {iat : Nat} {jti : Id} {s : Server} {sent : List SendInlineFile}

/-- An entry is taken exactly where it is declared and decodes to the declared length. -/
theorem listed_iff (h : Granted cfg path raw r manifest recipient sender iat jti)
    {x : SendInlineFile} :
    (∃ f, Upload.byName (enrichManifestMimes cfg manifest) x.name = some f ∧
        ∃ data, x.data = some data ∧ (data.length : Int) = f.size) ↔
      ∃ f ∈ raw.files, f.name = x.name ∧
        ∃ data, x.data = some data ∧ (data.length : Int) = f.size := by
  constructor
  · rintro ⟨f, hf, data, hdata, hlen⟩
    obtain ⟨g, hg, heq⟩ := List.mem_map.mp (h.declared_of_byName hf).2
    obtain ⟨hname, hsize⟩ := Prod.mk.inj heq
    exact ⟨g, hg, hname, data, hdata, by rw [hlen, hsize]⟩
  · rintro ⟨g, hg, hname, data, hdata, hlen⟩
    have hby := h.byName_declared hg
    rw [hname] at hby
    exact ⟨_, hby, data, hdata, hlen⟩

private theorem mem_enriched (h : Granted cfg path raw r manifest recipient sender iat jti)
    {n : String} :
    n ∈ (enrichManifestMimes cfg manifest).map (·.name) ↔ n ∈ raw.files.map (·.name) := by
  rw [h.names_enriched]

/-- Entries that are not complete are refused before anything is opened. -/
theorem refuses (h : Granted cfg path raw r manifest recipient sender iat jti)
    (hnot : ¬InlineComplete raw.files sent) :
    wpE (exec cfg env) (fun _ _ => True) (cassettaSendInline r.token sent)
      (fun _ _ => False) (fun _ s' => s'.disk = s.disk) s := by
  rw [h.token, cassettaSendInline]
  simp only [wpE_bind]
  refine wpE_mono ?_ (fun _ _ hd => hd) (wpE_verifyToken_disk _ _ s)
  rintro claims s₁ ⟨hdisk, key, htok⟩
  obtain ⟨rfl, -⟩ := Token.signed.inj htok
  have hmanifest : (sessionClaims cfg path r manifest recipient sender iat jti).manifest.getD [] =
      enrichManifestMimes cfg manifest := rfl
  split
  · exact hdisk
  rw [hmanifest]
  cases hdecoded : decodeInlineFiles (enrichManifestMimes cfg manifest) [] sent with
  | error e => exact hdisk
  | ok decoded =>
    dsimp only
    split
    · exact hdisk
    rename_i hmissing
    refine absurd ⟨fun x hx => ?_, fun f hf => ?_⟩ hnot
    · exact h.listed_iff.mp ((decodeInlineFiles_iff.mp hdecoded).1 x hx)
    · have hin := h.mem_enriched.mpr (List.mem_map_of_mem (f := ManifestFile.name) hf)
      obtain rfl := (decodeInlineFiles_iff.mp hdecoded).2
      by_contra hns
      have hmem : f.name ∈ (((enrichManifestMimes cfg manifest).map (·.name)).filter
          (· ∉ (decodedFiles sent ++ []).map Prod.fst)).insertionSort (· ≤ ·) := by
        rw [List.mem_insertionSort, List.mem_filter]
        refine ⟨hin, ?_⟩
        simpa [decodedFiles] using hns
      rw [hmissing] at hmem
      cases hmem

/-- Complete entries are decoded, and each declared name has its bytes. -/
theorem decodes (h : Granted cfg path raw r manifest recipient sender iat jti)
    (hcomplete : InlineComplete raw.files sent) :
    decodeInlineFiles (enrichManifestMimes cfg manifest) [] sent = .ok (decodedFiles sent) ∧
      ∀ f ∈ enrichManifestMimes cfg manifest,
        (decodedFiles sent).find? (·.1 = f.name) = some (f.name, decodedContents sent f.name) := by
  constructor
  · apply decodeInlineFiles_iff.mpr
    exact ⟨fun x hx => h.listed_iff.mpr (hcomplete.listed x hx), (List.append_nil _).symm⟩
  · intro f hf
    obtain ⟨g, hg, hname⟩ :=
      List.mem_map.mp (h.mem_enriched.mp (List.mem_map_of_mem (f := FileRecord.name) hf))
    apply find_decodedFiles
    rw [← hname]
    exact hcomplete.all g hg

/-- The bytes under a declared name have the declared length. -/
theorem length_decodedContents (h : Granted cfg path raw r manifest recipient sender iat jti)
    (hcomplete : InlineComplete raw.files sent) :
    ∀ f ∈ raw.files, ((decodedContents sent f.name).length : Int) = f.size := by
  intro f hf
  obtain ⟨x, hx, hname, hdata⟩ := exists_decodedContents (hcomplete.all f hf)
  obtain ⟨g, hg, hgname, data, hd, hlen⟩ := hcomplete.listed x hx
  obtain rfl : g = f := List.inj_on_of_nodup_map h.nodup hg hf (hgname.trans hname)
  rw [hd] at hdata
  rw [← hdata]
  exact hlen

variable (env) in
/-- Complete entries are written, or undone but for the directories above the bundle. -/
theorem stages (h : Granted cfg path raw r manifest recipient sender iat jti)
    (hmode : r.mode = .inline) (hiat : secondsToMicros iat ≤ s.reading)
    (hexp : s.reading < secondsToMicros r.expiresAt)
    (hkey : cfg.jwtPrimaryKey = s.slots.primary ∨
      (resolveSecondary s.slots s.mono).1 = some cfg.jwtPrimaryKey)
    (hcomplete : InlineComplete raw.files sent) :
    wpE (exec cfg env) (fun _ _ => True) (cassettaSendInline r.token sent) (fun _ _ => True)
      (fun _ s' => s'.disk.commits = s.disk.commits ∧
        (cfg.backend.checkBundlePathCollision s.disk.tree
              (cfg.backend.resolve r.bundlePath) ≠ none ∧ s'.disk.tree = s.disk.tree ∨
          cfg.backend.checkBundlePathCollision s.disk.tree
              (cfg.backend.resolve r.bundlePath) = none ∧
            ∀ q, s'.disk.tree.get q =
              (cfg.backend.above s.disk.tree r.bundlePath).get q)) s := by
  have hmodeClaim : (sessionClaims cfg path r manifest recipient sender iat jti).mode =
      some .inline := congrArg some hmode
  have hpathClaim : (sessionClaims cfg path r manifest recipient sender iat jti).bundlePath =
      some r.bundlePath := congrArg some h.bundlePath_eq.symm
  have hidClaim : (sessionClaims cfg path r manifest recipient sender iat jti).bundleId =
      some r.bundleId := rfl
  have hmanifest : (sessionClaims cfg path r manifest recipient sender iat jti).manifest.getD [] =
      enrichManifestMimes cfg manifest := rfl
  obtain ⟨hdecoded, hfind⟩ := h.decodes hcomplete
  have hnone : ((enrichManifestMimes cfg manifest).map (·.name)).filter
      (· ∉ (decodedFiles sent).map Prod.fst) = [] := by
    rw [List.filter_eq_nil_iff]
    intro n hn
    obtain ⟨f, hf, rfl⟩ := List.mem_map.mp hn
    have hmem : f.name ∈ (decodedFiles sent).map Prod.fst :=
      List.mem_map.mpr ⟨_, List.mem_of_find?_eq_some (hfind f hf), rfl⟩
    simpa using hmem
  have hnames : ∀ f ∈ enrichManifestMimes cfg manifest, Downward f.name := fun f hf =>
    h.downward (h.mem_enriched.mp (List.mem_map_of_mem (f := FileRecord.name) hf))
  have hverify : Returns (exec cfg env)
      (verifyToken (.signed (sessionClaims cfg path r manifest recipient sender iat jti)
        cfg.jwtPrimaryKey) fun e => .value ("unauthenticated: reason=" ++ e.reason))
      (fun claims s₁ => claims = sessionClaims cfg path r manifest recipient sender iat jti ∧
        s₁ = s.verified cfg env) s :=
    (returns_verifyToken (h.timely hiat hexp)).mpr ⟨hkey, rfl, rfl⟩
  have hdisk : (s.verified cfg env).disk = s.disk := rfl
  rw [h.token, cassettaSendInline]
  simp only [wpE_bind]
  refine wpE_mono ?_ (fun _ _ hfalse => hfalse.elim) hverify
  rintro claims s₁ ⟨rfl, rfl⟩
  simp only [hmodeClaim, hpathClaim, hidClaim, hmanifest, hdecoded, hnone, List.insertionSort_nil,
    ne_eq, not_true_eq_false, if_false, wpE_bind, wpE_openBundleWrite, true_and, hdisk]
  rcases hopen : cfg.backend.openBundleWrite (s.verified cfg env).wall r.bundlePath s.disk with
    ⟨res, d'⟩
  cases res with
  | error e =>
    have hleft : d'.commits = s.disk.commits ∧
        (cfg.backend.checkBundlePathCollision s.disk.tree
              (cfg.backend.resolve r.bundlePath) ≠ none ∧ d'.tree = s.disk.tree ∨
          cfg.backend.checkBundlePathCollision s.disk.tree
              (cfg.backend.resolve r.bundlePath) = none ∧
            ∀ q, d'.tree.get q = (cfg.backend.above s.disk.tree r.bundlePath).get q) := by
      obtain ⟨hcommits, hkept | ⟨hcheck, htree⟩⟩ := Backend.openBundleWrite_error hopen
      · exact ⟨hcommits, .inl hkept⟩
      · exact ⟨hcommits, .inr ⟨hcheck, fun q => by rw [htree]⟩⟩
    cases e with
    | osError e => cases e <;> exact hleft
    | fileNotFound => exact hleft
    | bundlePathConflict p k => exact hleft
    | valueError v => exact hleft
  | ok k =>
    have hstaged := Staged.openBundleWrite hopen
    refine wpE_mono (fun _ _ _ => trivial) ?_ (@Staged.wpE_orAbort cfg env cfg.backend
      r.bundlePath s.disk k _ _ _ (fun _ _ => True) ?_)
    · exact fun _ s' hundone =>
        ⟨hundone.commits, .inr ⟨Backend.check_of_openBundleWrite hopen, hundone.tree⟩⟩
    · simp only [wpE_bind, wpE_now, true_and, wpE_pure]
      refine wpE_mono (fun _ s' hs => ?_) (fun _ _ hs => hs)
        (Staged.wpE_writeInlineFiles hnames hstaged)
      exact wpE_mono (fun _ _ _ => trivial) (fun _ _ hs' => hs') (Staged.wpE_commit _ hs)

/-- Complete entries with names that are all different are the declared files. -/
theorem perm_of_nodup (h : Granted cfg path raw r manifest recipient sender iat jti)
    (hcomplete : InlineComplete raw.files sent) (hnodup : (sent.map (·.name)).Nodup) :
    (sent.map fun y => (y.name, y.data)).Perm
      (raw.files.map fun f => (f.name, some (decodedContents sent f.name))) := by
  have hdata : ∀ y ∈ sent, y.data = some (decodedContents sent y.name) := by
    intro y hy
    obtain ⟨x, hx, hname, hcontents⟩ := exists_decodedContents (List.mem_map_of_mem hy)
    obtain rfl : x = y := List.inj_on_of_nodup_map hnodup hx hy hname
    obtain ⟨-, -, -, data, hd, -⟩ := hcomplete.listed x hx
    rw [← hcontents, hd]
    rfl
  have hleft : (sent.map fun y => (y.name, y.data)).Nodup := by
    apply List.Nodup.of_map Prod.fst
    rwa [List.map_map]
  have hright : (raw.files.map fun f => (f.name, some (decodedContents sent f.name))).Nodup := by
    apply List.Nodup.of_map Prod.fst
    rw [List.map_map]
    exact h.nodup
  apply (List.perm_ext_iff_of_nodup hleft hright).mpr
  rintro ⟨name, data⟩
  constructor
  · intro hmem
    obtain ⟨y, hy, heq⟩ := List.mem_map.mp hmem
    obtain ⟨rfl, rfl⟩ := Prod.mk.inj heq
    obtain ⟨f, hf, hname, -⟩ := hcomplete.listed y hy
    exact List.mem_map.mpr ⟨f, hf, by rw [hname, hdata y hy]⟩
  · intro hmem
    obtain ⟨f, hf, heq⟩ := List.mem_map.mp hmem
    obtain ⟨rfl, rfl⟩ := Prod.mk.inj heq
    obtain ⟨y, hy, hname⟩ := List.mem_map.mp (hcomplete.all f hf)
    exact List.mem_map.mpr ⟨y, hy, by rw [hdata y hy, hname]⟩

/-- Complete entries are opened, written and committed, one after the other. -/
theorem returns_sendInline (h : Granted cfg path raw r manifest recipient sender iat jti)
    (hmode : r.mode = .inline) (hiat : secondsToMicros iat ≤ s.reading)
    (hexp : s.reading < secondsToMicros r.expiresAt)
    (hkey : cfg.jwtPrimaryKey = s.slots.primary ∨
      (resolveSecondary s.slots s.mono).1 = some cfg.jwtPrimaryKey)
    (hcomplete : InlineComplete raw.files sent) {Q : Id → Server → Prop} :
    Returns (exec cfg env) (cassettaSendInline r.token sent) Q s ↔
      ∃ k d₁ d₂ d₃, cfg.backend.openBundleWrite (s.verified cfg env).wall r.bundlePath s.disk =
          (.ok k, d₁) ∧
        Backend.writeAll (s.verified cfg env).wall k
          (raw.files.map fun f => (f.name, decodedContents sent f.name)) d₁ = .ok d₂ ∧
        Backend.commit (exec cfg env .now (s.verified cfg env)).2.wall k
          (inlineMeta (sessionClaims cfg path r manifest recipient sender iat jti) r.bundleId
            (s.verified cfg env).reading) d₂ = (.ok (), d₃) ∧
        Q r.bundleId ((exec cfg env .now (s.verified cfg env)).2.setDisk d₃) := by
  obtain ⟨hdecoded, hfind⟩ := h.decodes hcomplete
  have hmodeClaim : (sessionClaims cfg path r manifest recipient sender iat jti).mode =
      some .inline := congrArg some hmode
  have hpathClaim : (sessionClaims cfg path r manifest recipient sender iat jti).bundlePath =
      some r.bundlePath := congrArg some h.bundlePath_eq.symm
  have hmanifest : (sessionClaims cfg path r manifest recipient sender iat jti).manifest.getD [] =
      enrichManifestMimes cfg manifest := rfl
  have hwritten : ((enrichManifestMimes cfg manifest).map
        fun f => (f.name, decodedContents sent f.name)) =
      raw.files.map fun f => (f.name, decodedContents sent f.name) := by
    rw [enrichManifestMimes, (parseManifest_ok h.parsed).1, List.map_map]
    rfl
  rw [h.token, returns_cassettaSendInline_decoded (refusing_exec cfg env) (h.timely hiat hexp)
    hmodeClaim hpathClaim rfl hdecoded hfind, and_iff_right hkey,
    and_iff_right (takesBundle_true _ _), hmanifest, hwritten]

/-- A send that is answered found the bundle writable, and has stored the decoded bytes. -/
theorem stored_of_sendInline (h : Granted cfg path raw r manifest recipient sender iat jti)
    (hmode : r.mode = .inline) (hiat : secondsToMicros iat ≤ s.reading)
    (hexp : s.reading < secondsToMicros r.expiresAt)
    (hkey : cfg.jwtPrimaryKey = s.slots.primary ∨
      (resolveSecondary s.slots s.mono).1 = some cfg.jwtPrimaryKey)
    (hcomplete : InlineComplete raw.files sent) {s' : Server}
    (hrun : Returns (exec cfg env) (cassettaSendInline r.token sent) (fun _ s₁ => s₁ = s') s) :
    cfg.backend.checkBundlePathCollision s.disk.tree (cfg.backend.resolve r.bundlePath) = none ∧
      r.Writable cfg raw.files s ∧ r.Stored cfg raw.files
        (raw.files.map fun f => (f.name, decodedContents sent f.name)) s s' := by
  obtain ⟨k, d₁, d₂, d₃, hopen, hwr, hc, rfl⟩ :=
    (h.returns_sendInline hmode hiat hexp hkey hcomplete).mp hrun
  have hcheck := Backend.check_of_openBundleWrite hopen
  have hfree : s.disk.tree.get (cfg.backend.location r.bundlePath) = none := by
    have habove := (Staged.openBundleWrite hopen).free
    cases hget : s.disk.tree.get (cfg.backend.location r.bundlePath) with
    | none => rfl
    | some n =>
      rw [Backend.grown_above.get_some hget] at habove
      cases habove
  have hdown : ∀ e ∈ raw.files.map fun f => (f.name, decodedContents sent f.name),
      Downward e.1 := by
    intro e he
    obtain ⟨f, hf, rfl⟩ := List.mem_map.mp he
    exact h.downward (List.mem_map_of_mem (f := ManifestFile.name) hf)
  have hdeclared : (inlineMeta (sessionClaims cfg path r manifest recipient sender iat jti)
        r.bundleId (s.verified cfg env).reading).files.map (fun f => (f.name, f.size)) =
      raw.files.map fun f => (f.name, f.size) := by
    show (enrichManifestMimes cfg manifest).map _ = _
    rw [enrichManifestMimes, (parseManifest_ok h.parsed).1, List.map_map]
    rfl
  obtain ⟨hcommits, hmeta⟩ := Backend.layout_committed hopen hwr hc hdown
  have hlayout := (h.layout_iff (s := s) (m := inlineMeta
      (sessionClaims cfg path r manifest recipient sender iat jti) r.bundleId
      (s.verified cfg env).reading) (s.verified cfg env).wall
    (exec cfg env .now (s.verified cfg env)).2.wall (h.length_decodedContents hcomplete)
    (List.Perm.refl _) rfl rfl ⟨hcheck, hfree⟩).mp
      ⟨k, d₁, d₂, d₃, hopen, hwr, hc, _, _, hcommits, rfl, hdeclared, hmeta⟩
  exact ⟨hcheck, ⟨hfree, hlayout.1, hlayout.2⟩, _, hcommits, rfl, hdeclared, hmeta⟩

variable (env) in
/-- Where the bundle can be written, complete entries are taken. -/
theorem sendInline_of_writable (h : Granted cfg path raw r manifest recipient sender iat jti)
    (hmode : r.mode = .inline) (hiat : secondsToMicros iat ≤ s.reading)
    (hexp : s.reading < secondsToMicros r.expiresAt)
    (hkey : cfg.jwtPrimaryKey = s.slots.primary ∨
      (resolveSecondary s.slots s.mono).1 = some cfg.jwtPrimaryKey)
    (hcomplete : InlineComplete raw.files sent)
    (hcheck : cfg.backend.checkBundlePathCollision s.disk.tree
      (cfg.backend.resolve r.bundlePath) = none) (hwritable : r.Writable cfg raw.files s) :
    Returns (exec cfg env) (cassettaSendInline r.token sent) (fun _ _ => True) s := by
  have hlayout := (h.layout_iff (s := s) (m := inlineMeta
      (sessionClaims cfg path r manifest recipient sender iat jti) r.bundleId
      (s.verified cfg env).reading) (s.verified cfg env).wall
    (exec cfg env .now (s.verified cfg env)).2.wall (h.length_decodedContents hcomplete)
    (List.Perm.refl _) rfl rfl ⟨hcheck, hwritable.1⟩).mpr hwritable.2
  obtain ⟨k, d₁, d₂, d₃, hopen, hwr, hc, -⟩ := hlayout
  exact (h.returns_sendInline hmode hiat hexp hkey hcomplete).mpr
    ⟨k, d₁, d₂, d₃, hopen, hwr, hc, trivial⟩

end Granted

/-- The session `alice` gets for one small file, to be sent inline. -/
def inlineSession : SendInitResult where
  bundleId := 0
  mode := .inline
  token := .signed
    { uploadClaims "inbox/bob:b/p" 0 "alice:a" "bob:b" .inline
        [⟨"a", 1, "application/octet-stream"⟩] 300 5 with jti := some 1 }
    oneByteConfig.jwtPrimaryKey
  expiresAt := 305
  uploadUrl := none

/-- What phase one answers on the MCP surface. -/
def inlineInit : Except Exc SendInitResult × Server :=
  runE (exec oneByteConfig .core) (prepareSendInit oneByteConfig "bob:b" "p"
    (smallManifest ["a"]) alice (some "alice:a") true) srvSystem.server

/-- The entry of one byte. -/
def inlineEntry (content : String) : SendInlineFile := ⟨"a", content, .utf8⟩

end Cassetta
