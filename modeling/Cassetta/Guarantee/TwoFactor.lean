import Cassetta.Server.Rules
import Cassetta.Storage.Laying

/-!
# The two factors of a download

The endpoint streams for a token and an identity. In dev mode the identity is not checked, and
the code says so with a label of its own, `*`, which it lets pass for every recipient. The
label of a request outside dev mode is what the header says, and a header may say `*` too.
-/

namespace Cassetta.Download

open FileTree Prog

variable {cfg : Config} {env : Environment}

/-! ## The property and the condition -/

/-- What a request brings apart from the identity: a token in order, signed with a key in
force, for the path and the name of the URL, and a bundle there that lists the name. -/
structure Admitted (cfg : Config) (s : Server) (req : Request) (claims : Claims)
    (path name : String) (m : BundleMeta) : Prop where
  signed : ∃ key, req.bearer = some (.signed claims key) ∧
    (key = s.slots.primary ∨ (resolveSecondary s.slots s.mono).1 = some key)
  timely : claims.Timely s.reading
  url : splitRawPath req.rawPath = .ok (path, name)
  bound : claims.bundlePath = some path
  named : ∃ names, claims.fileNames = some names ∧ name ∈ names
  manifest : cfg.backend.readBundleMeta s.disk.tree path = some m
  listed : name ∈ m.names

/-- The header is the recipient the token is made out to. -/
def Identified (req : Request) (claims : Claims) : Prop :=
  ∃ recipient, claims.recipient = some recipient ∧ req.sender = some recipient

/-- A request is streamed only if it brings both factors. -/
def NeedsBothFactors (cfg : Config) (env : Environment) (s : Server) (req : Request) : Prop :=
  ∀ st s', runE (exec cfg env) (downloadFile cfg req) s = (.ok st, s') →
    ∃ claims path name m, Admitted cfg s req claims path name m ∧ Identified req claims

/-- The recipient a bearer token is made out to. -/
def Request.recipient (req : Request) : Option String :=
  match req.bearer with
  | some (.signed claims _) => claims.recipient
  | _ => none

/-! ## When a request is streamed -/

/-- The identity check of the endpoint. -/
def Passes (cfg : Config) (sender : Option String) (recipient : String) : Prop :=
  ∃ label, resolveIdentityLabel cfg sender = some label ∧ (label = "*" ∨ label = recipient)

/-- The type of the file of that name can stand in a head. -/
def Typed (m : BundleMeta) (name : String) : Prop :=
  ∀ f, m.files.find? (·.name = name) = some f → headValue (contentType f) = true

/-- A request is streamed exactly if it is admitted, its token has a bundle id and a recipient,
its identity passes, the file can be opened, and its type can stand in the head. -/
theorem streams_iff {s : Server} {req : Request} :
    (∃ st s', runE (exec cfg env) (downloadFile cfg req) s = (.ok st, s')) ↔
      ∃ claims path name m, Admitted cfg s req claims path name m ∧ claims.bundleId.isSome ∧
        (∃ recipient, claims.recipient = some recipient ∧ Passes cfg req.sender recipient) ∧
        (cfg.backend.openBundleFileRead s.disk.tree path name).isSome ∧ Typed m name := by
  have hreturns : (∃ st s', runE (exec cfg env) (downloadFile cfg req) s = (.ok st, s')) ↔
      Returns (exec cfg env) (downloadFile cfg req) (fun _ _ => True) s := by
    simp [returns_iff_run]
  rw [hreturns, downloadFile]
  cases hbearer : req.bearer with
  | none =>
    simp only [Returns, wpE_throw, false_iff]
    rintro ⟨claims, path, name, m, ⟨⟨key, hb, -⟩, -⟩, -⟩
    simp [hbearer] at hb
  | some token =>
    simp only [Returns, wpE_bind]
    rw [← Returns, returns_verifyToken_iff]
    have hdisk : (s.verified cfg env).disk = s.disk := rfl
    constructor
    · rintro ⟨claims, key, rfl, ht, hkey, h⟩
      split at h
      iterate 4 exact h.elim
      rename_i bundlePath bundleId recipient fileNames hpath hid hrec hnames
      split at h
      · exact h.elim
      rename_i path name hsplit
      split at h
      · exact h.elim
      rename_i hsame
      split at h
      · exact h.elim
      rename_i hname
      split at h
      · exact h.elim
      rename_i label hlabel
      split at h
      · exact h.elim
      rename_i hpass
      simp only [wpE_bind, readMetaOr, wpE_readBundleMeta, true_and, hdisk] at h
      cases hm : cfg.backend.readBundleMeta s.disk.tree bundlePath with
      | none => simp [hm] at h
      | some m =>
        simp only [hm, wpE_pure] at h
        split at h
        · exact h.elim
        rename_i f hf
        simp only [wpE_bind, wpE_openBundleFileRead, true_and, hdisk] at h
        obtain rfl : path = bundlePath := not_not.mp hsame
        have hfn : f.name = name := by simpa using List.find?_some hf
        refine ⟨claims, path, name, m, ⟨⟨key, hbearer, hkey⟩, ht, hsplit, hpath,
          ⟨fileNames, hnames, not_not.mp hname⟩, hm, ?_⟩, by simp [hid],
          ⟨recipient, hrec, label, hlabel, ?_⟩, ?_, fun f' hf' => ?_⟩
        · exact List.mem_map.mpr ⟨f, List.mem_of_find?_eq_some hf, hfn⟩
        · by_contra hno
          exact hpass (not_or.mp hno)
        · cases hdata : cfg.backend.openBundleFileRead s.disk.tree path name with
          | none => simp [hdata] at h
          | some data => rfl
        · obtain rfl := Option.some.inj (hf.symm.trans hf')
          cases hdata : cfg.backend.openBundleFileRead s.disk.tree path name with
          | none => simp [hdata] at h
          | some data =>
            simp only [hdata, wpE_bind, wpE_sendHead] at h
            by_contra htype
            exact h.2 (by simp [htype])
    · rintro ⟨claims, path, name, m, hadm, hid, ⟨recipient, hrec, label, hlabel, hpass⟩, hopen,
        htyped⟩
      obtain ⟨key, hb, hkey⟩ := hadm.signed
      obtain rfl : token = .signed claims key := Option.some.inj (hbearer.symm.trans hb)
      refine ⟨claims, key, rfl, hadm.timely, hkey, ?_⟩
      obtain ⟨bundleId, hid⟩ := Option.isSome_iff_exists.mp hid
      obtain ⟨names, hnames, hname⟩ := hadm.named
      obtain ⟨data, hdata⟩ := Option.isSome_iff_exists.mp hopen
      have hpass' : ¬(label ≠ "*" ∧ label ≠ recipient) := fun h => hpass.elim h.1 h.2
      obtain ⟨f, hf⟩ : ∃ f, m.files.find? (·.name = name) = some f := by
        obtain ⟨f, hmem, hfn⟩ := List.mem_map.mp hadm.listed
        exact Option.isSome_iff_exists.mp (List.find?_isSome.mpr ⟨f, hmem, by simpa using hfn⟩)
      simp only [hadm.bound, hid, hrec, hnames, hadm.url, ne_eq, not_true_eq_false, if_false, hname,
        hlabel, if_neg hpass', wpE_bind, readMetaOr, wpE_readBundleMeta, true_and, hdisk]
      rw [hadm.manifest]
      simp only [wpE_pure, hf, wpE_bind, wpE_openBundleFileRead, true_and, hdisk]
      rw [hdata]
      simp [htyped f hf]

/-! ## A disk with one bundle -/

private theorem resolve_store (b : Backend) :
    b.resolve "store/p" = b.dataRoot ++ spell ["store", "p"] := by
  rw [Backend.resolve, joinPath, if_neg (by decide)]
  rfl

private theorem location_store_ne_nil (b : Backend) : b.location "store/p" ≠ [] := by
  rw [Backend.location, resolve_store, Backend.dataRoot, normalize_append_spell, normalize_spell]
  simp

private theorem freeAt_empty (b : Backend) : b.FreeAt (Disk.init Tree.empty) "store/p" := by
  have hget : (Tree.empty : DataTree).get (b.location "store/p") = none := by
    rw [Tree.get_empty, if_neg (location_store_ne_nil b)]
  refine ⟨?_, hget⟩
  have hnodir : (Tree.empty : DataTree).isDir (b.resolve "store/p") = false := by
    rw [← Bool.not_eq_true, Tree.isDir_iff]
    rintro ⟨-, hdir⟩
    exact absurd (hget.symm.trans hdir) (by simp)
  have hdrop : (b.resolve "store/p").drop b.dataRoot.length = spell ["store", "p"] := by
    rw [resolve_store, List.drop_left]
  have hanc : b.checkedAncestors (b.resolve "store/p") = [] := by
    rw [Backend.checkedAncestors, hdrop]
    rfl
  show b.checkBundlePathCollision Tree.empty (b.resolve "store/p") = none
  unfold Backend.checkBundlePathCollision
  rw [hanc, hnodir]
  simp

private theorem reachable_empty (b : Backend) : b.Reachable (Disk.init Tree.empty) "store/p" := by
  have hspell : b.resolve "store/p" = spell (b.root ++ ["data"] ++ ["store", "p"]) := by
    rw [resolve_store, Backend.dataRoot]
    simp [spell]
  refine ⟨fun pre _ c hc => ?_, ?_⟩
  · change (Tree.empty : DataTree).get _ = _ at hc
    rw [Tree.get_empty] at hc
    split at hc <;> cases hc
  · rw [hspell]
    exact Tree.opens_spell (by simp)

private theorem fills_single : Backend.Fills (smallMeta ["f"]) [("f", [0])] := by
  have hnames : (smallMeta ["f"]).names = ["f"] := by decide
  refine ⟨by decide, fun n => by simp [hnames], ?_⟩
  intro f hf
  obtain rfl := List.mem_singleton.mp hf
  exact ⟨[0], by simp, by simp⟩

private theorem downward_single : ∀ e ∈ [("f", ([0] : Bytes))], Downward e.1 := by
  intro e he
  obtain rfl := List.mem_singleton.mp he
  exact downward_of_validatePath (show validatePath defaultAllowedChars "f" = .ok () by decide)

private theorem unaliased_single (b : Backend) : b.Unaliased (smallMeta ["f"]) [("f", [0])] := by
  have htmp : steps "f" ≠ [.into bundleManifestTmp] := by decide
  have hmanifest : steps "f" ≠ [.into bundleManifest] := by decide
  simp [Backend.Unaliased, htmp, hmanifest]

private theorem writeWhole_single (b : Backend) : ∃ d,
    b.writeWhole 0 "store/p" [("f", [0])] (smallMeta ["f"]) (Disk.init Tree.empty) = .ok d := by
  have hstorable : Storable (smallMeta ["f"]).names := by decide
  have hnodup : ([("f", ([0] : Bytes))].map Prod.fst).Nodup := by decide
  obtain ⟨k, d₁, d₂, d₃, hopen, hwr, hc⟩ := (Backend.layout_isOk_iff 0 0 (freeAt_empty b)
    downward_single hnodup fills_single).mpr ⟨reachable_empty b, hstorable⟩
  refine ⟨d₃, ?_⟩
  rw [Backend.writeWhole, hopen]
  simp only [hwr, hc]

/-- Every backend can hold a bundle with one file in it. -/
theorem exists_disk (b : Backend) : ∃ d : Disk,
    b.readBundleMeta d.tree "store/p" = some (smallMeta ["f"]) ∧
      b.openBundleFileRead d.tree "store/p" "f" = some [0] := by
  obtain ⟨d, hwhole⟩ := writeWhole_single b
  have hvalid : validateManifest (smallMeta ["f"]).names = .ok () := by decide
  obtain ⟨hm, hread⟩ := (Backend.read_committed_iff hvalid hwhole).mpr (unaliased_single b)
  exact ⟨d, hm, hread ("f", [0]) (by simp)⟩

/-! ## The exact condition -/

/-- A token in order for the bundle on that disk, made out to a recipient. -/
def openClaims (recipient : String) : Claims :=
  { buildClaims "store/p" (smallMeta ["f"]) recipient 1 0 with jti := some 0 }

/-- A download of that bundle's file. -/
def openRequest (cfg : Config) (sender : Option String) (recipient : String) : Request where
  bearer := some (.signed (openClaims recipient) cfg.jwtPrimaryKey)
  rawPath := "/download/store%2Fp/f"
  sender := sender

/-- On some disk the file is streamed to whoever sends the header `*`. -/
theorem streams_star (cfg : Config) (env : Environment) (hdev : cfg.devMode = false)
    (recipient : String) :
    ∃ s st s', runE (exec cfg env) (downloadFile cfg (openRequest cfg (some "*") recipient)) s =
      (.ok st, s') := by
  obtain ⟨d, hm, hread⟩ := exists_disk cfg.backend
  let s : Server := { disk := d, slots := initJwtKeySlots cfg, wall := 0, mono := 0 }
  have hurl : splitRawPath "/download/store%2Fp/f" = .ok ("store/p", "f") := by decide +kernel
  have hstart : reached 0 0 = true := by decide
  have hend : reached 0 1 = false := by decide
  have htimely : (openClaims recipient).Timely s.reading :=
    ⟨1, 0, 0, 0, rfl, rfl, rfl, rfl, hstart, hstart, hend⟩
  have hlabel : resolveIdentityLabel cfg (some "*") = some "*" := by
    rw [resolveIdentityLabel, hdev]
    decide
  have htyped : Typed (smallMeta ["f"]) "f" := by
    intro f hf
    obtain rfl : f = ⟨"f", 1, "application/octet-stream"⟩ := by simpa [smallMeta] using hf.symm
    decide
  exact ⟨s, streams_iff.mpr ⟨openClaims recipient, "store/p", "f", smallMeta ["f"],
    ⟨⟨cfg.jwtPrimaryKey, rfl, .inl rfl⟩, htimely, hurl, rfl, ⟨["f"], rfl, by simp⟩, hm, by decide⟩,
    rfl, ⟨recipient, rfl, "*", hlabel, .inl rfl⟩, by simp [s, hread], htyped⟩⟩

/-- Outside dev mode a header and a recipient are safe, for every token made out to the
recipient, every URL and every state, if and only if the header is not `*` or the token is made
out to nobody else. -/
theorem needsBothFactors_iff (cfg : Config) (env : Environment) (hdev : cfg.devMode = false)
    (sender recipient : Option String) :
    (∀ s req, req.sender = sender → req.recipient = recipient →
        NeedsBothFactors cfg env s req) ↔
      (sender = some "*" → ∀ r, recipient = some r → r = "*") := by
  constructor
  · rintro h rfl r rfl
    obtain ⟨s, st, s', hrun⟩ := streams_star cfg env hdev r
    obtain ⟨claims, path, name, m, hadm, r', hr', hsender⟩ := h s _ rfl rfl st s' hrun
    obtain ⟨key, hb, -⟩ := hadm.signed
    obtain ⟨rfl, -⟩ := Token.signed.inj (Option.some.inj hb)
    obtain rfl : r = r' := Option.some.inj hr'
    exact (Option.some.inj hsender).symm
  · rintro h s req rfl rfl st s' hrun
    obtain ⟨claims, path, name, m, hadm, -, ⟨r, hr, label, hlabel, hpass⟩, -⟩ :=
      streams_iff.mp ⟨st, s', hrun⟩
    obtain ⟨key, hb, -⟩ := hadm.signed
    have hrecipient : req.recipient = some r := by simp [Request.recipient, hb, hr]
    have hsender : req.sender = some label := by
      rw [resolveIdentityLabel, hdev] at hlabel
      exact (Option.filter_eq_some_iff.mp hlabel).1
    refine ⟨claims, path, name, m, hadm, r, hr, ?_⟩
    rcases hpass with rfl | rfl
    · rw [h hsender r hrecipient, hsender]
    · exact hsender

/-! ## On a small server -/

/-- The server after a broadcast to `bob` and his pick. -/
def afterPick : Server :=
  (srvSystem.run srvConfig .core
    [.plain (.broadcast alice "p" (.raw [1])), .pick (.rest bob "bob:b" "p")]).server

/-- Whether a download is answered with a stream. -/
def streams (req : Request) : Bool :=
  (runE (exec srvConfig .core) (downloadFile srvConfig req) afterPick).1.toOption.any fun _ => true

/-- The recipient's own header. -/
theorem needsBothFactors_bob :
    streams firstDownload = true ∧ NeedsBothFactors srvConfig .core afterPick firstDownload :=
  ⟨by decide +kernel, (needsBothFactors_iff srvConfig .core rfl (some "bob:b")
    (some "bob:b")).mpr (by simp) afterPick firstDownload rfl rfl⟩

/-- The file goes to whoever holds the token and says `*`. -/
theorem streams_to_star :
    srvConfig.devMode = false ∧
      ¬NeedsBothFactors srvConfig .core afterPick { firstDownload with sender := some "*" } := by
  refine ⟨rfl, fun h => ?_⟩
  have hok : streams { firstDownload with sender := some "*" } = true := by decide +kernel
  obtain ⟨st, hst, -⟩ := exists_ok_of_any hok
  obtain ⟨claims, path, name, m, hadm, r, hr, hsender⟩ := h st _ (Prod.ext hst rfl)
  obtain ⟨key, hb, -⟩ := hadm.signed
  obtain ⟨rfl, -⟩ := Token.signed.inj (Option.some.inj hb)
  obtain rfl : "bob:b" = r := Option.some.inj hr
  exact absurd hsender (by decide)

end Cassetta.Download
