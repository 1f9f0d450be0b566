import Cassetta.Server.Rules
import Cassetta.Storage.Removal

/-!
# Manifests that cannot be read

`read_bundle_meta` says of a manifest that is no JSON text, or no object, that it is not found. It
lets other failures through: bytes that are no UTF-8 make it raise, and an object that its caller
can make nothing of makes the caller raise. Such contents come from clients only. The server of
this module raises at them, and is the server behind the calls everywhere else.
-/

namespace Cassetta

open FileTree Prog

/-! ## Contents -/

/-- The contents at which a read of a manifest raises something else than a missing file. They
bring no manifest. -/
structure Garble (b : Backend) where
  test : Bytes → Bool
  unloaded : ∀ bytes, test bytes = true → b.loads bytes = none

/-- A file with such contents; what a commit has written is none. -/
def Garble.spoils {b : Backend} (g : Garble b) : Blob → Bool
  | .raw bytes => g.test bytes
  | .manifest .. => false

/-- For the small server: a single byte that begins no character. -/
def srvGarble : Garble srvConfig.backend where
  test bytes := bytes = [255]
  unloaded _ _ := rfl

namespace Backend

variable (b : Backend) (g : Garble b)

/-- The manifest of a path cannot be read. -/
def garbled (t : DataTree) (path : String) : Bool :=
  (t.readFile (metaPath (b.resolve path))).any g.spoils

/-- The manifest of a directory cannot be read. -/
def garbledAt (t : DataTree) (loc : List String) : Bool :=
  (t.fileAt (loc ++ [bundleManifest])).any g.spoils

variable {b g} {t : DataTree} {path : String} {loc : List String}

/-- A path that is spelled out is the directory it leads to. -/
theorem garbled_eq (h : b.resolve path = spell loc) : b.garbled g t path = b.garbledAt g t loc := by
  have hm : metaPath (spell loc) = spell (loc ++ [bundleManifest]) := by simp [metaPath, spell]
  rw [garbled, h, hm, Tree.readFile_spell]
  rfl

private theorem loadMeta_of_spoils {blob : Blob} (h : g.spoils blob = true) :
    b.loadMeta blob = none := by
  cases blob with
  | raw bytes => exact g.unloaded bytes h
  | manifest m serial => cases h

/-- A manifest that can be loaded can be read. -/
theorem garbled_of_read {m : BundleMeta} (h : b.readBundleMeta t path = some m) :
    b.garbled g t path = false := by
  obtain ⟨blob, hblob, hload⟩ := Option.bind_eq_some_iff.mp h
  rw [garbled, hblob, Option.any_some, ← Bool.not_eq_true]
  intro hspoils
  rw [loadMeta_of_spoils hspoils] at hload
  cases hload

/-- A removal makes no manifest unreadable. -/
theorem garbled_of_deleteBundle {now : Nat} {p : String} {d : Disk}
    (h : b.garbled g (b.deleteBundle now p d).2.tree path = true) :
    b.garbled g d.tree path = true := by
  have hget : ∀ q n, (b.deleteBundle now p d).2.tree.get q = some n → d.tree.get q = some n := by
    intro q n hq
    unfold deleteBundle at hq
    split at hq
    · rcases hr : d.tree.rmtree (b.resolve p) with ⟨r, t⟩
      rw [hr] at hq
      refine @get_of_rmtree _ (b.resolve p) _ _ ?_
      rw [hr]
      cases r <;> exact hq
    · exact hq
  rw [garbled, Option.any_eq_true] at h ⊢
  obtain ⟨blob, hblob, hspoils⟩ := h
  obtain ⟨hway, hfile⟩ := Tree.readFile_eq_some_iff.mp hblob
  refine ⟨blob, Tree.readFile_eq_some_iff.mpr ⟨?_, hget _ _ hfile⟩, hspoils⟩
  exact Tree.resolveFrom_mono (fun q => hget q _) hway

end Backend

/-- A fresh server has no manifest that could not be read. -/
theorem garbled_srvTree (g : Garble srvBackend) (path : String) :
    srvBackend.garbled g srvTree path = false := by
  rw [Backend.garbled, Option.any_eq_false]
  intro blob hblob
  obtain ⟨-, hfile⟩ := Tree.readFile_eq_some_iff.mp hblob
  rw [← Tree.fileAt_eq_some_iff, srvTree_fileAt] at hfile
  cases hfile

/-! ## The server -/

section Exec

variable (cfg : Config) (env : Environment) (g : Garble cfg.backend)

/-- Answer a call; a read of a manifest that cannot be read raises. -/
def execReading (c : Call) (s : Server) : c.Answer × Server :=
  match c with
  | .readBundleMeta path =>
    if cfg.backend.garbled g s.disk.tree path then (.error (.valueError "invalid start byte"), s)
    else exec cfg env (.readBundleMeta path) s
  | c => exec cfg env c s

/-- Answer either kind of call. -/
def execAnyReading : (c : AnyCall) → Server → c.Answer × Server
  | .plain c, s => execReading cfg env g c s
  | .claim c, s => execClaim c s

private theorem agree_reading : Prog.Agree AnyCall.plain (fun _ a => a) (execReading cfg env g)
    (execAnyReading cfg env g) := fun _ _ => rfl

end Exec

variable {cfg : Config} {env : Environment} {g : Garble cfg.backend} {s s' : Server} {α : Type}

/-- A call that does not come upon a manifest that cannot be read. -/
def Call.Legible (cfg : Config) (g : Garble cfg.backend) (s : Server) : Call → Prop
  | .readBundleMeta path => cfg.backend.garbled g s.disk.tree path = false
  | _ => True

/-- A call that reads no manifest. -/
def Call.Readless : Call → Prop
  | .readBundleMeta _ => False
  | _ => True

/-- A call of either kind that reads no manifest. -/
def AnyCall.Readless : AnyCall → Prop
  | .plain c => c.Readless
  | .claim _ => True

/-- Where a call comes upon no such manifest the server is the server behind the calls. -/
theorem execReading_of_legible (s : Server) (c : Call) (h : c.Legible cfg g s) :
    execReading cfg env g c s = exec cfg env c s := by
  cases c with
  | readBundleMeta path =>
    have hclear : ¬cfg.backend.garbled g s.disk.tree path = true := by
      rw [Bool.not_eq_true]
      exact h
    exact if_neg hclear
  | _ => rfl

/-- A call changes what it changes whether it can read or not. -/
theorem execReading_snd (c : Call) (s : Server) :
    (execReading cfg env g c s).2 = (exec cfg env c s).2 := by
  cases c with
  | readBundleMeta path =>
    rw [execReading, apply_ite Prod.snd]
    exact ite_self s
  | _ => rfl

/-- A program that reads no manifest runs as it does on the server behind the calls. -/
theorem runE_reading_readless {x : Handler α} (h : OnlyE Call.Readless x) :
    runE (execReading cfg env g) x s = runE (exec cfg env) x s := by
  have hsame : ∀ (s : Server) (c : Call), c.Readless →
      execReading cfg env g c s = exec cfg env c s := by
    refine fun s c hc => execReading_of_legible s c ?_
    cases c <;> trivial
  exact runE_eq_of_guarded hsame (h.wpE s)

/-- So does one that has the claim store. -/
theorem runE_anyReading_readless {x : ClaimHandler α} (h : OnlyE AnyCall.Readless x) :
    runE (execAnyReading cfg env g) x s = runE (execAny cfg env) x s := by
  refine runE_eq_of_guarded (fun s (c : AnyCall) (hc : c.Readless) => ?_) (h.wpE s)
  cases c with
  | plain c =>
    refine execReading_of_legible s c ?_
    cases c <;> trivial
  | claim c => rfl

/-- A handler without the claim store runs alike among those with it. -/
theorem runE_anyReading_plain {x : Handler α} :
    runE (execAnyReading cfg env g) (plain x) s = runE (execReading cfg env g) x s :=
  runE_embedE (agree_reading cfg env g) x

/-- A handler without the claim store, among those with it. -/
theorem wpE_anyReading_plain {guard : Server → AnyCall → Prop} {x : Handler α}
    {Q : α → Server → Prop} {E : Exc → Server → Prop} :
    wpE (execAnyReading cfg env g) guard (plain x) Q E s ↔
      wpE (execReading cfg env g) (fun s c => guard s (.plain c)) x Q E s :=
  wpE_embedE (agree_reading cfg env g) x

/-- What reads no manifest returns the same where some cannot be read. -/
theorem returns_anyReading_readless {x : ClaimHandler α} (h : OnlyE AnyCall.Readless x)
    {Q : α → Server → Prop} :
    Returns (execAnyReading cfg env g) x Q s ↔ Returns (execAny cfg env) x Q s := by
  rw [returns_iff_run, returns_iff_run, runE_anyReading_readless h]

/-! ## Reading -/

/-- The run of a read of a manifest, which may not be readable. -/
theorem runE_reading_readBundleMeta (path : String) (s : Server) :
    runE (execReading cfg env g) (readBundleMeta path) s =
      (.ok (if cfg.backend.garbled g s.disk.tree path then .error (.valueError "invalid start byte")
        else match cfg.backend.readBundleMeta s.disk.tree path with
          | some m => .ok m
          | none => .error .fileNotFound), s) := by
  show (Except.ok (execReading cfg env g (.readBundleMeta path) s).1,
    (execReading cfg env g (.readBundleMeta path) s).2) = _
  rw [execReading_snd]
  by_cases h : cfg.backend.garbled g s.disk.tree path = true
  · simp only [execReading, if_pos h]
    rfl
  · simp only [execReading, if_neg h]
    rfl

private theorem readless_isExpiredByMeta (createdAt : Nat) :
    OnlyE Call.Readless (isExpiredByMeta cfg createdAt) := by
  unfold isExpiredByMeta
  split
  · trivial
  · exact OnlyE.bind (onlyE_performE trivial) fun _ => trivial

private theorem readless_computeRemainingTtl (createdAt : Nat) :
    OnlyE Call.Readless (computeRemainingTtl cfg createdAt) := by
  unfold computeRemainingTtl
  split
  · trivial
  · exact OnlyE.bind (onlyE_performE trivial) fun _ => trivial

private theorem readless_deleteQuiet (path : String) : OnlyE Call.Readless (deleteQuiet path) := by
  refine OnlyE.bind (onlyE_performE trivial) fun r => ?_
  split <;> trivial

/-- Listing bundles reads no manifest. -/
theorem readless_listBundles (pre : String) (orphans : Bool) :
    OnlyE Call.Readless (listBundles pre orphans) := by
  refine OnlyE.bind (onlyE_performE trivial) fun r => ?_
  rcases r with e | refs <;> trivial

/-- Counting reads no manifest. -/
theorem readless_increment (counter : Counter) : OnlyE Call.Readless (increment counter) := by
  refine OnlyE.bind (onlyE_performE trivial) fun r => ?_
  rcases r with e | u <;> trivial

/-- Sending the head of an answer reads no manifest. -/
theorem readless_sendHead (values : List String) : OnlyE Call.Readless (sendHead values) := by
  unfold sendHead
  split <;> trivial

private theorem readless_orRaise {β : Type} (r : Except StorageError β) :
    OnlyE Call.Readless (orRaise r) := by
  rcases r with e | b <;> trivial

private theorem readless_collectBundleFiles (path : String) (files : List FileRecord) :
    OnlyE Call.Readless (collectBundleFiles path files) := by
  induction files with
  | nil => trivial
  | cons f rest ih =>
    refine OnlyE.bind (onlyE_performE trivial) fun r => ?_
    exact OnlyE.bind (readless_orRaise r) fun data => OnlyE.bind ih fun others => trivial

/-- A handler that reads no manifest, among those with the claim store. -/
theorem readless_plain {x : Handler α} (h : OnlyE Call.Readless x) :
    OnlyE AnyCall.Readless (plain x) := OnlyE.embedE h

private theorem readless_buildReferencePayloadForInbox (bundlePath : String) (m : BundleMeta)
    (recipient : String) (writeClaim : Bool) :
    OnlyE AnyCall.Readless
      (buildReferencePayloadForInbox cfg bundlePath m recipient writeClaim) := by
  have hmint : OnlyE Call.Readless (mintDownload cfg bundlePath m recipient) :=
    OnlyE.bind (onlyE_performE trivial) fun t =>
      OnlyE.bind (onlyE_performE trivial) fun _ => trivial
  refine OnlyE.bind (readless_plain hmint) fun minted => ?_
  cases writeClaim with
  | false => trivial
  | true =>
    refine OnlyE.bind (readless_plain (onlyE_performE trivial)) fun t => ?_
    refine OnlyE.bind (onlyE_performE trivial) fun r => ?_
    rcases r with e | u <;> trivial

/-- Handing out a bundle reads no manifest. -/
theorem Inbox.readless_consume (agent path : String) (m : BundleMeta) (missing : Exc) :
    OnlyE AnyCall.Readless (Inbox.consume cfg agent path m missing) := by
  unfold Inbox.consume
  cases evaluateDownload cfg.limits m.totalSize with
  | reference =>
    refine OnlyE.bind (OnlyE.tryCatch (readless_buildReferencePayloadForInbox _ _ _ _)
      fun e => ?_) fun _ => trivial
    split <;> trivial
  | inline =>
    refine OnlyE.bind (readless_plain (readless_collectBundleFiles _ _)) fun payloads => ?_
    exact OnlyE.bind (readless_plain (readless_deleteQuiet _)) fun _ => trivial

/-- The access check reads no manifest. -/
theorem readless_enforce (identity : Identity) (resource : Resource) (action : Action)
    (denied : Exc) : OnlyE Call.Readless (enforce identity resource action denied) := by
  refine OnlyE.bind (onlyE_performE trivial) fun r => ?_
  refine OnlyE.bind ?_ fun allowed => ?_
  · rcases r with e | a <;> trivial
  · split <;> trivial

/-- The question whether a bundle is past its time is answered, and the disk is as it was. -/
private theorem exists_isExpiredByMeta (createdAt : Nat) (s : Server) :
    ∃ expired s', runE (exec cfg env) (isExpiredByMeta cfg createdAt) s = (.ok expired, s') ∧
      s'.disk = s.disk := by
  unfold isExpiredByMeta
  split
  · exact ⟨false, s, rfl, rfl⟩
  · exact ⟨_, _, rfl, rfl⟩

private theorem exists_computeRemainingTtl (createdAt : Nat) (s : Server) :
    ∃ remaining s', runE (exec cfg env) (computeRemainingTtl cfg createdAt) s =
      (.ok remaining, s') ∧ s'.disk = s.disk := by
  unfold computeRemainingTtl
  split
  · exact ⟨none, s, rfl, rfl⟩
  · exact ⟨_, _, rfl, rfl⟩

/-- The read of a manifest that cannot be read fails. -/
private theorem read_garbled {path : String} (h : cfg.backend.garbled g s.disk.tree path = true) :
    runE (execReading cfg env g) (readBundleMeta path) s =
      (.ok (.error (.valueError "invalid start byte")), s) := by
  rw [runE_reading_readBundleMeta, if_pos h]

/-- Every other one does what it does on the server behind the calls. -/
private theorem read_clear {path : String} (h : cfg.backend.garbled g s.disk.tree path = false) :
    runE (execReading cfg env g) (readBundleMeta path) s =
      (.ok (match cfg.backend.readBundleMeta s.disk.tree path with
        | some m => .ok m
        | none => .error .fileNotFound), s) := by
  rw [runE_reading_readBundleMeta, h]
  rfl

/-- A read for a fresh bundle that comes upon a manifest that can be read. -/
theorem runE_reading_readFreshOr {path : String}
    (h : cfg.backend.garbled g s.disk.tree path = false) (missing : Exc) :
    runE (execReading cfg env g) (readFreshOr cfg path missing) s =
      runE (exec cfg env) (readFreshOr cfg path missing) s := by
  have hmeta : runE (execReading cfg env g) (readMetaOr path missing) s =
      runE (exec cfg env) (readMetaOr path missing) s := by
    rw [readMetaOr, runE_bind_ok (read_clear h), runE_bind_ok (runE_readBundleMeta_plain path s)]
    cases cfg.backend.readBundleMeta s.disk.tree path <;> rfl
  rw [readFreshOr, runE_bind, runE_bind, hmeta]
  rcases runE (exec cfg env) (readMetaOr path missing) s with ⟨e | m, s'⟩
  · rfl
  · refine runE_reading_readless (OnlyE.bind (readless_isExpiredByMeta _) fun expired => ?_)
    cases expired with
    | true => exact OnlyE.bind (readless_deleteQuiet _) fun _ => trivial
    | false => trivial

/-! ## Programs that end on a condition -/

/-- On a condition a program runs on the first server as on the second; else the storage raises. -/
structure EndsIf {C : Type} {A : C → Type} (h h' : (c : C) → Server → A c × Server) (P : Prop)
    (x : ExceptT Exc (Prog C A) α) (s : Server) : Prop where
  same : P → runE h x s = runE h' x s
  raises : ¬P → ∃ why s', runE h x s = (.error (.storage why), s')

namespace EndsIf

variable {C : Type} {A : C → Type} {h h' : (c : C) → Server → A c × Server} {P : Prop} {β : Type}
  {x : ExceptT Exc (Prog C A) α} {f : α → ExceptT Exc (Prog C A) β}

/-- It returns on the first what it returns on the second, on the condition. -/
theorem returns_iff (hx : EndsIf h h' P x s) (Q : α → Server → Prop) :
    Returns h x Q s ↔ P ∧ Returns h' x Q s := by
  rw [returns_iff_run, returns_iff_run]
  by_cases hP : P
  · rw [hx.same hP, and_iff_right hP]
  · obtain ⟨why, s', hrun⟩ := hx.raises hP
    rw [hrun]
    exact iff_of_false (by simp) fun hboth => hP hboth.1

/-- What comes before it runs alike on both. -/
theorem bind_left {a : α} {s' : Server} (hx : runE h x s = (.ok a, s'))
    (hx' : runE h' x s = (.ok a, s')) (hf : EndsIf h h' P (f a) s') :
    EndsIf h h' P (x >>= f) s := by
  constructor
  · intro hP
    rw [runE_bind_ok hx, runE_bind_ok hx', hf.same hP]
  · intro hP
    rw [runE_bind_ok hx]
    exact hf.raises hP

/-- What comes after it runs alike on both. -/
theorem bind_right (hx : EndsIf h h' P x s) (hf : ∀ a s', runE h (f a) s' = runE h' (f a) s') :
    EndsIf h h' P (x >>= f) s := by
  constructor
  · intro hP
    rw [runE_bind, runE_bind, hx.same hP]
    rcases runE h' x s with ⟨e | a, s'⟩
    · rfl
    · exact hf a s'
  · intro hP
    obtain ⟨why, s', hrun⟩ := hx.raises hP
    refine ⟨why, s', ?_⟩
    rw [runE_bind, hrun]

/-- A handler without the claim store ends alike among those with it. -/
theorem plain {x : Handler α} (hx : EndsIf (execReading cfg env g) (exec cfg env) P x s) :
    EndsIf (execAnyReading cfg env g) (execAny cfg env) P (plain x) s := by
  constructor
  · intro hP
    rw [runE_anyReading_plain, runE_execAny_plain, hx.same hP]
  · intro hP
    rw [runE_anyReading_plain]
    exact hx.raises hP

end EndsIf

/-- A read that fails so ends the loop it is in. -/
private theorem endsIf_garbled {path : String} {β : Type}
    {f : Except StorageError BundleMeta → Handler β} {P : Prop}
    (h : cfg.backend.garbled g s.disk.tree path = true) (hP : ¬P)
    (hf : f (.error (.valueError "invalid start byte")) =
      throw (.storage (.valueError "invalid start byte"))) :
    EndsIf (execReading cfg env g) (exec cfg env) P (readBundleMeta path >>= f) s := by
  refine ⟨fun hyes => absurd hyes hP, fun _ => ⟨.valueError "invalid start byte", s, ?_⟩⟩
  rw [runE_bind_ok (read_garbled h), hf]
  rfl

private theorem endsIf_cons {path : String} {rest : List String} {β : Type}
    {f : Except StorageError BundleMeta → Handler β}
    (hf : f (.error (.valueError "invalid start byte")) =
      throw (.storage (.valueError "invalid start byte")))
    (hmissing : EndsIf (execReading cfg env g) (exec cfg env)
      (∀ q ∈ rest, cfg.backend.garbled g s.disk.tree q = false) (f (.error .fileNotFound)) s)
    (hfound : ∀ m, EndsIf (execReading cfg env g) (exec cfg env)
      (∀ q ∈ rest, cfg.backend.garbled g s.disk.tree q = false) (f (.ok m)) s) :
    EndsIf (execReading cfg env g) (exec cfg env)
      (∀ q ∈ path :: rest, cfg.backend.garbled g s.disk.tree q = false)
      (readBundleMeta path >>= f) s := by
  rw [List.forall_mem_cons]
  cases hpath : cfg.backend.garbled g s.disk.tree path with
  | true => exact endsIf_garbled hpath (by simp) hf
  | false =>
    rw [eq_self, true_and]
    refine EndsIf.bind_left (read_clear hpath) (runE_readBundleMeta_plain path s) ?_
    cases cfg.backend.readBundleMeta s.disk.tree path with
    | none => exact hmissing
    | some m => exact hfound m

private theorem endsIf_expired {createdAt : Nat} {P : Prop} {β : Type} {f : Bool → Handler β}
    (hf : ∀ expired s₁, s₁.disk = s.disk →
      EndsIf (execReading cfg env g) (exec cfg env) P (f expired) s₁) :
    EndsIf (execReading cfg env g) (exec cfg env) P (isExpiredByMeta cfg createdAt >>= f) s := by
  obtain ⟨expired, s₁, hexp, hdisk⟩ := @exists_isExpiredByMeta cfg env createdAt s
  exact EndsIf.bind_left ((runE_reading_readless (readless_isExpiredByMeta _)).trans hexp) hexp
    (hf expired s₁ hdisk)

/-- A listing comes to its end exactly if every manifest on its way can be read. -/
theorem endsIf_listingEntries (base : String) (paths : List String) :
    EndsIf (execReading cfg env g) (exec cfg env)
      (∀ path ∈ paths, cfg.backend.garbled g s.disk.tree path = false)
      (listingEntries cfg base paths) s := by
  induction paths generalizing s with
  | nil => exact ⟨fun _ => rfl, fun h => absurd (by simp) h⟩
  | cons path rest ih =>
    unfold listingEntries
    apply endsIf_cons rfl ih
    intro m
    apply endsIf_expired
    intro expired s₁ hdisk
    rw [← hdisk]
    cases expired with
    | true => exact ih
    | false =>
      obtain ⟨remaining, s₂, hrem, hdisk'⟩ := @exists_computeRemainingTtl cfg env m.createdAt s₁
      refine EndsIf.bind_left
        ((runE_reading_readless (readless_computeRemainingTtl _)).trans hrem) hrem ?_
      rw [← hdisk']
      exact ih.bind_right fun _ _ => rfl

/-- So does the search for the newest bundle. -/
theorem endsIf_newestBundle (best : Option (String × BundleMeta)) (paths : List String) :
    EndsIf (execReading cfg env g) (exec cfg env)
      (∀ path ∈ paths, cfg.backend.garbled g s.disk.tree path = false)
      (newestBundle cfg best paths) s := by
  induction paths generalizing s best with
  | nil => exact ⟨fun _ => rfl, fun h => absurd (by simp) h⟩
  | cons path rest ih =>
    unfold newestBundle
    apply endsIf_cons rfl (ih best)
    intro m
    apply endsIf_expired
    intro expired s₁ hdisk
    rw [← hdisk]
    cases expired with
    | true => exact ih best
    | false =>
      cases best with
      | none => exact ih (some (path, m))
      | some held =>
        show EndsIf _ _ _ (if held.2.createdAt < m.createdAt then _ else _) s₁
        split
        · exact ih (some (path, m))
        · exact ih (some held)

end Cassetta
