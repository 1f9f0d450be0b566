import Cassetta.Guarantee.Claiming

/-!
# Deletes on behalf of a claim

The end of a stream and the claim sweep both delete a bundle once the names noted in a claim
cover the manifest found at its path. The claim does not say which bundle it was issued for,
so a bundle put in the place of the claimed one can be deleted unread. This module says that
nothing is lost as long as no bundle comes to lie at or below a claimed path.
-/

namespace Cassetta

open Prog

variable {cfg : Config} {env : Environment} {sys : System}

/-! ## The property -/

/-- Every manifest that a delete at a path takes away, at the path or below it, lists only
files that were streamed to their last byte under a claim for the path, and while that very
manifest was in place. -/
def Delivered (b : Backend) (claims : List ClaimRecord) (streamed : List Streamed) (d : Disk)
    (path : String) : Prop :=
  ∃ c ∈ claims, c.bundlePath = path ∧ ∀ l blob m, b.location path <+: l →
    d.tree.fileAt (l ++ [bundleManifest]) = some blob → b.loadMeta blob = some m →
    ∀ n ∈ m.names, ∃ x ∈ streamed, x.jti = c.jti ∧ x.name = n ∧ x.found = some blob

/-- A call deletes nothing that has not been delivered. -/
def DeliveredFirst (b : Backend) (claims : List ClaimRecord) (streamed : List Streamed)
    (s : Server) : AnyCall → Prop
  | .plain (.deleteBundle path) => Delivered b claims streamed s.disk path
  | _ => True

/-- The end of a stream, and a claim sweep, delete nothing that has not been delivered. -/
def NothingUndelivered (cfg : Config) (env : Environment) (sys : System) : Prop :=
  ∀ e, (e = .sweepClaims ∨ ∃ k, e = .chunk k) →
    sys.Calls cfg env (DeliveredFirst cfg.backend sys.server.claims.sidecars
      (sys.streamed ++ sys.streamedBy e)) e

/-! ## The condition on each call -/

/-- No readable manifest is put at or below a claimed path, and no path is claimed while one
lies below it. -/
def ClaimsClear (cfg : Config) (s : Server) : AnyCall → Prop
  | .plain c => ∀ p ∈ c.puts s, ∀ k ∈ s.claims.sidecars,
      cfg.backend.location k.bundlePath <+: p.1.dropLast → p.1.getLast? = some bundleManifest →
        cfg.backend.loadMeta p.2 = none
  | .claim (.issue k) => ∀ entry ∈ s.disk.tree.entries,
      StrictlyInside (cfg.backend.location k.bundlePath) entry.1.dropLast →
        entry.1.getLast? = some bundleManifest →
          ∀ blob ∈ s.disk.tree.fileAt entry.1, cfg.backend.loadMeta blob = none
  | .claim _ => True

instance (cfg : Config) (s : Server) : ∀ c, Decidable (ClaimsClear cfg s c)
  | .plain c => inferInstanceAs (Decidable (∀ p ∈ c.puts s, _))
  | .claim (.issue _) => inferInstanceAs (Decidable (∀ entry ∈ s.disk.tree.entries, _))
  | .claim (.get _) => inferInstanceAs (Decidable True)
  | .claim (.markFetched ..) => inferInstanceAs (Decidable True)
  | .claim (.delete _) => inferInstanceAs (Decidable True)
  | .claim .iterAll => inferInstanceAs (Decidable True)

/-! ## The invariant -/

/-- A claim and the manifest it was issued over: nothing else readable lies at or below the
path, every name noted was streamed under it, and so will be what is still streaming. -/
structure Kept (b : Backend) (streams : List (Option OpenStream)) (streamed : List Streamed)
    (d : Disk) (c : ClaimRecord) (basis : Blob) : Prop where
  place : ∀ l blob m, b.location c.bundlePath <+: l →
    d.tree.fileAt (l ++ [bundleManifest]) = some blob → b.loadMeta blob = some m →
    l = b.location c.bundlePath ∧ blob = basis
  fetched : ∀ n ∈ c.filesFetched,
    ∃ x ∈ streamed, x.jti = c.jti ∧ x.name = n ∧ x.found = some basis
  streams : ∀ o, some o ∈ streams → o.stream.jti = c.jti →
    o.found = some basis ∧ ∃ m, b.loadMeta basis = some m ∧ o.stream.manifestFiles = m.files

/-- Every claim in the store is kept. -/
def KeptOn (cfg : Config) (streams : List (Option OpenStream)) (streamed : List Streamed)
    (s : Server) : Prop :=
  ∀ c ∈ s.claims.sidecars, ∃ basis, Kept cfg.backend streams streamed s.disk c basis

private theorem Kept.of_files {b : Backend} {streams : List (Option OpenStream)}
    {streamed : List Streamed} {d d' : Disk} {c : ClaimRecord} {basis : Blob}
    (h : Kept b streams streamed d c basis)
    (hfile : ∀ l blob m, b.location c.bundlePath <+: l →
      d'.tree.fileAt (l ++ [bundleManifest]) = some blob → b.loadMeta blob = some m →
      d.tree.fileAt (l ++ [bundleManifest]) = some blob) :
    Kept b streams streamed d' c basis :=
  ⟨fun l blob m hl hblob hm => h.place l blob m hl (hfile l blob m hl hblob hm) hm, h.fetched,
    h.streams⟩

/-- A claim that has just been issued is kept. -/
theorem kept_issue {e : Event} {s : Server} {k : ClaimRecord} (hsys : Known cfg sys)
    (huse : ClaimUse cfg sys e s (.claim (.issue k))) (hg : ClaimsClear cfg s (.claim (.issue k))) :
    ∃ basis, Kept cfg.backend sys.streams (sys.streamed ++ sys.streamedBy e) s.disk k basis := by
  obtain ⟨-, hge, -, hnone, -, m, hm⟩ := huse
  obtain ⟨basis, hbasis, -⟩ := Backend.readBundleMeta_eq_some hm
  refine ⟨basis, fun l blob m hl hblob hload => ?_, by simp [hnone], fun o ho hj => ?_⟩
  · by_cases hl' : l = cfg.backend.location k.bundlePath
    · subst hl'
      exact ⟨rfl, Option.some.inj (hblob.symm.trans hbasis)⟩
    · have hentry := (FileTree.Tree.get_eq_some_iff (by simp)).mp
        (FileTree.Tree.fileAt_eq_some_iff.mp hblob)
      have := hg _ hentry ⟨by simpa using hl, by simpa using hl'⟩ (by simp) blob hblob
      rw [this] at hload
      cases hload
  · obtain ⟨t, ht, htj, -⟩ := hsys.streams o ho
    obtain ⟨j, hj', hlt⟩ := hsys.used t ht
    rw [htj] at hj'
    obtain rfl := Option.some.inj hj'
    exact absurd (hj ▸ hlt) (not_lt.mpr hge)

/-- A call keeps what has not been delivered. -/
theorem KeptOn.execAny {e : Event} (hsys : Known cfg sys) (s : Server) (c : AnyCall)
    (h : s.claims.Sound ∧ KeptOn cfg sys.streams (sys.streamed ++ sys.streamedBy e) s)
    (hg : ClaimUse cfg sys e s c ∧ ClaimsClear cfg s c) :
    (execAny cfg env c s).2.claims.Sound ∧
      KeptOn cfg sys.streams (sys.streamed ++ sys.streamedBy e) (execAny cfg env c s).2 := by
  obtain ⟨hs, hkept⟩ := h
  obtain ⟨huse, hclear⟩ := hg
  cases c with
  | plain c =>
    refine ⟨by rwa [Cassetta.execAny, exec_claims], fun k hk => ?_⟩
    rw [Cassetta.execAny, exec_claims] at hk
    obtain ⟨basis, hbasis⟩ := hkept k hk
    refine ⟨basis, hbasis.of_files fun l blob m hl hblob hm => ?_⟩
    rcases exec_fileAt hblob with hold | hput
    · exact hold
    · have := hclear _ hput k hk (by simpa using hl) (by simp)
      rw [this] at hm
      cases hm
  | claim c =>
    cases c with
    | issue k =>
      refine ⟨hs.issue k, fun k' hk' => ?_⟩
      change k' ∈ (s.claims.issue k).2.sidecars at hk'
      rcases ClaimStore.issue_cases k s.claims with heq | ⟨-, -, heq⟩
      · rw [heq] at hk'
        exact hkept k' hk'
      · rw [heq] at hk'
        rcases List.mem_append.mp hk' with hold | hnew
        · exact hkept k' hold
        · obtain rfl := List.mem_singleton.mp hnew
          exact kept_issue hsys huse hclear
    | get jti => exact ⟨hs, hkept⟩
    | iterAll => exact ⟨hs, hkept⟩
    | markFetched jti name =>
      refine ⟨hs.markFetched jti name, fun k hk => ?_⟩
      rcases ClaimStore.mem_markFetched hs hk with ⟨hold, -⟩ | ⟨k₀, hk₀, hj, rfl⟩
      · exact hkept k hold
      · obtain ⟨basis, hbasis⟩ := hkept k₀ hk₀
        obtain ⟨i, o, rfl, ho, hend, rfl, rfl⟩ := huse
        have hmem := List.mem_of_getElem? (Option.join_eq_some_iff.mp ho)
        refine ⟨basis, ?_⟩
        refine ⟨by rw [ClaimRecord.fetch_bundlePath]; exact hbasis.place, fun n hn => ?_,
          by rw [ClaimRecord.fetch_jti]; exact hbasis.streams⟩
        rw [ClaimRecord.fetch_jti]
        rcases ClaimRecord.mem_fetch.mp hn with hn | rfl
        · exact hbasis.fetched n hn
        · refine ⟨⟨o.stream.jti, o.stream.name, o.found⟩, ?_, hj.symm, rfl,
            (hbasis.streams o hmem hj.symm).1⟩
          simp [System.streamedBy, ho, hend]
    | delete jti =>
      refine ⟨hs.delete jti, fun k hk => ?_⟩
      exact hkept k (ClaimStore.mem_delete.mp hk).1

/-- The streams move on, and one that is opened runs over the manifest of its claim. -/
theorem KeptOn.streams {e : Event} (hsys : Known cfg sys) (hg : sys.Genuine e)
    (hkept :
    KeptOn cfg sys.streams (sys.streamed ++ sys.streamedBy e) (sys.step cfg env e).server) :
    KeptOn cfg (sys.step cfg env e).streams (sys.step cfg env e).streamed
      (sys.step cfg env e).server := by
  intro c hc
  obtain ⟨basis, hbasis⟩ := hkept c hc
  refine ⟨basis, hbasis.place, hbasis.fetched, fun o ho hj => ?_⟩
  rcases System.step_streams ho with
    ⟨o₀, ho₀, hf, hj₀, -, hfiles⟩ | ⟨req, claims, m, t, rfl, hs, hfound, hclaims, hdisk⟩
  · rw [hf, hfiles]
    exact hbasis.streams o₀ ho₀ (hj₀ ▸ hj)
  · obtain ⟨tok, htok, -, htj, htp⟩ := hg.served hs
    rw [hclaims] at hc
    have hpath := (hsys.paired tok htok c hc (hj ▸ htj)).1
    rw [htp] at hpath
    obtain ⟨blob, hblob, hm⟩ := Backend.readBundleMeta_eq_some hs.manifest
    rw [Option.some.inj hpath, ← hdisk] at hblob
    obtain ⟨-, rfl⟩ := hbasis.place _ blob m (List.prefix_refl _) hblob hm
    refine ⟨?_, m, hm, hs.files⟩
    rw [hfound, Backend.manifestBlob, ← hdisk, Option.some.inj hpath, hblob]

/-- What is known, and what is kept. -/
structure Watched (cfg : Config) (sys : System) : Prop where
  known : Known cfg sys
  kept : KeptOn cfg sys.streams sys.streamed sys.server

/-- What is kept is kept as more is streamed. -/
theorem KeptOn.mono {streams : List (Option OpenStream)} {streamed rest : List Streamed}
    {s : Server} (h : KeptOn cfg streams streamed s) : KeptOn cfg streams (streamed ++ rest) s := by
  intro c hc
  obtain ⟨basis, hbasis⟩ := h c hc
  refine ⟨basis, hbasis.place, fun n hn => ?_, hbasis.streams⟩
  obtain ⟨x, hx, hrest⟩ := hbasis.fetched n hn
  exact ⟨x, List.mem_append_left _ hx, hrest⟩

/-- An event whose calls meet the condition keeps the claims. -/
theorem Watched.step (sys : System) (e : Event) (h : Watched cfg sys)
    (hg : sys.Genuine e ∧ sys.Calls cfg env (ClaimsClear cfg) e) :
    Watched cfg (sys.step cfg env e) := by
  refine ⟨h.known.step hg.1, KeptOn.streams h.known hg.1 ?_⟩
  have hcalls : sys.Calls cfg env (fun s c => ClaimUse cfg sys e s c ∧ ClaimsClear cfg s c) e :=
    wpE_and (sys.usesClaims e) hg.2
  refine (System.step_server (I := fun s => s.claims.Sound ∧
    KeptOn cfg sys.streams (sys.streamed ++ sys.streamedBy e) s)
    (KeptOn.execAny h.known) (fun s hs => ?_) hcalls ⟨h.known.sound, h.kept.mono⟩).2
  unfold KeptOn
  rw [Event.outside_claims, Event.outside_disk]
  exact hs

/-! ## The two deletes -/

/-- What is delivered when the names noted in a kept claim cover the manifest. -/
theorem Kept.delivered {b : Backend} {streams : List (Option OpenStream)}
    {streamed : List Streamed} {claims : List ClaimRecord} {d : Disk} {c c' : ClaimRecord}
    {basis : Blob} {files : List FileRecord} (h : Kept b streams streamed d c' basis)
    (hc : c ∈ claims) (hjti : c'.jti = c.jti) (hpath : c'.bundlePath = c.bundlePath)
    (hfiles : ∀ m, d.tree.fileAt (b.location c.bundlePath ++ [bundleManifest]) = some basis →
      b.loadMeta basis = some m → m.files = files)
    (hall : files.all (fun f => f.name ∈ c'.filesFetched) = true) :
    Delivered b claims streamed d c.bundlePath := by
  refine ⟨c, hc, rfl, fun l blob m hl hblob hm n hn => ?_⟩
  obtain ⟨rfl, rfl⟩ := h.place l blob m (hpath ▸ hl) hblob hm
  rw [hpath] at hblob
  obtain ⟨f, hf, rfl⟩ := List.mem_map.mp hn
  rw [hfiles m hblob hm] at hf
  rw [← hjti]
  exact h.fetched f.name (by simpa using List.all_eq_true.mp hall f hf)

/-- The end of a stream deletes nothing that has not been delivered. -/
theorem Watched.chunk (h : Watched cfg sys) (k : Nat) :
    sys.Calls cfg env (DeliveredFirst cfg.backend sys.server.claims.sidecars
      (sys.streamed ++ sys.streamedBy (.chunk k))) (.chunk k) := by
  simp only [System.Calls, Event.program]
  split
  · trivial
  rename_i o ho
  split
  swap
  · trivial
  rename_i hend
  simp only [wpE_bind, wpE_pure, Download.Stream.finish]
  split
  swap
  · trivial
  simp only [Download.postStreamClaimAccounting, wpE_bind, wpE_getClaim]
  refine ⟨trivial, ?_⟩
  cases hget : sys.server.claims.get o.stream.jti with
  | none => trivial
  | some c =>
    obtain ⟨hc, hcj⟩ := (ClaimStore.get_eq_some h.known.sound).mp hget
    obtain ⟨hok, hmem⟩ := ClaimStore.markFetched_of_get hget o.stream.name
    have ho' := List.mem_of_getElem? (Option.join_eq_some_iff.mp ho)
    obtain ⟨t, ht, htj, htp⟩ := h.known.streams o ho'
    have hpath := (h.known.paired t ht c hc (by rw [htj, hcj])).1
    rw [htp] at hpath
    have huse : ClaimUse cfg sys (.chunk k) sys.server
        (.claim (.markFetched o.stream.jti o.stream.name)) := ⟨k, o, rfl, ho, hend, rfl, rfl⟩
    have hkept : KeptOn cfg sys.streams (sys.streamed ++ sys.streamedBy (.chunk k))
        (execAny cfg env (.claim (.markFetched o.stream.jti o.stream.name)) sys.server).2 :=
      (KeptOn.execAny h.known sys.server _ ⟨h.known.sound, h.kept.mono⟩ ⟨huse, trivial⟩).2
    obtain ⟨basis, hbasis⟩ := hkept _ hmem
    simp only [wpE_bind, wpE_markFetched, hok]
    refine ⟨trivial, ?_⟩
    split
    · rename_i hall
      obtain ⟨-, m, hm, hfiles⟩ := hbasis.streams o ho' (by rw [ClaimRecord.fetch_jti, hcj])
      simp only [wpE_bind, wpE_plain, deleteQuiet, wpE_deleteBundle, wpE_deleteClaim]
      refine ⟨?_, by split <;> trivial⟩
      rw [Option.some.inj hpath]
      refine hbasis.delivered hc (by simp) (by simp) (fun m' _ hm' => ?_) hall
      rw [hfiles, Option.some.inj (hm'.symm.trans hm)]
    · trivial

/-- The files of the second disk are all on the first. -/
def Shrunk (d d' : Disk) : Prop :=
  ∀ q blob, d'.tree.fileAt q = some blob → d.tree.fileAt q = some blob

/-- The sweep of a claim deletes what was delivered first. -/
theorem Watched.sweepClaim {s : Server} {t : Nat} {c : ClaimRecord} {streamed : List Streamed}
    (hc : c ∈ sys.server.claims.sidecars)
    (hkept : KeptOn cfg sys.streams streamed sys.server) (hs : Shrunk sys.server.disk s.disk) :
    wpE (execAny cfg env) (DeliveredFirst cfg.backend sys.server.claims.sidecars streamed)
      (Background.sweepClaim cfg t c) (fun _ s' => Shrunk sys.server.disk s'.disk)
      (fun _ _ => True) s := by
  unfold Background.sweepClaim
  split
  · exact hs
  simp only [wpE_bind, wpE_plain, wpE_readBundleMeta]
  refine ⟨trivial, ?_⟩
  cases hm : cfg.backend.readBundleMeta s.disk.tree c.bundlePath with
  | none => exact ⟨trivial, hs⟩
  | some m =>
    simp only
    split
    · rename_i hcond
      obtain ⟨basis, hbasis⟩ := hkept c hc
      have hbasis' : Kept cfg.backend sys.streams streamed s.disk c basis :=
        hbasis.of_files fun l blob _ _ hblob _ => hs _ _ hblob
      simp only [wpE_bind, wpE_plain, wpE_deleteBundle, wpE_deleteClaim]
      refine ⟨?_, trivial, fun q blob hq => hs q blob (Backend.deleteBundle_fileAt_some hq)⟩
      refine hbasis'.delivered hc rfl rfl (fun m' hblob' hm' => ?_) hcond.2.1
      obtain ⟨blob, hblob, hload⟩ := Backend.readBundleMeta_eq_some hm
      obtain rfl := Option.some.inj (hblob'.symm.trans hblob)
      rw [Option.some.inj (hm'.symm.trans hload)]
    · exact ⟨trivial, hs⟩

/-- The sweep of several claims deletes what was delivered first. -/
theorem Watched.sweepEach {s : Server} {t : Nat} {claims : List ClaimRecord}
    {streamed : List Streamed} (hc : ∀ c ∈ claims, c ∈ sys.server.claims.sidecars)
    (hkept : KeptOn cfg sys.streams streamed sys.server) (hs : Shrunk sys.server.disk s.disk) :
    wpE (execAny cfg env) (DeliveredFirst cfg.backend sys.server.claims.sidecars streamed)
      (Background.sweepEach cfg t claims) (fun _ _ => True) (fun _ _ => True) s := by
  induction claims generalizing s with
  | nil => trivial
  | cons c rest ih =>
    simp only [Background.sweepEach, wpE_bind]
    refine wpE_mono (fun _ s' hs' => ?_) (fun _ _ h => h)
      (Watched.sweepClaim (hc c (by simp)) hkept hs)
    exact ih (fun c' hc' => hc c' (by simp [hc'])) hs'

/-- In a watched system nothing undelivered is deleted on behalf of a claim. -/
theorem Watched.nothingUndelivered (h : Watched cfg sys) : NothingUndelivered cfg env sys := by
  rintro e (rfl | ⟨k, rfl⟩)
  · simp only [System.Calls, Event.program, Background.sweepClaims, wpE_bind, wpE_pure,
      wpE_iterClaims]
    refine ⟨trivial, wpE_plain.mpr ⟨trivial, ?_⟩⟩
    exact Watched.sweepEach (fun c hc => hc) h.kept.mono fun _ _ hq => hq
  · exact h.chunk k

/-- A server that has no claims and no streams yet is watched. -/
theorem watched_boot (hclaims : sys.server.claims = {}) (hhanded : sys.handed = [])
    (hstreams : sys.streams = []) : Watched cfg sys := by
  refine ⟨⟨?_, ?_, ?_, ?_, ?_, ?_⟩, ?_⟩ <;> simp [hclaims, hhanded, hstreams, KeptOn]
  exact ClaimStore.sound_empty

/-- In every run in which no bundle comes to lie at or below a claimed path, whatever the end
of a stream or a claim sweep deletes has been delivered in full. -/
theorem run_nothingUndelivered (cfg : Config) (env : Environment) {sys : System}
    (hclaims : sys.server.claims = {}) (hhanded : sys.handed = []) (hstreams : sys.streams = [])
    (events : List Event)
    (hg : Runs.Guarded (System.step cfg env)
      (fun sys e => sys.Genuine e ∧ sys.Calls cfg env (ClaimsClear cfg) e) sys events) :
    NothingUndelivered cfg env (sys.run cfg env events) :=
  (hg.invariant Watched.step (watched_boot hclaims hhanded hstreams)).nothingUndelivered

/-! ## Runs of a small server -/

/-- A pick and the download of its only file, up to the end of the file. -/
def pickAndDownload : List Event :=
  [.plain (.broadcast alice "p" (.raw [1])), .pick (.rest bob "bob:b" "p"),
    .download firstDownload, .chunk 0]

/-- One more turn of the generator, and the bundle is gone, delivered. -/
theorem run_nothingUndelivered_download :
    NothingUndelivered srvConfig .core (srvSystem.run srvConfig .core pickAndDownload) ∧
      srvBackend.manifestBlob (srvSystem.run srvConfig .core
        (pickAndDownload ++ [.chunk 0])).server.disk "inbox/bob:b/p" = none :=
  ⟨run_nothingUndelivered srvConfig .core rfl rfl rfl _ (by decide +kernel), by decide +kernel⟩

/-- A second broadcast to the path while the file of the first is under way. -/
def replacedUnderWay : List Event :=
  [.plain (.broadcast alice "p" (.raw [1])), .pick (.rest bob "bob:b" "p"),
    .download firstDownload, .plain (.broadcast alice "p" (.raw [2])), .chunk 0]

/-- The manifest at a path that is deleted lists streamed files. -/
def ManifestStreamed (b : Backend) (streamed : List Streamed) (s : Server) : AnyCall → Prop
  | .plain (.deleteBundle path) => ∀ blob ∈ b.manifestBlob s.disk path, ∀ m ∈ b.loadMeta blob,
      ∀ n ∈ m.names, ∃ x ∈ streamed, x.name = n ∧ x.found = some blob
  | _ => True

instance (b : Backend) (streamed : List Streamed) (s : Server) (c : AnyCall) :
    Decidable (ManifestStreamed b streamed s c) := by
  unfold ManifestStreamed
  split <;> infer_instance

/-- The end of the first file then deletes the second bundle, of which nothing was streamed. -/
theorem run_not_nothingUndelivered :
    ¬NothingUndelivered srvConfig .core (srvSystem.run srvConfig .core replacedUnderWay) := by
  intro h
  have hcalls : (srvSystem.run srvConfig .core replacedUnderWay).Calls srvConfig .core
      (ManifestStreamed srvBackend ((srvSystem.run srvConfig .core replacedUnderWay).streamed ++
        (srvSystem.run srvConfig .core replacedUnderWay).streamedBy (.chunk 0))) (.chunk 0) := by
    refine wp_guard_mono (I := fun _ => True) (fun s c _ hc => ⟨?_, trivial⟩)
      (h (.chunk 0) (.inr ⟨0, rfl⟩)) trivial
    cases c with
    | claim c => trivial
    | plain c =>
      cases c with
      | deleteBundle path =>
        obtain ⟨c, -, -, hall⟩ := hc
        intro blob hblob m hm n hn
        obtain ⟨x, hx, -, hname, hfound⟩ := hall _ blob m (List.prefix_refl _) hblob hm n hn
        exact ⟨x, hx, hname, hfound⟩
      | _ => trivial
  revert hcalls
  decide +kernel

end Cassetta
