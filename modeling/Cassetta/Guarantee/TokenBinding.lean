import Cassetta.Guarantee.Minting

/-!
# A token and the bundle it was signed for

A download token names a path and the id of the bundle that was there, and the endpoint
compares the path only. So a token serves the bundle it was signed for as long as nothing
else is committed at its path before it expires, and this module says so for every run.
-/

namespace Cassetta

open Prog

variable {cfg : Config} {env : Environment}

/-! ## The property -/

/-- Every download that is answered under a token handed out before streams a file of the
bundle now at the token's path, and that bundle has the id the token was signed for. -/
def DownloadsBound (cfg : Config) (env : Environment) (sys : System) : Prop :=
  ∀ t ∈ sys.handed, ∀ req key st s', req.bearer = some (.signed t.claims key) →
    runE (exec cfg env) (Download.downloadFile cfg req) sys.server = (.ok st, s') →
    t.claims.bundlePath = some st.bundlePath ∧
      (∃ m, cfg.backend.readBundleMeta s'.disk.tree st.bundlePath = some m ∧
        t.claims.bundleId = some m.bundleId) ∧
      cfg.backend.openBundleFileRead s'.disk.tree st.bundlePath st.name = some st.unread

/-! ## The condition on each call -/

/-- A call that puts a manifest where a token in force leads puts one with the token's id. -/
def BindingClear (cfg : Config) (handed : List Handed) (s : Server) : AnyCall → Prop
  | .plain c => ∀ p ∈ c.puts s, ∀ t ∈ handed, ¬t.Expired s.wall →
      p.1 = t.manifestLoc cfg.backend →
        ∀ m ∈ cfg.backend.loadMeta p.2, t.claims.bundleId = some m.bundleId
  | .claim _ => True

instance (cfg : Config) (handed : List Handed) (s : Server) :
    ∀ c, Decidable (BindingClear cfg handed s c)
  | .plain c => inferInstanceAs (Decidable (∀ p ∈ c.puts s, _))
  | .claim _ => inferInstanceAs (Decidable True)

/-! ## The invariant -/

/-- What lies where a token in force leads, if it is a manifest, has the token's id. -/
def BoundOn (cfg : Config) (handed : List Handed) (s : Server) : Prop :=
  ∀ t ∈ handed, ¬t.Expired s.wall → ∀ blob,
    s.disk.tree.fileAt (t.manifestLoc cfg.backend) = some blob →
      ∀ m ∈ cfg.backend.loadMeta blob, t.claims.bundleId = some m.bundleId

/-- Time may pass, and files may go. -/
theorem BoundOn.mono {handed : List Handed} {s s' : Server} (h : BoundOn cfg handed s)
    (hwall : s.wall ≤ s'.wall)
    (hfile : ∀ q blob, s'.disk.tree.fileAt q = some blob → s.disk.tree.fileAt q = some blob) :
    BoundOn cfg handed s' := by
  intro t ht hexp blob hblob
  exact h t ht (fun he => hexp (he.mono hwall)) blob (hfile _ _ hblob)

/-- A call keeps the tokens bound. -/
theorem BoundOn.execAny {handed : List Handed} (s : Server) (c : AnyCall)
    (h : BoundOn cfg handed s) (hg : BindingClear cfg handed s c) :
    BoundOn cfg handed (execAny cfg env c s).2 := by
  cases c with
  | claim c =>
    refine h.mono (le_of_eq (execClaim_wall c s).symm) fun q blob hq => ?_
    rwa [Cassetta.execAny, execClaim_disk] at hq
  | plain c =>
    intro t ht hexp blob hblob m hm
    have hexp' : ¬t.Expired s.wall := fun he => hexp (he.mono (exec_wall_le c s))
    rcases exec_fileAt hblob with hold | hput
    · exact h t ht hexp' blob hold m hm
    · exact hg _ hput t ht hexp' rfl m hm

/-- A token that has just been handed out leads to the bundle it was signed for. -/
theorem HandedOut.bound {s s' : Server} {e : Event} {path : String} {t : Handed}
    (h : HandedOut cfg s s' e path t) {blob : Blob}
    (hblob : s'.disk.tree.fileAt (t.manifestLoc cfg.backend) = some blob) {m : BundleMeta}
    (hm : cfg.backend.loadMeta blob = some m) : t.claims.bundleId = some m.bundleId := by
  obtain ⟨m₀, recipient, iat, jti, hclaims, hread, -⟩ := h.signed.minted
  obtain ⟨blob₀, hblob₀, hm₀⟩ := Backend.readBundleMeta_eq_some hread
  have hloc : t.manifestLoc cfg.backend = cfg.backend.location path ++ [bundleManifest] := by
    simp [Handed.manifestLoc, h.signed.bundlePath]
  rw [hloc, h.signed.disk, hblob₀] at hblob
  obtain rfl := Option.some.inj hblob
  obtain rfl := Option.some.inj (hm₀.symm.trans hm)
  rw [hclaims]
  rfl

/-- An event whose calls meet the condition keeps every token bound. -/
theorem System.step_bound (sys : System) (e : Event) (h : BoundOn cfg sys.handed sys.server)
    (hg : sys.Calls cfg env (BindingClear cfg sys.handed) e) :
    BoundOn cfg (sys.step cfg env e).handed (sys.step cfg env e).server := by
  have hkeep : BoundOn cfg sys.handed (sys.step cfg env e).server :=
    System.step_server BoundOn.execAny
      (fun s hs => hs.mono (e.le_outside_wall s) fun q blob hq => by rwa [e.outside_disk] at hq)
      hg h
  intro t ht hexp blob hblob m hm
  rcases System.step_handed ht with hold | ⟨path, hnew⟩
  · exact hkeep t hold hexp blob hblob m hm
  · exact hnew.bound hblob hm

/-- Where tokens are bound, downloads are. -/
theorem BoundOn.downloads {sys : System} (h : BoundOn cfg sys.handed sys.server) :
    DownloadsBound cfg env sys := by
  intro t ht req key st s' hbearer hrun
  obtain ⟨hl, claims, m, hserved⟩ := wpE_ok (Download.ensures_downloadFile req) hrun
  obtain ⟨key', hbearer', -⟩ := hserved.bearer
  obtain ⟨hclaims, -⟩ := Token.signed.inj (Option.some.inj (hbearer.symm.trans hbearer'))
  rw [← hclaims] at hserved
  rw [hl.disk]
  refine ⟨hserved.path, ⟨m, hserved.manifest, ?_⟩, hserved.content⟩
  obtain ⟨blob, hblob, hm⟩ := Backend.readBundleMeta_eq_some hserved.manifest
  have hloc : t.manifestLoc cfg.backend =
      cfg.backend.location st.bundlePath ++ [bundleManifest] := by
    simp [Handed.manifestLoc, hserved.path]
  have hexp : ¬t.Expired sys.server.wall := by
    intro he
    obtain ⟨exp, nbf, iat, jti, hexp, -, -, -, -, -, hnot⟩ := hserved.timely
    have hpast := (he.mono hl.wall) exp hexp
    rw [not_reached_iff] at hnot
    exact absurd hpast (not_le.mpr hnot)
  exact h t ht hexp blob (hloc ▸ hblob) m hm

/-- In every run in which nothing with another id is committed where a token in force leads,
every download streams a file of the bundle its token was signed for. -/
theorem run_downloadsBound (cfg : Config) (env : Environment) {sys : System}
    (hsys : sys.handed = []) (events : List Event)
    (hg : Runs.Guarded (System.step cfg env)
      (fun sys e => sys.Calls cfg env (BindingClear cfg sys.handed) e) sys events) :
    DownloadsBound cfg env (sys.run cfg env events) :=
  BoundOn.downloads (hg.invariant (I := fun sys => BoundOn cfg sys.handed sys.server)
    System.step_bound (by simp [BoundOn, hsys]))

/-- A download right after the read that handed out the token. -/
theorem run_downloadsBound_read :
    DownloadsBound srvConfig .core (srvSystem.run srvConfig .core
      [.plain (.broadcast alice "p" (.raw [1])), .read (.inbox bob "bob:b" "p")]) ∧
    (runE (exec srvConfig .core) (Download.downloadFile srvConfig firstDownload)
      (srvSystem.run srvConfig .core [.plain (.broadcast alice "p" (.raw [1])),
        .read (.inbox bob "bob:b" "p")]).server).1.toOption.map (·.unread) = some [1] :=
  ⟨run_downloadsBound srvConfig .core rfl _ (by decide +kernel), by decide +kernel⟩

/-- A second broadcast to the path while a token for the first bundle is in force. -/
def reusedPath : List Event :=
  [.plain (.broadcast alice "p" (.raw [1])), .read (.inbox bob "bob:b" "p"),
    .plain (.broadcast alice "p" (.raw [2]))]

/-- The token for the first bundle then serves the second. -/
theorem run_not_downloadsBound :
    ¬DownloadsBound srvConfig .core (srvSystem.run srvConfig .core reusedPath) := by
  intro h
  have hhanded : firstClaims ∈
      (srvSystem.run srvConfig .core reusedPath).handed.map (·.claims) := by decide +kernel
  obtain ⟨t, ht, hclaims⟩ := List.mem_map.mp hhanded
  rcases hrun : runE (exec srvConfig .core) (Download.downloadFile srvConfig firstDownload)
    (srvSystem.run srvConfig .core reusedPath).server with ⟨r, s'⟩
  have hok : (runE (exec srvConfig .core) (Download.downloadFile srvConfig firstDownload)
      (srvSystem.run srvConfig .core reusedPath).server).1.toOption.map (·.bundlePath) =
        some "inbox/bob:b/p" := by decide +kernel
  have hmeta : (srvBackend.readBundleMeta
      (runE (exec srvConfig .core) (Download.downloadFile srvConfig firstDownload)
        (srvSystem.run srvConfig .core reusedPath).server).2.disk.tree
      "inbox/bob:b/p").map (·.bundleId) = some 2 := by decide +kernel
  rw [hrun] at hok hmeta
  cases r with
  | error e => simp [Except.toOption] at hok
  | ok st =>
    obtain ⟨-, ⟨m, hm, hid⟩, -⟩ := h t ht firstDownload srvConfig.jwtPrimaryKey st s'
      (by rw [hclaims]; rfl) hrun
    have hpath : st.bundlePath = "inbox/bob:b/p" := by simpa [Except.toOption] using hok
    rw [hpath] at hm
    have hm2 : some m.bundleId = some 2 := by
      rw [← hmeta]
      exact congrArg (Option.map (·.bundleId)) hm.symm
    rw [hclaims, hm2] at hid
    exact absurd hid (by decide)

end Cassetta
