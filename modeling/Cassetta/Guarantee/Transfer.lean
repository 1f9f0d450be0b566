import Cassetta.Guarantee.Fetching
import Cassetta.Guarantee.SendOut

/-!
# From the sender's disk to the recipient's

A `cassetta send` reports a bundle. Later a pick by reference hands the bundle out, and a
`cassetta download` fetches it, while others do what they like elsewhere. If the download comes to
a good end, the recipient has the very bytes that were on the sender's disk when the tar was made.
-/

namespace Cassetta

open FileTree Prog

variable {cfg : Config} {env : Environment}

/-! ## A bundle left alone -/

/-- An event that changes nothing in the directory of a bundle. -/
def Spares (cfg : Config) (env : Environment) (path : String) (sys : System) (e : Event) : Prop :=
  ∀ q, cfg.backend.location path <+: q →
    (sys.step cfg env e).server.disk.tree.get q = sys.server.disk.tree.get q

private theorem spares_run {path : String} {sys : System} {events : List Event}
    (h : Runs.Guarded (System.step cfg env) (Spares cfg env path) sys events) (q : List String)
    (hq : cfg.backend.location path <+: q) :
    (sys.run cfg env events).server.disk.tree.get q = sys.server.disk.tree.get q := by
  refine h.invariant (I := fun sys' : System =>
    sys'.server.disk.tree.get q = sys.server.disk.tree.get q) (fun sys' e hsame hspares => ?_) rfl
  rw [hspares q hq, hsame]

private theorem spares_tick (path : String) (sys : System) (micros : Nat) :
    Spares cfg env path sys (.tick micros) := fun _ _ => rfl

namespace Backend

variable {b : Backend} {path : String} {t t' : DataTree}

private theorem readBundleMeta_of_same (hspell : b.resolve path = spell (b.location path))
    (hsame : ∀ q, b.location path <+: q → t'.get q = t.get q) :
    b.readBundleMeta t' path = b.readBundleMeta t path := by
  rw [readBundleMeta_eq hspell, readBundleMeta_eq hspell, metaAt, metaAt, Tree.fileAt, Tree.fileAt,
    hsame _ (List.prefix_append _ _)]

private theorem openBundleFileRead_of_same (hspell : b.resolve path = spell (b.location path))
    (hsame : ∀ q, b.location path <+: q → t'.get q = t.get q) {name : String}
    (hname : Downward name) :
    b.openBundleFileRead t' path name = b.openBundleFileRead t path name := by
  have hmeta : metaPath (b.resolve path) = spell (b.location path ++ [bundleManifest]) := by
    rw [metaPath, hspell, spell_append]
    rfl
  have hfile : joinPath (b.resolve path) name = spell (b.location path ++ below name) := by
    rw [hname.joinPath, hspell, spell_append]
  simp only [openBundleFileRead, Tree.isFile, hmeta, hfile, Tree.readFile_spell, Tree.fileAt,
    hsame _ (List.prefix_append _ _)]

/-- A commit at another time differs in the times it leaves alone. -/
theorem commit_at_any_time {now handle : Nat} {m : BundleMeta} {d d' : Disk}
    (h : commit now handle m d = (.ok (), d')) (now' : Nat) :
    ∃ d'', commit now' handle m d = (.ok (), d'') ∧ d''.tree = d'.tree := by
  unfold commit at h ⊢
  cases hw : d.writers handle with
  | none => simp [hw] at h
  | some w =>
    simp only [hw] at h ⊢
    cases hc : commitCheck w m with
    | error e => simp [hc] at h
    | ok _ =>
      simp only [hc] at h ⊢
      cases ht : d.tree.write (tmpPath w.bundleDir) (.manifest m d.commits.length) with
      | error e => simp [ht] at h
      | ok t =>
        simp only [ht] at h ⊢
        cases hr : t.rename (tmpPath w.bundleDir) (metaPath w.bundleDir) with
        | error e => simp [hr] at h
        | ok t' =>
          simp only [hr] at h ⊢
          obtain ⟨-, rfl⟩ := Prod.mk.inj h
          exact ⟨_, rfl, rfl⟩

end Backend

/-! ## The upload -/

/-- What a send that reported a bundle has written, with the manifest it has committed. -/
structure Cli.Wrote (cfg : Config) (m : Cli.Machine) (files : List String) (r : SendInitResult)
    (manifest : BundleMeta) (s' : Server) : Prop where
  whole : ∃ now before after, cfg.backend.writeWhole now r.bundlePath
    (files.map fun f => (f, m.contentOf f)) manifest before = .ok after ∧
      after.tree = s'.disk.tree
  read : cfg.backend.readBundleMeta s'.disk.tree r.bundlePath = some manifest
  id : manifest.bundleId = r.bundleId
  names : manifest.names = files
  downward : ∀ f ∈ files, Downward f
  isInbox : startsWith r.bundlePath "inbox/" = true

section Sent

variable {s s₁ s' later : Server} {to_ path : String} {raw : SendManifest} {identity : Identity}
  {r : SendInitResult} {m : Cli.Machine} {files : List String} {id : Id}

private theorem startsWith_inboxPath (agent path : String) :
    startsWith (inboxPath agent path) "inbox/" = true := by
  have happ : inboxPath agent path = "inbox/" ++ (agent ++ "/" ++ path) := by
    simp only [inboxPath, ← String.toList_inj, String.toList_append, List.append_assoc]
    rfl
  rw [happ, startsWith, String.toList_append]
  exact List.isPrefixOf_iff_prefix.mpr (List.prefix_append _ _)

/-- A session that has been uploaded to its end. -/
theorem Cli.wrote_of_sendTar
    (hinit : runE (exec cfg env) (createUploadSession cfg identity to_ path raw) s = (.ok r, s₁))
    (hraw : Cli.sendManifest m files = some raw)
    {passage : Cli.Passage}
    (hsend : Cli.sendTar (exec cfg env) cfg m files r passage later = (.ok id, s')) :
    ∃ manifest, Cli.Wrote cfg m files r manifest s' := by
  rcases sendTar_runs env hinit m files passage later with ⟨stop, s₂, hstop, -⟩ |
    ⟨-, uploaded, recipient, sender, iat, jti, infos, param, s₂, hg, hmode, htar, hreturns, hrun⟩
  · rw [hsend] at hstop
    cases hstop
  rw [hsend] at hrun
  obtain rfl : s' = s₂ := congrArg Prod.snd hrun
  obtain ⟨hnames, -⟩ := Cli.files_of_sendManifest hraw
  obtain rfl := hg.entries_of_returns hmode hraw htar hreturns
  obtain ⟨k, t, t', d₁, d₂, manifest, hopen, hwrite, hcommit⟩ := hg.laid_of_returns hmode hreturns
  obtain ⟨-, hread, -⟩ := Backend.written_ok hopen hwrite hcommit
  obtain ⟨after, hafter, htree⟩ := Backend.commit_at_any_time hcommit t
  obtain ⟨manifest', -, hid, hfiles, hread'⟩ := (hg.delivered hmode hraw htar hreturns).stored
  obtain rfl := Option.some.inj (hread.symm.trans hread')
  refine ⟨manifest, ⟨t, later.disk, after, ?_, htree⟩, hread, hid, ?_, fun f hf => ?_, ?_⟩
  · have hpairs : ((files.map m.entryOf).map fun i => (i.name, i.data)) =
        files.map fun f => (f, m.contentOf f) := by
      rw [List.map_map]
      rfl
    rw [← hpairs, Backend.writeWhole]
    simp only [hopen, hwrite, hafter]
  · have hsame := congrArg (List.map Prod.fst) hfiles
    simp only [List.map_map] at hsame
    rw [← hnames]
    exact hsame
  · exact hg.downward (hnames.symm ▸ hf)
  · rw [hg.bundlePath_eq]
    exact startsWith_inboxPath recipient path

end Sent

/-! ## The pick -/

namespace Parcel

/-- A pick takes the parcel out, of whatever bundle there is: all that `PickedIn` asks but where
the bundle comes from. -/
structure TakenBy (p : Parcel) (cfg : Config) (env : Environment) (sys : System)
    (r : PickRequest) : Prop where
  answered : (runE (execAny cfg env) (r.handler cfg) sys.server).1 = .ok (.reference p.envelope)
  token : ∃ key, p.envelope.downloadToken = .signed p.claims key
  straight : Step.up ∉ steps p.path
  addressed : p.claims.recipient ≠ some ""
  used : ∀ o, some o ∈ sys.streams → o.stream.jti < sys.server.nextId
  keys : (sys.step cfg env (.pick r)).server.slots.primary = cfg.jwtPrimaryKey
  timely : (sys.step cfg env (.pick r)).server.reading < p.deadline

variable {p : Parcel} {sys : System} {r : PickRequest}

/-- The bundle of the parcel is the one whose manifest is at its path. -/
theorem TakenBy.reads (h : p.TakenBy cfg env sys r) :
    cfg.backend.readBundleMeta sys.server.disk.tree p.path = some p.bundle := by
  rcases hrun : runE (execAny cfg env) (r.handler cfg) sys.server with ⟨res, s'⟩
  obtain rfl : res = .ok (.reference p.envelope) := by
    rw [← h.answered, hrun]
  obtain ⟨path, -, hpacked⟩ := wpE_ok (PickRequest.ensures_handler r) hrun
  obtain ⟨m, iat, jti, createdAt, henvelope, -, hread, -⟩ := hpacked p.envelope rfl
  obtain ⟨key, htoken⟩ := h.token
  have hclaims : p.claims = downloadClaims cfg path m r.agent iat jti := by
    have hsame := congrArg ReferenceEnvelope.downloadToken henvelope
    rw [htoken] at hsame
    exact (Token.signed.inj hsame).1
  have hpath : p.path = path := by
    rw [Parcel.path, hclaims]
    rfl
  have hbundle : p.bundle = m := congrArg ReferenceEnvelope.bundle henvelope
  rw [hpath, hbundle]
  exact hread

/-- A pick of what a send has written, since when nothing has changed there. -/
theorem TakenBy.pickedIn (h : p.TakenBy cfg env sys r) {m : Cli.Machine}
    {files : List String} {session : SendInitResult} {manifest : BundleMeta} {s : Server}
    (hwrote : Cli.Wrote cfg m files session manifest s) (hpath : p.path = session.bundlePath)
    (hsame : ∀ q, cfg.backend.location session.bundlePath <+: q →
      sys.server.disk.tree.get q = s.disk.tree.get q) :
    p.PickedIn cfg env (files.map fun f => (f, m.contentOf f)) sys r ∧ p.bundle = manifest := by
  have hinbox : startsWith p.path "inbox/" = true := by
    rw [hpath]
    exact hwrote.isInbox
  have hspell : cfg.backend.resolve session.bundlePath =
      spell (cfg.backend.location session.bundlePath) := by
    rw [← hpath]
    exact (resolve_spelled hinbox h.straight).1
  have hbundle : p.bundle = manifest := by
    have hread := h.reads
    rw [hpath, Backend.readBundleMeta_of_same hspell hsame, hwrote.read] at hread
    exact (Option.some.inj hread).symm
  obtain ⟨now, before, after, hwhole, htree⟩ := hwrote.whole
  refine ⟨⟨h.answered, h.token, hinbox, h.straight, ⟨now, before, after, ?_, fun n hn => ?_⟩,
    h.addressed, h.used, h.keys, h.timely⟩, hbundle⟩
  · rw [hpath, hbundle]
    exact hwhole
  · rw [hbundle, hwrote.names] at hn
    rw [Parcel.stored, hpath, htree]
    exact Backend.openBundleFileRead_of_same hspell hsame (hwrote.downward n hn)

end Parcel

/-- Files with tidy names do not meet. -/
theorem Tidy.apart {files : List String} (htidy : Tidy files)
    (hdown : ∀ f ∈ files, Downward f) (m : Cli.Machine) (b : Backend) (loc : List String)
    (manifest : BundleMeta) :
    b.Apart loc manifest (files.map fun f => (f, m.contentOf f)) := by
  constructor
  · intro e he
    obtain ⟨f, hf, rfl⟩ := List.mem_map.mp he
    rw [(hdown f hf).fileLoc, ne_eq, List.append_cancel_left_eq]
    exact htidy.tmp f hf
  · intro e he hmanifest
    obtain ⟨f, hf, rfl⟩ := List.mem_map.mp he
    rw [(hdown f hf).fileLoc, List.append_cancel_left_eq] at hmanifest
    exact absurd hmanifest (htidy.manifest f hf)
  · intro e he e' he' hmeet
    obtain ⟨f, hf, rfl⟩ := List.mem_map.mp he
    obtain ⟨f', hf', rfl⟩ := List.mem_map.mp he'
    rw [(hdown f hf).fileLoc, (hdown f' hf').fileLoc, List.append_cancel_left_eq] at hmeet
    obtain rfl := htidy.different f hf f' hf' hmeet
    rfl

/-! ## All of it -/

/-- A handler that issues no claim leaves a server standing. -/
theorem Standing.handled {α : Type} {s : Server} (hroot : ∀ k ∈ cfg.backend.root, FileName k)
    (h : Standing s) (x : Handler α) : Standing (runE (exec cfg env) x s).2 := by
  have htrue : wpE (exec cfg env) (fun _ _ => True) x (fun _ _ => True) (fun _ _ => True) s :=
    wpE_trivial _
  refine runE_invariant (fun s c hs _ => ⟨hs.named.exec hroot c, ?_, fun claim hclaim => ?_⟩)
    htrue h
  · rw [exec_claims]
    exact hs.paired
  · rw [exec_claims] at hclaim
    exact (hs.used claim hclaim).trans_le (exec_nextId_le c s)

/-- An upload keeps a server standing, whatever becomes of the request. -/
theorem Standing.sendTar {s : Server} (hroot : ∀ k ∈ cfg.backend.root, FileName k)
    (h : Standing s) (m : Cli.Machine) (files : List String) (r : SendInitResult)
    (passage : Cli.Passage) :
    Standing (Cli.sendTar (exec cfg env) cfg m files r passage s).2 := by
  have hafter : ∀ infos end_, Standing (runE (exec cfg env)
      (Cli.postUpload cfg r.token (rawPath (r.uploadUrl.getD "")) infos end_) s).2 :=
    fun infos end_ => h.handled hroot _
  rcases htar : Cli.tarEntries m [] files with ⟨infos, end_⟩
  by_cases hp : passage.Arrives
  · rw [Cli.sendTar_arrives hp htar rfl]
    exact hafter infos end_
  · unfold Cli.sendTar
    rw [htar]
    cases passage with
    | unsent => exact h
    | cut n => exact hafter (infos.take n) .broken
    | answered | lost | unreadable => exact absurd trivial hp

/-- After a send that reports a bundle, whatever happens elsewhere: a download of what a later pick
hands out comes to a good end exactly if all of each file came, and then the files the sender
named, each with the bytes found on the sender's disk, are all there is in its output directory. -/
theorem send_reaches (hroot : ∀ k ∈ cfg.backend.root, FileName k)
    (hbase : Pathless cfg.publicBaseUrl) {identity : Identity} {m : Cli.Machine}
    {to_ path : String} {args files : List String} {raw : SendManifest} {session : SendInitResult}
    {s s₁ later : Server} (hargs : args.mapM Cli.normaliseArg = some files)
    (hraw : Cli.sendManifest m files = some raw)
    (hinit : runE (exec cfg env) (createUploadSession cfg identity to_ path raw) s =
      (.ok session, s₁))
    (hstanding : Standing later) (start : System)
    {passage : Cli.Passage}
    (hsend : Cli.send (exec cfg env) cfg identity m to_ path args .answered passage s later =
      (.ok session.bundleId, start.server))
    (htidy : Tidy files) (hnames : ∀ f ∈ files, Cli.Nameable f) (between : List Event)
    (hbetween : Runs.Guarded (System.step cfg env) (Spares cfg env session.bundlePath) start
      between)
    (p : Parcel) (hpath : p.path = session.bundlePath) (r : PickRequest)
    (hpick : p.TakenBy cfg env (start.run cfg env between) r) (events : List Event)
    (hrun : Runs.Guarded (System.step cfg env) (p.Undisturbed cfg env)
      ((start.run cfg env between).step cfg env (.pick r)) events)
    (c : Fetching) (hfresh : Cli.Fresh c.out c.tree) (htoken : ∀ t, c.encode t ≠ [])
    (hserver : ∀ i f, p.envelope.files[i]? = some f → System.Gets cfg env
      ((start.run cfg env between).step cfg env (.pick r)) events
      (Cli.getFile p.envelope.downloadToken f.url) (c.server i)) :
    p.bundle.bundleId = session.bundleId ∧
      ((c.download p).1 = .ok () ↔ ∀ i < files.length, (c.server i).Whole) ∧
      ((c.download p).1 = .ok () → Cli.Holds c.out (files.map fun f => (f, m.contentOf f)) files
        (c.tree.mkdirParents (spell c.out)).2 (c.download p).2.tree) := by
  rw [Cli.send_eq hargs hraw hinit] at hsend
  obtain ⟨manifest, hwrote⟩ := Cli.wrote_of_sendTar hinit hraw hsend
  have hstart : Standing start.server := by
    rw [show start.server = _ from (congrArg Prod.snd hsend).symm]
    exact hstanding.sendTar hroot m files session passage
  obtain ⟨hpicked, hbundle⟩ := hpick.pickedIn hwrote hpath (spares_run hbetween)
  have hb := hpicked.begun hroot (hstart.run hroot between)
  have hback := hb.written.apart_iff.mpr
    (htidy.apart hwrote.downward m cfg.backend (p.loc cfg.backend) p.bundle)
  have hsame : p.bundle.names = files := by
    rw [hbundle]
    exact hwrote.names
  have hlength : p.envelope.files.length = files.length := by
    rw [← hsame, ← hb.entries.2.1, List.length_map]
  obtain ⟨hok, hholds⟩ := hb.fetching hroot hbase hback (hsame.symm ▸ hnames) hrun hfresh htoken
    hserver
  rw [hlength] at hok
  rw [hsame] at hholds
  refine ⟨?_, hok, hholds⟩
  rw [hbundle]
  exact hwrote.id

/-! ## On a small server -/

/-- The server after the first request of `cassetta send ./a --to bob:b --path p`. -/
def openedServer : Server :=
  (runE (exec srvConfig .core) (createUploadSession srvConfig alice "bob:b" "p"
    ⟨[⟨"a", 1, none⟩], some 1⟩) srvSystem.server).2

/-- The server after the second. -/
def reportedServer : Server :=
  (Cli.send (exec srvConfig .core) srvConfig alice oneByte "bob:b" "p" ["./a"] .answered .answered
    srvSystem.server openedServer).2

def reportedSystem : System := { srvSystem with server := reportedServer }

/-- A second later `bob` picks it. -/
def reportedPicked : System :=
  (reportedSystem.run srvConfig .core [.tick 1000000]).step srvConfig .core
    (.pick (.rest bob "bob:b" "p"))

/-- What he gets. -/
def reportedParcel : Parcel :=
  let bundle : BundleMeta :=
    ⟨1, 0, some "alice:a", 5000000, "file", 1, [⟨"a", 1, "application/octet-stream"⟩]⟩
  let claims : Claims :=
    { buildClaims (inboxPath "bob:b" "p") bundle "bob:b" 300 6 with jti := some 2 }
  ⟨buildReferenceEnvelopeWithPath srvConfig bundle (inboxPath "bob:b" "p")
    (.signed claims srvConfig.jwtPrimaryKey) 306, claims⟩

private theorem takenBy_reported : reportedParcel.TakenBy srvConfig .core
    (reportedSystem.run srvConfig .core [.tick 1000000]) (.rest bob "bob:b" "p") where
  answered := by decide +kernel
  token := ⟨srvConfig.jwtPrimaryKey, rfl⟩
  straight := by decide +kernel
  addressed := by decide
  used o ho := by
    have hnone : (reportedSystem.run srvConfig .core [.tick 1000000]).streams = [] := by
      decide +kernel
    rw [hnone] at ho
    cases ho
  keys := by decide +kernel
  timely := by decide +kernel

/-- The one GET of his command. -/
def reportedGet : Download.Request :=
  Cli.getFile reportedParcel.envelope.downloadToken
    (buildDownloadUrl srvConfig (inboxPath "bob:b" "p") "a")

private theorem fetches_reportedGet : reportedParcel.Fetches srvConfig "a" reportedGet where
  url := ⟨_, List.mem_singleton_self _, rfl, by decide +kernel⟩
  bearer := rfl
  sender := by decide +kernel

private theorem tidy_a : Tidy ["a"] where
  different n hn n' hn' _ := by
    rw [List.mem_singleton.mp hn, List.mem_singleton.mp hn']
  manifest n hn := by
    obtain rfl := List.mem_singleton.mp hn
    decide
  tmp n hn := by
    obtain rfl := List.mem_singleton.mp hn
    decide

private theorem nameable_a : ∀ f ∈ ["a"], Cli.Nameable f := by
  intro n hn
  obtain rfl := List.mem_singleton.mp hn
  exact ⟨downward_of_validatePath
    (show validatePath defaultAllowedChars "a" = .ok () by decide), by decide⟩

/-- `alice` sends one file, and `bob` has it. -/
theorem send_reaches_small :
    (smallFetching.download reportedParcel).1 = .ok () ∧
      (smallFetching.download reportedParcel).2.tree.get (Cli.placeOf [[111]] "a") =
        some (.file [1]) := by
  have hguard : Runs.Guarded (System.step srvConfig .core)
      (reportedParcel.Undisturbed srvConfig .core) reportedPicked
      [.download reportedGet, .chunk 0, .chunk 0] :=
    ⟨.inl ⟨"a", _, rfl, fetches_reportedGet, by decide +kernel⟩,
      .inr (.inl (Parcel.streams_of_any (.inl rfl) (by decide +kernel))),
      .inr (.inl (Parcel.streams_of_any (.inl rfl) (by decide +kernel))), trivial⟩
  have hserver : ∀ i f, reportedParcel.envelope.files[i]? = some f →
      System.Gets srvConfig .core reportedPicked [.download reportedGet, .chunk 0, .chunk 0]
        (Cli.getFile reportedParcel.envelope.downloadToken f.url) (smallFetching.server i) := by
    intro i f hf
    have hurl : Cli.getFile reportedParcel.envelope.downloadToken f.url = reportedGet := by
      obtain rfl := List.mem_singleton.mp (List.mem_of_getElem? hf)
      rfl
    have hanswered : (runE (exec srvConfig .core) (Download.getDownload srvConfig reportedGet)
        reportedPicked.server).1.toOption.any (·.contentLength = 1) = true := by decide +kernel
    obtain ⟨st, hst, hlength⟩ := exists_ok_of_any hanswered
    rcases hrun : runE (exec srvConfig .core) (Download.getDownload srvConfig reportedGet)
      reportedPicked.server with ⟨res, s⟩
    rw [hrun] at hst
    obtain rfl : res = .ok st := hst
    rw [hurl]
    refine System.gets_of_answers (.whole hrun ?_ ?_)
    · decide +kernel
    · exact (of_decide_eq_true hlength).symm
  have hinit : runE (exec srvConfig .core) (createUploadSession srvConfig alice "bob:b" "p"
      ⟨[⟨"a", 1, none⟩], some 1⟩) srvSystem.server = (.ok (smallSession ["a"]), openedServer) :=
    Prod.ext (by decide +kernel) (by rw [openedServer])
  have hsend : Cli.send (exec srvConfig .core) srvConfig alice oneByte "bob:b" "p" ["./a"]
      .answered .answered srvSystem.server openedServer =
        (.ok (smallSession ["a"]).bundleId, reportedSystem.server) :=
    Prod.ext (by decide +kernel) (by simp only [reportedSystem, reportedServer])
  have hstanding : Standing openedServer := standing_srvSystem.handled (by decide) _
  have hall := send_reaches (by decide) pathless_local (by decide) (by decide) hinit hstanding
    reportedSystem hsend tidy_a nameable_a [.tick 1000000]
    ⟨spares_tick _ _ _, trivial⟩ reportedParcel (by decide +kernel) _ takenBy_reported _ hguard
    smallFetching fresh_small (by simp [smallFetching]) hserver
  have hok := hall.2.1.mpr fun i _ => trivial
  obtain ⟨data, hdata, hget⟩ := (hall.2.2 hok).file "a" (by decide)
  obtain rfl : data = [1] := congrArg Prod.snd (List.mem_singleton.mp hdata)
  exact ⟨hok, hget⟩

end Cassetta
