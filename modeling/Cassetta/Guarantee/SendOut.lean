import Cassetta.Cli.Send
import Cassetta.Guarantee.AllOrNothing

/-!
# What a send command brings about

A `cassetta send` that reports a bundle has stored it, with the sender's files as they were when
the tar was made; one that stops has stored nothing. Given a session, it goes through exactly where
every argument is a regular file with the size the manifest has of it, no two of them are links to
one inode, and the server can complete the session.
-/

namespace Cassetta

open FileTree Prog

variable {cfg : Config} {env : Environment}

namespace Cli

/-! ## The arguments -/

variable {m : Machine}

/-- What is found at a path, where it is a regular file. -/
def Machine.contentOf (m : Machine) (path : String) : Bytes :=
  match m.found path with
  | some (.regular _ _ data) => data
  | _ => []

/-- The path has a further link to the inode at another. -/
def Machine.LinksTo (m : Machine) (path target : String) : Prop :=
  ∃ inode linked data data', m.found target = some (.regular inode linked data) ∧
    m.found path = some (.regular inode true data')

/-- The files are there as the manifest has them, and none is a link to one before it. -/
structure Machine.Whole (m : Machine) (files : List String) : Prop where
  regular : ∀ f ∈ files, ∃ inode linked data, m.found f = some (.regular inode linked data) ∧
    m.sizeOf f = some data.length
  unlinked : files.Pairwise fun f f' => ¬m.LinksTo f' f

/-- The entry of a regular file. -/
def Machine.entryOf (m : Machine) (path : String) : Upload.TarEntry :=
  ⟨path, true, (m.contentOf path).length, m.contentOf path⟩

/-- The manifest lists the files in their order, each with its size. -/
theorem files_of_sendManifest {files : List String} {raw : SendManifest}
    (h : sendManifest m files = some raw) :
    raw.files.map (·.name) = files ∧ ∀ f ∈ raw.files, ∃ size : Nat, m.sizeOf f.name = some size ∧
      f.size = size := by
  obtain ⟨entries, hentries, rfl⟩ := Option.map_eq_some_iff.mp h
  clear h
  induction files generalizing entries with
  | nil =>
    obtain rfl : entries = [] := by simpa using hentries.symm
    simp
  | cons f rest ih =>
    simp only [List.mapM_cons, Option.bind_eq_bind, Option.bind_eq_some_iff, Option.pure_def,
      Option.some.injEq] at hentries
    obtain ⟨e, he, es, hes, rfl⟩ := hentries
    obtain ⟨size, hsize, rfl⟩ := Option.map_eq_some_iff.mp he
    obtain ⟨hnames, hsizes⟩ := ih es hes
    refine ⟨by simpa using hnames, ?_⟩
    rw [List.forall_mem_cons]
    exact ⟨⟨size, hsize, rfl⟩, hsizes⟩

/-! ## The tar -/

/-- Every entry is that of a regular file among the arguments, in their order. -/
theorem sublist_tarEntries (inodes : List (Nat × String)) (files : List String) :
    List.Sublist (tarEntries m inodes files).1 (files.map m.entryOf) := by
  induction files generalizing inodes with
  | nil => exact List.nil_sublist _
  | cons f rest ih =>
    rw [tarEntries, List.map_cons]
    cases hf : m.found f with
    | none => exact List.nil_sublist _
    | some found =>
      cases found with
      | other => exact (ih inodes).cons _
      | regular inode linked data =>
        dsimp only
        split
        · exact (ih inodes).cons _
        · have hentry : m.entryOf f = ⟨f, true, data.length, data⟩ := by
            simp [Machine.entryOf, Machine.contentOf, hf]
          rw [hentry]
          exact (ih _).cons_cons _

/-- The files whose every name is taken, after some have been. -/
structure Machine.Kept (m : Machine) (inodes : List (Nat × String)) (files : List String) :
    Prop where
  regular : ∀ f ∈ files, ∃ inode linked data, m.found f = some (.regular inode linked data) ∧
    (linked = true → inode ∉ inodes.map Prod.fst)
  unlinked : files.Pairwise fun f f' => ¬m.LinksTo f' f

private theorem kept_cons {inodes : List (Nat × String)} {f : String} {rest : List String}
    {inode : Nat}
    {linked : Bool} {data : Bytes} (hf : m.found f = some (.regular inode linked data)) :
    m.Kept inodes (f :: rest) ↔
      (linked = true → inode ∉ inodes.map Prod.fst) ∧ m.Kept ((inode, f) :: inodes) rest := by
  constructor
  · rintro ⟨hregular, hpair⟩
    rw [List.forall_mem_cons] at hregular
    rw [List.pairwise_cons] at hpair
    obtain ⟨⟨i, l, d, hi, hfree⟩, hrest⟩ := hregular
    obtain ⟨rfl, rfl, rfl⟩ : inode = i ∧ linked = l ∧ data = d := by simpa [hf] using hi
    refine ⟨hfree, fun f' hf' => ?_, hpair.2⟩
    obtain ⟨i', l', d', hi', hfree'⟩ := hrest f' hf'
    refine ⟨i', l', d', hi', fun hl => ?_⟩
    rw [List.map_cons, List.mem_cons, not_or]
    refine ⟨?_, hfree' hl⟩
    rintro rfl
    exact hpair.1 f' hf' ⟨i', linked, data, d', hf, hl ▸ hi'⟩
  · rintro ⟨hfree, hregular, hpair⟩
    refine ⟨?_, List.pairwise_cons.mpr ⟨fun f' hf' hlink => ?_, hpair⟩⟩
    · rw [List.forall_mem_cons]
      refine ⟨⟨inode, linked, data, hf, hfree⟩, fun f' hf' => ?_⟩
      obtain ⟨i', l', d', hi', hfree'⟩ := hregular f' hf'
      exact ⟨i', l', d', hi', fun hl hmem => hfree' hl (by simp [hmem])⟩
    · obtain ⟨i, l, d, d', hi, hi'⟩ := hlink
      obtain ⟨rfl, -, -⟩ : inode = i ∧ linked = l ∧ data = d := by simpa [hf] using hi
      obtain ⟨i'', l'', d'', hi'', hfree'⟩ := hregular f' hf'
      obtain ⟨rfl, rfl, -⟩ : inode = i'' ∧ true = l'' ∧ d' = d'' := by simpa [hi'] using hi''
      exact hfree' rfl (by simp)

/-- No archive of fewer files has one more entry. -/
theorem tarEntries_ne (inodes : List (Nat × String)) (f : String) (rest : List String) :
    tarEntries m inodes rest ≠ (m.entryOf f :: rest.map m.entryOf, .complete) := by
  intro h
  have hlen := (sublist_tarEntries (m := m) inodes rest).length_le
  rw [h] at hlen
  simp at hlen

/-- An inode is archived under another name exactly where it is archived, for a new name. -/
theorem archived_iff {inodes : List (Nat × String)} {f : String} {i : Nat}
    (h : ∀ p ∈ inodes, p.2 ≠ f) :
    (inodes.lookup i).any (· ≠ f) = true ↔ i ∈ inodes.map Prod.fst := by
  cases hl : inodes.lookup i with
  | none =>
    rw [List.lookup_eq_none_iff] at hl
    refine iff_of_false (by simp) fun hmem => ?_
    obtain ⟨p, hp, rfl⟩ := List.mem_map.mp hmem
    simpa using hl p hp
  | some n =>
    obtain ⟨l₁, l₂, rfl, -⟩ := List.lookup_eq_some_iff.mp hl
    have hne : n ≠ f := h (i, n) (by simp)
    exact iff_of_true (by simpa using hne) (by simp)

/-- All arguments are archived, each under its name, exactly where none is dropped. -/
theorem tarEntries_eq_iff {inodes : List (Nat × String)} {files : List String}
    (hnodup : files.Nodup) (hearlier : ∀ p ∈ inodes, p.2 ∉ files) :
    tarEntries m inodes files = (files.map m.entryOf, .complete) ↔ m.Kept inodes files := by
  induction files generalizing inodes with
  | nil => exact iff_of_true rfl ⟨by simp, List.Pairwise.nil⟩
  | cons f rest ih =>
    rw [List.nodup_cons] at hnodup
    rw [tarEntries, List.map_cons]
    cases hf : m.found f with
    | none => exact iff_of_false (by simp) fun h => by simpa [hf] using h.regular f (by simp)
    | some found =>
      cases found with
      | other =>
        refine iff_of_false (fun h => ?_) fun h => by simpa [hf] using h.regular f (by simp)
        exact tarEntries_ne inodes f rest h
      | regular inode linked data =>
        have hentry : m.entryOf f = ⟨f, true, data.length, data⟩ := by
          simp [Machine.entryOf, Machine.contentOf, hf]
        have hrest : ∀ p ∈ (inode, f) :: inodes, p.2 ∉ rest := by
          rw [List.forall_mem_cons]
          exact ⟨hnodup.1, fun p hp hmem => hearlier p hp (by simp [hmem])⟩
        have hseen := archived_iff (i := inode) (f := f) fun p hp heq =>
          hearlier p hp (by simp [heq])
        rw [kept_cons hf, ← ih hnodup.2 hrest]
        dsimp only
        by_cases hdrop : linked = true ∧ (inodes.lookup inode).any (· ≠ f) = true
        · rw [if_pos hdrop]
          exact iff_of_false (tarEntries_ne inodes f rest) fun h => h.1 hdrop.1 (hseen.mp hdrop.2)
        · rw [if_neg hdrop, hentry]
          have hfree : linked = true → inode ∉ inodes.map Prod.fst :=
            fun hl hmem => hdrop ⟨hl, hseen.mpr hmem⟩
          rw [and_iff_right hfree]
          simp [Prod.ext_iff]

end Cli

/-! ## The session -/

section Session

variable {s s₁ : Server} {to_ path : String} {raw : SendManifest} {identity : Identity}
  {r : SendInitResult}

/-- A session without an inline mode has the URL of its token's path. -/
theorem ensures_batchSession (label : Option String) :
    Ensures (exec cfg env) (prepareSendInit cfg to_ path raw identity label false)
      (fun r _ => r.mode = .batch ∧ r.uploadUrl =
        some (rstripSlash cfg.publicBaseUrl ++ "/upload/" ++ Percent.quote r.bundlePath)) s := by
  unfold prepareSendInit
  split
  · trivial
  simp only [Ensures, wpE_bind]
  refine ensures_mono (ensures_validateOr _ _ _) fun _ s₁ _ => ?_
  refine ensures_mono (Q := fun _ _ => True) (wpE_mono (fun _ _ _ => trivial)
    (fun _ _ _ => trivial) (wpE_trivial _)) fun recipient s₂ _ => ?_
  refine ensures_mono (ensures_enforce _ _ _ _) fun _ s₃ _ => ?_
  split
  · trivial
  simp only [wpE_bind, wpE_newId, wpE_now, true_and, wpE_pure]
  exact ⟨rfl, rfl⟩

/-- The route answers a session as phase one makes it. -/
theorem runE_createUploadSession
    (h : runE (exec cfg env) (createUploadSession cfg identity to_ path raw) s = (.ok r, s₁)) :
    runE (exec cfg env) (prepareSendInit cfg to_ path raw identity (some identity.label) false) s =
      (.ok r, s₁) := by
  rw [createUploadSession, runE_tryCatch] at h
  rcases hrun : runE (exec cfg env)
    (prepareSendInit cfg to_ path raw identity (some identity.label) false) s with ⟨e | r', s'⟩
  · rw [hrun] at h
    cases e <;> cases h
  · rw [hrun] at h
    exact h

/-- The route makes nothing. -/
theorem makeless_createUploadSession (cfg : Config) (identity : Identity) (to_ path : String)
    (raw : SendManifest) :
    OnlyE Call.Makeless (createUploadSession cfg identity to_ path raw) := by
  refine OnlyE.tryCatch (makeless_prepareSendInit _ _ _ _ _ _) fun e => ?_
  cases e <;> trivial

/-- What a session of the route says. -/
theorem granted_of_created
    (h : runE (exec cfg env) (createUploadSession cfg identity to_ path raw) s = (.ok r, s₁)) :
    (∃ manifest recipient sender iat jti,
        Granted cfg path raw r manifest recipient sender iat jti ∧
          secondsToMicros iat ≤ s₁.wall) ∧
      r.mode = .batch ∧ r.uploadUrl =
        some (rstripSlash cfg.publicBaseUrl ++ "/upload/" ++ Percent.quote r.bundlePath) := by
  have hinit := runE_createUploadSession h
  exact ⟨wpE_ok (ensures_prepareSendInit to_ path raw identity (some identity.label) false) hinit,
    wpE_ok (ensures_batchSession (some identity.label)) hinit⟩

/-- A token that is in time is so from its minting to its expiry. -/
theorem Granted.times_of_timely {manifest : UploadManifest} {recipient sender : String}
    {iat t : Nat} {jti : Id} (h : Granted cfg path raw r manifest recipient sender iat jti)
    (ht : (sessionClaims cfg path r manifest recipient sender iat jti).Timely t) :
    secondsToMicros iat ≤ t ∧ t < secondsToMicros r.expiresAt := by
  obtain ⟨_, _, _, _, hexp, -, hiat, -, hafter, -, hbefore⟩ := ht
  obtain rfl := Option.some.inj hexp
  obtain rfl := Option.some.inj hiat
  rw [h.expires]
  exact ⟨reached_iff.mp hafter, not_reached_iff.mp hbefore⟩

private theorem Upload.timely_of_returns {claims : Claims} {key : SigningKey} {param : String}
    {Q : Upload.Task → Server → Prop}
    (h : Returns (exec cfg env) (Upload.begin (some (.signed claims key)) param) Q s) :
    claims.Timely s.reading := by
  rw [Upload.begin, Returns, wpE_bind] at h
  obtain ⟨c, k, htok, ht, -⟩ := returns_verifyToken_iff.mp h
  obtain ⟨rfl, rfl⟩ := Token.signed.inj htok
  exact ht

/-- The path of an upload URL leads to the route with the path of the bundle. -/
theorem postUpload_uploadUrl (hbase : Pathless cfg.publicBaseUrl) (token : Token)
    (bundlePath : String) (infos : List Upload.TarEntry) (end_ : Upload.TarEnd) :
    Cli.postUpload cfg token
        (rawPath (rstripSlash cfg.publicBaseUrl ++ "/upload/" ++ Percent.quote bundlePath))
        infos end_ =
      routed (pathParam bundlePath) fun param =>
        Upload.uploadBundle cfg (some token) param infos end_ := by
  have htail : rstripSlash cfg.publicBaseUrl ++ "/upload/" ++ Percent.quote bundlePath =
      rstripSlash cfg.publicBaseUrl ++ "/" ++ ("upload/" ++ Percent.quote bundlePath) := by
    simp only [← String.toList_inj, String.toList_append, List.append_assoc]
    rfl
  have hraw : rawPath (rstripSlash cfg.publicBaseUrl ++ "/upload/" ++ Percent.quote bundlePath) =
      "/upload/" ++ Percent.quote bundlePath := by
    rw [htail, rawPath_append hbase]
    · simp only [← String.toList_inj, String.toList_append]
      rfl
    · intro c hc
      rw [String.toList_append, List.mem_append] at hc
      rcases hc with hc | hc
      · exact (by simp : ∀ c ∈ "upload/".toList, c ≠ '?' ∧ c ≠ '#') c hc
      · exact (Percent.mem_quote hc).2.2
  rw [hraw, Cli.postUpload, routeParam_append_quote (by simp)]

end Session

/-! ## What an upload leaves -/

/-- The names lead to different places, and to neither of the manifests. -/
structure Tidy (names : List String) : Prop where
  different : ∀ n ∈ names, ∀ n' ∈ names, below n = below n' → n = n'
  manifest : ∀ n ∈ names, below n ≠ [bundleManifest]
  tmp : ∀ n ∈ names, below n ≠ [bundleManifestTmp]

/-- A name that leads downward is below the bundle. -/
theorem Downward.fileLoc {name : String} (h : Downward name) (loc : List String) :
    fileLoc loc name = loc ++ below name := by
  rw [Cassetta.fileLoc, h.relative, h.spelled, normalizeFrom_spell]
  rfl

/-- Of a write that went through, files with tidy names read back. -/
theorem Backend.reads_back_of_tidy {b : Backend} {path : String} {files : List (String × Bytes)}
    {m : BundleMeta} {d d₁ d₂ d₃ : Disk} {k t₁ t₂ t₃ : Nat}
    (hopen : b.openBundleWrite t₁ path d = (.ok k, d₁)) (hwr : writeAll t₂ k files d₁ = .ok d₂)
    (hc : commit t₃ k m d₂ = (.ok (), d₃)) (hdown : ∀ e ∈ files, Downward e.1)
    (htidy : Tidy (files.map Prod.fst)) (hnodup : (files.map Prod.fst).Nodup) :
    ∀ e ∈ files, b.openBundleFileRead d₃.tree path e.1 = some e.2 := by
  intro e he
  obtain ⟨-, -, hread⟩ := written_ok hopen hwr hc
  obtain ⟨e', he', hsame, heq⟩ := hread e he
  have hmem : ∀ x ∈ files, x.1 ∈ files.map Prod.fst := fun x hx => List.mem_map_of_mem hx
  rw [(hdown e he).fileLoc, (hdown e' he').fileLoc, List.append_cancel_left_eq] at hsame
  have hname := htidy.different _ (hmem e' he') _ (hmem e he) hsame
  obtain rfl := List.inj_on_of_nodup_map hnodup he' he hname
  rw [heq, (hdown e' he).fileLoc, if_neg, if_neg]
  · rw [List.append_cancel_left_eq]
    exact htidy.tmp _ (hmem e' he)
  · rw [List.append_cancel_left_eq]
    exact htidy.manifest _ (hmem e' he)

namespace Granted

variable {path : String} {raw : SendManifest} {r : SendInitResult} {manifest : UploadManifest}
  {recipient sender : String} {iat : Nat} {jti : Id} {s s' : Server}

/-- An upload that is answered with 201 came in time. -/
theorem timely_of_returns (h : Granted cfg path raw r manifest recipient sender iat jti)
    {infos : List Upload.TarEntry} {end_ : Upload.TarEnd} {param : String}
    {Q : Unit → Server → Prop}
    (hrun : Returns (exec cfg env) (Upload.uploadBundle cfg (some r.token) param infos end_) Q s) :
    (sessionClaims cfg path r manifest recipient sender iat jti).Timely s.reading := by
  rw [h.token, Upload.uploadBundle, Returns, wpE_bind] at hrun
  exact Upload.timely_of_returns hrun

/-- An upload that is answered with 201 has opened and written at one reading of the clock, and
committed at a later one. -/
theorem laid_of_returns (h : Granted cfg path raw r manifest recipient sender iat jti)
    {infos : List Upload.TarEntry} {end_ : Upload.TarEnd} {param : String}
    (hmode : r.mode = .batch)
    (hrun : Returns (exec cfg env) (Upload.uploadBundle cfg (some r.token) param infos end_)
      (fun _ s₁ => s₁ = s') s) :
    ∃ k t t' d₁ d₂ m, cfg.backend.openBundleWrite t r.bundlePath s.disk = (.ok k, d₁) ∧
      Backend.writeAll t k (infos.map fun i => (i.name, i.data)) d₁ = .ok d₂ ∧
      Backend.commit t' k m d₂ = (.ok (), s'.disk) := by
  have ht := h.timely_of_returns hrun
  obtain ⟨-, -, -, k, d₁, d₂, d₃, hopen, hwr, hc, rfl⟩ :=
    (h.returns_upload (refusing_exec cfg env) hmode ht).mp hrun
  exact ⟨k, _, _, d₁, d₂, _, hopen, hwr, hc⟩

/-- An upload that goes through where paths are refused goes through where none is. -/
theorem returns_exec {answer : (c : Call) → Server → c.Answer × Server}
    {Takes : List (Step String) → Prop}
    (h : Granted cfg path raw r manifest recipient sender iat jti)
    (hh : Refusing answer cfg env Takes) (hmode : r.mode = .batch)
    (ht : (sessionClaims cfg path r manifest recipient sender iat jti).Timely s.reading)
    {infos : List Upload.TarEntry} {end_ : Upload.TarEnd} {param : String}
    {Q : Unit → Server → Prop}
    (hrun : Returns answer (Upload.uploadBundle cfg (some r.token) param infos end_) Q s) :
    Returns (exec cfg env) (Upload.uploadBundle cfg (some r.token) param infos end_) Q s := by
  obtain ⟨hkey, hall, -, hlaid⟩ := (h.returns_upload hh hmode ht).mp hrun
  exact (h.returns_upload (refusing_exec cfg env) hmode ht).mpr
    ⟨hkey, hall, takesBundle_true _ _, hlaid⟩

variable (env) in
/-- An upload at some path is answered with 201, with all of its tar, or commits nothing. -/
theorem postUpload_cases (h : Granted cfg path raw r manifest recipient sender iat jti)
    (hmode : r.mode = .batch) (uploadPath : String) (infos : List Upload.TarEntry)
    (end_ : Upload.TarEnd) (s : Server) :
    (∃ e s', runE (exec cfg env) (Cli.postUpload cfg r.token uploadPath infos end_) s =
        (.error e, s') ∧ s'.disk.commits = s.disk.commits) ∨
      ∃ s' param, runE (exec cfg env) (Cli.postUpload cfg r.token uploadPath infos end_) s =
        (.ok (), s') ∧ end_ = .complete ∧
          Returns (exec cfg env) (Upload.uploadBundle cfg (some r.token) param infos .complete)
            (fun _ s₁ => s₁ = s') s := by
  rw [Cli.postUpload]
  cases routeParam "/upload/" uploadPath with
  | none => exact .inl ⟨_, s, rfl, rfl⟩
  | some param =>
  rw [routed_some]
  have hleaves := h.leaves env param infos end_ s
  rcases hrun : runE (exec cfg env) (Upload.uploadBundle cfg (some r.token) param infos end_) s with
    ⟨e | u, s'⟩
  · refine .inl ⟨e, s', rfl, ?_⟩
    rcases wpE_error hleaves hrun with hrefused | ⟨hundone, -⟩
    · exact hrefused.1
    · exact hundone.commits
  · have hreturns : Returns (exec cfg env)
        (Upload.uploadBundle cfg (some r.token) param infos end_) (fun _ s₁ => s₁ = s') s := by
      rw [Returns, wpE_iff_run, hrun]
      exact ⟨wpE_trivial _, rfl⟩
    obtain ⟨hiat, hexp⟩ := h.times_of_timely (h.timely_of_returns hreturns)
    obtain ⟨rfl, -⟩ := h.stored_of_returns hmode hiat hexp hreturns
    exact .inr ⟨s', param, rfl, rfl, hreturns⟩

end Granted

/-! ## The command -/

/-- A bundle with the sender's files: they were what the manifest says, and the new commit has
their names and bytes; where the names are tidy, they read back. -/
structure Cli.Delivered (cfg : Config) (m : Cli.Machine) (files : List String) (raw : SendManifest)
    (r : SendInitResult) (s s' : Server) : Prop where
  whole : m.Whole files
  stored : r.Stored cfg raw.files (files.map fun f => (f, m.contentOf f)) s s'
  reads : Tidy files → ∀ f ∈ files,
    cfg.backend.openBundleFileRead s'.disk.tree r.bundlePath f = some (m.contentOf f)

namespace Granted

variable {path : String} {raw : SendManifest} {r : SendInitResult} {manifest : UploadManifest}
  {recipient sender : String} {iat : Nat} {jti : Id} {s s' : Server} {m : Cli.Machine}
  {files : List String}

private theorem nodup_args (h : Granted cfg path raw r manifest recipient sender iat jti)
    (hraw : Cli.sendManifest m files = some raw) : files.Nodup := by
  rw [← (Cli.files_of_sendManifest hraw).1]
  exact h.nodup

/-- A tar that was answered with 201 has an entry for every argument. -/
theorem entries_of_returns (h : Granted cfg path raw r manifest recipient sender iat jti)
    (hmode : r.mode = .batch) (hraw : Cli.sendManifest m files = some raw)
    {infos : List Upload.TarEntry} {param : String}
    (htar : Cli.tarEntries m [] files = (infos, .complete))
    (hrun : Returns (exec cfg env) (Upload.uploadBundle cfg (some r.token) param infos .complete)
      (fun _ s₁ => s₁ = s') s) : infos = files.map m.entryOf := by
  obtain ⟨hiat, hexp⟩ := h.times_of_timely (h.timely_of_returns hrun)
  obtain ⟨-, hdelivers, -⟩ := h.stored_of_returns hmode hiat hexp hrun
  have hsub := Cli.sublist_tarEntries (m := m) [] files
  rw [htar] at hsub
  apply hsub.eq_of_length
  have hlen := hdelivers.declared.length_eq
  rw [List.length_map, List.length_map] at hlen
  rw [hlen, List.length_map, ← (Cli.files_of_sendManifest hraw).1, List.length_map]

/-- A tar that was answered with 201 had all of the files, as the manifest has them. -/
theorem delivered (h : Granted cfg path raw r manifest recipient sender iat jti)
    (hmode : r.mode = .batch) (hraw : Cli.sendManifest m files = some raw)
    {infos : List Upload.TarEntry} {param : String}
    (htar : Cli.tarEntries m [] files = (infos, .complete))
    (hrun : Returns (exec cfg env) (Upload.uploadBundle cfg (some r.token) param infos .complete)
      (fun _ s₁ => s₁ = s') s) : Cli.Delivered cfg m files raw r s s' := by
  obtain ⟨hnames, hsizes⟩ := Cli.files_of_sendManifest hraw
  obtain ⟨hiat, hexp⟩ := h.times_of_timely (h.timely_of_returns hrun)
  obtain ⟨-, hdelivers, hstored⟩ := h.stored_of_returns hmode hiat hexp hrun
  obtain rfl := h.entries_of_returns hmode hraw htar hrun
  have hkept := (Cli.tarEntries_eq_iff (h.nodup_args hraw) (by simp)).mp htar
  have hpairs : ((files.map m.entryOf).map fun i => (i.name, i.data)) =
      files.map fun f => (f, m.contentOf f) := by
    rw [List.map_map]
    rfl
  rw [hpairs] at hstored
  refine ⟨⟨fun f hf => ?_, hkept.unlinked⟩, hstored, fun htidy f hf => ?_⟩
  · obtain ⟨inode, linked, data, hfound, -⟩ := hkept.regular f hf
    refine ⟨inode, linked, data, hfound, ?_⟩
    have hcontent : m.contentOf f = data := by simp [Cli.Machine.contentOf, hfound]
    have hmem := hdelivers.declared.mem_iff.mp
      (List.mem_map.mpr ⟨m.entryOf f, List.mem_map_of_mem hf, rfl⟩)
    obtain ⟨g, hg, heq⟩ := List.mem_map.mp hmem
    obtain ⟨hgname, hgsize⟩ := Prod.mk.inj heq
    obtain ⟨size, hsize, hgs⟩ := hsizes g hg
    rw [← hcontent]
    rw [hgname] at hsize
    rw [hgs] at hgsize
    exact hsize.trans (congrArg some (Int.ofNat_inj.mp hgsize))
  · obtain ⟨k, t, t', d₁, d₂, m', hopen, hwr, hc⟩ := h.laid_of_returns hmode hrun
    rw [hpairs] at hwr
    have hfst : (files.map fun f => (f, m.contentOf f)).map Prod.fst = files := by
      rw [List.map_map]
      exact List.map_id files
    refine Backend.reads_back_of_tidy hopen hwr hc (fun e he => ?_) (hfst.symm ▸ htidy)
      (hfst.symm ▸ h.nodup_args hraw) (f, m.contentOf f) (List.mem_map_of_mem hf)
    obtain ⟨f', hf', rfl⟩ := List.mem_map.mp he
    exact h.downward (hnames.symm ▸ hf')

end Granted

/-- The request arrives as it was sent. -/
def Cli.Passage.Arrives : Cli.Passage → Prop
  | .unsent | .cut _ => False
  | _ => True

/-- What a stored bundle is reported as. -/
def Cli.Passage.reported (passage : Cli.Passage) (id : Id) : Except Cli.SendStop Id :=
  (passage.received (.ok ())).map fun () => id

/-- A tar that arrives as it was sent is uploaded; where a local file ends it, that is reported. -/
theorem Cli.sendTar_arrives {answer : (c : Call) → Server → c.Answer × Server}
    {m : Cli.Machine} {files : List String} {r : SendInitResult} {passage : Cli.Passage}
    (hp : passage.Arrives) {infos : List Upload.TarEntry} {end_ : Upload.TarEnd}
    (htar : Cli.tarEntries m [] files = (infos, end_)) {s s' : Server} {result : Except Exc Unit}
    (hrun : runE answer (Cli.postUpload cfg r.token (rawPath (r.uploadUrl.getD "")) infos end_) s =
      (result, s')) :
    Cli.sendTar answer cfg m files r passage s =
      (if end_ = .complete then (passage.received result).map fun () => r.bundleId
        else .error .osError, s') := by
  unfold Cli.sendTar
  rw [htar]
  cases passage with
  | unsent => cases hp
  | cut n => cases hp
  | answered | lost | unreadable =>
    dsimp only
    rw [hrun]
    cases end_ <;> rfl

variable (env) in
/-- The tar of a session is uploaded to its end under a token of that session, or nothing is
committed. -/
theorem sendTar_runs {s s₁ : Server} {to_ path : String} {raw : SendManifest}
    {identity : Identity} {r : SendInitResult}
    (hinit : runE (exec cfg env) (createUploadSession cfg identity to_ path raw) s = (.ok r, s₁))
    (m : Cli.Machine) (files : List String) (passage : Cli.Passage) (later : Server) :
    (∃ stop s', Cli.sendTar (exec cfg env) cfg m files r passage later = (.error stop, s') ∧
        s'.disk.commits = later.disk.commits) ∨
      passage.Arrives ∧ ∃ manifest recipient sender iat jti infos param s',
        Granted cfg path raw r manifest recipient sender iat jti ∧ r.mode = .batch ∧
          Cli.tarEntries m [] files = (infos, .complete) ∧
          Returns (exec cfg env) (Upload.uploadBundle cfg (some r.token) param infos .complete)
            (fun _ s₂ => s₂ = s') later ∧
          Cli.sendTar (exec cfg env) cfg m files r passage later =
            (passage.reported r.bundleId, s') := by
  obtain ⟨⟨manifest, recipient, sender, iat, jti, hg, -⟩, hmode, -⟩ := granted_of_created hinit
  rcases htar : Cli.tarEntries m [] files with ⟨infos, end_⟩
  have hcases := hg.postUpload_cases env hmode (rawPath (r.uploadUrl.getD ""))
  by_cases hp : passage.Arrives
  · rcases hcases infos end_ later with ⟨e, s', hrun, hcommits⟩ | ⟨s', param, hrun, rfl, hreturns⟩
    · refine .inl ⟨if end_ = .complete then
        (match passage with
          | .lost => .exit 1
          | _ => Cli.raiseForSend e) else .osError, s', ?_, hcommits⟩
      rw [Cli.sendTar_arrives hp htar hrun]
      cases passage <;> cases end_ <;> first | rfl | cases hp
    · exact .inr ⟨hp, manifest, recipient, sender, iat, jti, infos, param, s', hg, hmode, rfl,
        hreturns, Cli.sendTar_arrives hp htar hrun⟩
  · cases passage with
    | unsent => exact .inl ⟨.exit 1, later, by rw [Cli.sendTar], rfl⟩
    | cut n =>
      rcases hcases (infos.take n) .broken later with ⟨e, s', hrun, hcommits⟩ | ⟨s', -, -, hend, -⟩
      · exact .inl ⟨.exit 1, s', by simp only [Cli.sendTar, htar, hrun], hcommits⟩
      · cases hend
    | answered | lost | unreadable => exact absurd trivial hp

variable (env) in
/-- The tar of a session is stored as a whole, or nothing is committed. -/
theorem sendTar_cases {s s₁ : Server} {to_ path : String} {raw : SendManifest}
    {identity : Identity} {r : SendInitResult} {m : Cli.Machine} {files : List String}
    (hinit : runE (exec cfg env) (createUploadSession cfg identity to_ path raw) s = (.ok r, s₁))
    (hraw : Cli.sendManifest m files = some raw) (passage : Cli.Passage) (later : Server) :
    (∃ stop s', Cli.sendTar (exec cfg env) cfg m files r passage later = (.error stop, s') ∧
        s'.disk.commits = later.disk.commits) ∨
      passage.Arrives ∧ ∃ s' recipient, Cli.sendTar (exec cfg env) cfg m files r passage later =
          (passage.reported r.bundleId, s') ∧
        r.bundlePath = inboxPath recipient path ∧ Cli.Delivered cfg m files raw r later s' := by
  rcases sendTar_runs env hinit m files passage later with hstop |
    ⟨hp, manifest, recipient, sender, iat, jti, infos, param, s', hg, hmode, htar, hreturns, hrun⟩
  · exact .inl hstop
  · exact .inr ⟨hp, s', recipient, hrun, hg.bundlePath_eq, hg.delivered hmode hraw htar hreturns⟩

/-- The arguments of a send are stored as the bundle of its session, in an inbox. -/
def Cli.Sent (cfg : Config) (env : Environment) (identity : Identity) (m : Cli.Machine)
    (to_ path : String) (args : List String) (s later : Server) (id : Id) (s' : Server) : Prop :=
  ∃ files raw r recipient, args.mapM Cli.normaliseArg = some files ∧
    Cli.sendManifest m files = some raw ∧
    (runE (exec cfg env) (createUploadSession cfg identity to_ path raw) s).1 = .ok r ∧
    r.bundleId = id ∧ r.bundlePath = inboxPath recipient path ∧
    Cli.Delivered cfg m files raw r later s'

/-- The tar has arrived, and its answer is lost or cannot be read: what the command ends with. -/
def Cli.Passage.Hides (passage : Cli.Passage) (stop : Cli.SendStop) : Prop :=
  passage = .lost ∧ stop = .exit 1 ∨ passage = .unreadable ∧ stop = .unreadable

/-- Whatever the arguments and the sender's files, whatever the network does to the two requests
and their answers, and however the server is when they arrive: a send that reports a bundle has
stored it in an inbox with the files, each as it was when the tar was made; one that stops has
committed nothing, or has stored the same and not seen the answer that says so. -/
theorem send_truthful (cfg : Config) (env : Environment) (identity : Identity) (m : Cli.Machine)
    (to_ path : String) (args : List String) (first second : Cli.Passage) (s later : Server) :
    match Cli.send (exec cfg env) cfg identity m to_ path args first second s later with
    | (.ok id, s') => first = .answered ∧ second = .answered ∧
        Cli.Sent cfg env identity m to_ path args s later id s'
    | (.error stop, s') => s'.disk.commits = later.disk.commits ∨
        second.Hides stop ∧ ∃ id, Cli.Sent cfg env identity m to_ path args s later id s' := by
  rw [Cli.send]
  cases hargs : args.mapM Cli.normaliseArg with
  | none => exact .inl rfl
  | some files =>
    dsimp only
    rw [Cli.sendAsync]
    cases hraw : Cli.sendManifest m files with
    | none => exact .inl rfl
    | some raw =>
      dsimp only
      rcases hinit : runE (exec cfg env) (createUploadSession cfg identity to_ path raw) s with
        ⟨e | r, s₁⟩
      · cases first <;> exact .inl rfl
      cases first with
      | lost | unreadable | unsent | cut n => exact .inl rfl
      | answered =>
        have hcases := sendTar_cases env hinit hraw second later
        dsimp only [Cli.Passage.received]
        generalize Cli.sendTar (exec cfg env) cfg m files r second later = x at hcases ⊢
        rcases hcases with ⟨stop, s', rfl, hcommits⟩ |
          ⟨hp, s', recipient, rfl, hpath, hdelivered⟩
        · exact .inl hcommits
        · have hsent : Cli.Sent cfg env identity m to_ path args s later r.bundleId s' :=
            ⟨files, raw, r, recipient, hargs, hraw, congrArg Prod.fst hinit, rfl, hpath, hdelivered⟩
          cases second with
          | answered => exact ⟨rfl, rfl, hsent⟩
          | lost => exact .inr ⟨.inl ⟨rfl, rfl⟩, r.bundleId, hsent⟩
          | unreadable => exact .inr ⟨.inr ⟨rfl, rfl⟩, r.bundleId, hsent⟩
          | unsent | cut n => cases hp

/-- The declared files are the arguments, each with what was found. -/
theorem entries_of_whole {m : Cli.Machine} {files : List String} {raw : SendManifest}
    (hraw : Cli.sendManifest m files = some raw) (hwhole : m.Whole files) :
    files.map m.entryOf = (raw.files.map fun f => ⟨f.name, true, f.size, m.contentOf f.name⟩) ∧
      ∀ f ∈ raw.files, ((m.contentOf f.name).length : Int) = f.size := by
  obtain ⟨hnames, hsizes⟩ := Cli.files_of_sendManifest hraw
  have hlen : ∀ f ∈ raw.files, ((m.contentOf f.name).length : Int) = f.size := by
    intro f hf
    obtain ⟨size, hsize, heq⟩ := hsizes f hf
    obtain ⟨inode, linked, data, hfound, hdata⟩ :=
      hwhole.regular f.name (hnames ▸ List.mem_map_of_mem hf)
    obtain rfl : data.length = size := Option.some.inj (hdata.symm.trans hsize)
    simp [heq, Cli.Machine.contentOf, hfound]
  refine ⟨?_, hlen⟩
  rw [← hnames, List.map_map]
  refine List.map_congr_left fun f hf => ?_
  simp only [Function.comp_apply, Cli.Machine.entryOf, hlen f hf]

/-- Given the arguments, the manifest and the session, the rest of a send is its tar. -/
theorem Cli.send_eq {answer : (c : Call) → Server → c.Answer × Server} {identity : Identity}
    {m : Cli.Machine} {to_ path : String} {args files : List String} {raw : SendManifest}
    {r : SendInitResult} {s s₁ later : Server} (hargs : args.mapM Cli.normaliseArg = some files)
    (hraw : Cli.sendManifest m files = some raw)
    (hinit : runE answer (createUploadSession cfg identity to_ path raw) s = (.ok r, s₁))
    (second : Cli.Passage) :
    Cli.send answer cfg identity m to_ path args .answered second s later =
      Cli.sendTar answer cfg m files r second later := by
  rw [Cli.send, hargs]
  dsimp only
  rw [Cli.sendAsync, hraw]
  dsimp only
  rw [hinit]
  rfl

/-- A tar that is reported was uploaded to its end. -/
theorem Cli.sendTar_ok {answer : (c : Call) → Server → c.Answer × Server} {m : Cli.Machine}
    {files : List String} {r : SendInitResult} {passage : Cli.Passage} {id : Id} {s s' : Server}
    (h : Cli.sendTar answer cfg m files r passage s = (.ok id, s')) :
    ∃ infos, Cli.tarEntries m [] files = (infos, .complete) ∧
      runE answer (Cli.postUpload cfg r.token (rawPath (r.uploadUrl.getD "")) infos .complete) s =
        (.ok (), s') := by
  rcases htar : Cli.tarEntries m [] files with ⟨infos, end_⟩
  rcases hrun : runE answer (Cli.postUpload cfg r.token (rawPath (r.uploadUrl.getD "")) infos end_)
    s with ⟨result, s₂⟩
  by_cases hp : passage.Arrives
  · rw [Cli.sendTar_arrives hp htar hrun] at h
    obtain ⟨hresult, rfl⟩ := Prod.mk.inj h
    split at hresult
    · rename_i hend
      subst hend
      cases result with
      | ok u => exact ⟨infos, rfl, hrun⟩
      | error e => cases passage <;> cases hresult
    · cases hresult
  · unfold Cli.sendTar at h
    rw [htar] at h
    cases passage with
    | unsent => cases h
    | cut n => cases h
    | answered | lost | unreadable => exact absurd trivial hp

/-- Given its session, at a free path and before it expires, a send whose requests are answered
goes through, whatever the operating system of the server does at a path that it does not take,
exactly where every argument is a regular file of the size in the manifest and no link to another,
and the session can be completed. -/
theorem send_delivers_iff (refusal : Refusal) {identity : Identity} {m : Cli.Machine}
    {to_ path : String} {args files : List String} {raw : SendManifest} {r : SendInitResult}
    {s s₁ later : Server} (hbase : Pathless cfg.publicBaseUrl)
    (hargs : args.mapM Cli.normaliseArg = some files) (hraw : Cli.sendManifest m files = some raw)
    (hinit : runE (execOs cfg env refusal) (createUploadSession cfg identity to_ path raw) s =
      (.ok r, s₁))
    (hafter : s₁.wall ≤ later.wall) (hexp : later.reading < secondsToMicros r.expiresAt)
    (hfree : cfg.backend.FreeAt later.disk r.bundlePath) :
    (Cli.send (execOs cfg env refusal) cfg identity m to_ path args .answered .answered s
        later).1 = .ok r.bundleId ↔
      m.Whole files ∧ r.Completable cfg raw.files later := by
  have hh := refusing_execOs cfg env refusal
  have hplain := hinit
  rw [hh.runE_eq (makeless_createUploadSession _ _ _ _ _)] at hplain
  obtain ⟨⟨manifest, recipient, sender, iat, jti, hg, hiat⟩, hmode, hurl⟩ :=
    granted_of_created hplain
  have hiat' : secondsToMicros iat ≤ later.reading :=
    hiat.trans (hafter.trans (Nat.le_add_right _ _))
  have hpost : ∀ infos, Cli.postUpload cfg r.token (rawPath (r.uploadUrl.getD "")) infos
      .complete = (SecondPhase.upload infos).handler cfg r := by
    intro infos
    rw [hurl, Option.getD_some, postUpload_uploadUrl hbase]
    rfl
  have hphase : m.Whole files → (Returns (execOs cfg env refusal)
      ((SecondPhase.upload (files.map m.entryOf)).handler cfg r)
      (fun _ s' => r.Committed cfg raw.files later s') later ↔
        r.Completable cfg raw.files later) := by
    intro hwhole
    obtain ⟨hentries, hlen⟩ := entries_of_whole hraw hwhole
    exact hg.upload_iff hh hmode hlen (List.Perm.of_eq hentries) hiat' hexp hfree
  rw [Cli.send_eq hargs hraw hinit]
  constructor
  · intro h
    rcases hsend : Cli.sendTar (execOs cfg env refusal) cfg m files r .answered later with ⟨res, s'⟩
    rw [hsend] at h
    obtain rfl : res = .ok r.bundleId := h
    obtain ⟨infos, htar, hrun⟩ := Cli.sendTar_ok hsend
    rw [hpost] at hrun
    have hreturns : Returns (execOs cfg env refusal) ((SecondPhase.upload infos).handler cfg r)
        (fun _ s₂ => s₂ = s') later := (returns_of_run hrun).mpr rfl
    obtain ⟨param, -, hupload⟩ := returns_routed.mp hreturns
    have hexec := hg.returns_exec hh hmode (hg.timely hiat' hexp) hupload
    obtain rfl := hg.entries_of_returns hmode hraw htar hexec
    have hdelivered := hg.delivered hmode hraw htar hexec
    obtain ⟨m', hcommits, hrest⟩ := hdelivered.stored
    refine ⟨hdelivered.whole, (hphase hdelivered.whole).mp ?_⟩
    exact (returns_of_run hrun).mpr ⟨m', _, hcommits, hrest⟩
  · rintro ⟨hwhole, hcompletable⟩
    have hkept : m.Kept [] files :=
      ⟨fun f hf => (hwhole.regular f hf).imp fun _ => Exists.imp fun _ => Exists.imp fun _ h =>
        ⟨h.1, by simp⟩, hwhole.unlinked⟩
    have htar := (Cli.tarEntries_eq_iff (hg.nodup_args hraw) (by simp)).mpr hkept
    have hreturns := (hphase hwhole).mpr hcompletable
    rcases hrun : runE (execOs cfg env refusal) ((SecondPhase.upload
      (files.map m.entryOf)).handler cfg r) later with ⟨e | u, s'⟩
    · exact (wpE_error hreturns hrun).elim
    · rw [← hpost] at hrun
      rw [@Cli.sendTar_arrives _ _ _ _ _ .answered trivial _ _ htar _ _ _ hrun]
      rfl

/-- A machine with one byte in every file. -/
def oneByte : Cli.Machine where
  sizeOf _ := some 1
  found _ := some (.regular 1 false [1])

/-- `cassetta send ./a b/c --to bob:b --path p`. -/
theorem send_delivers_two :
    (Cli.send (execOs srvConfig .core .plain) srvConfig alice oneByte "bob:b" "p" ["./a", "b/c"]
      .answered .answered srvSystem.server srvSystem.server).1 =
        .ok (smallSession ["a", "b/c"]).bundleId := by
  have hargs : ["./a", "b/c"].mapM Cli.normaliseArg = some ["a", "b/c"] := by decide
  have hraw : Cli.sendManifest oneByte ["a", "b/c"] =
      some ⟨[⟨"a", 1, none⟩, ⟨"b/c", 1, none⟩], some 2⟩ := by decide
  have hinit : (runE (execOs srvConfig .core .plain) (createUploadSession srvConfig alice "bob:b"
      "p" ⟨[⟨"a", 1, none⟩, ⟨"b/c", 1, none⟩], some 2⟩) srvSystem.server).1 =
        .ok (smallSession ["a", "b/c"]) := by decide +kernel
  apply
    (send_delivers_iff .plain ⟨"http", "localhost:16001", by decide, by simp, by simp⟩ hargs hraw
    (Prod.ext hinit rfl) (by decide +kernel) (by decide +kernel) (by decide +kernel)).mpr
  refine ⟨⟨fun f _ => ⟨1, false, [1], rfl, rfl⟩, ?_⟩, .inl rfl, fun _ => by decide +kernel,
    fun _ _ => by decide +kernel, by decide, by decide +kernel,
    ⟨by decide +kernel, by decide +kernel, by decide +kernel⟩⟩
  refine List.pairwise_of_forall fun f f' => ?_
  rintro ⟨inode, linked, data, data', -, hlinked⟩
  cases hlinked

end Cassetta
