import Cassetta.Guarantee.Fetching

/-!
# A download that is repeated

A command that breaks off, or a stream that is cut, costs nothing but the time: as long as the
last file of the manifest has not been streamed to its last byte, and the token is in time, the
command on its own brings every file and takes the bundle away. The order of the manifest is the
order of the GETs, so the bundle does not go before the last of them is answered.
-/

namespace Cassetta

open Prog FileTree

variable {cfg : Config} {env : Environment}

/-! ## A command on its own -/

/-- How many reads bring bytes of a file of a length. -/
def chunkCount (length : Nat) : Nat := (length + Download.chunkSize - 1) / Download.chunkSize

/-- The reads of a stream: those that bring bytes, and the one at the end. -/
def readEvents (k length : Nat) : List Event := List.replicate (chunkCount length + 1) (.chunk k)

section Alone

variable (cfg : Config) (env : Environment)

/-- The events of a command that nothing comes between: the GET of one file after the other, each
streamed to its end. -/
def Cli.fetchEvents (token : Token) : List ReferenceFile → System → List Event
  | [], _ => []
  | f :: rest, sys =>
    let one := .download (Cli.getFile token f.url) :: readEvents sys.streams.length f.size.toNat
    one ++ Cli.fetchEvents token rest (sys.run cfg env one)

end Alone

/-- What the clock says when it is read for the `n`-th time from now on, if nothing but the
readings takes time. -/
def Server.readingAfter (s : Server) (n : Nat) : Nat :=
  s.wall + ((List.range (n + 1)).map fun i => s.lag (s.clockReads + i)).sum

private theorem Server.readingAfter_zero (s : Server) : s.readingAfter 0 = s.reading := by
  simp [Server.readingAfter, Server.reading]

private theorem Server.readingAfter_verified (s : Server) (n : Nat) :
    (s.verified cfg env).readingAfter n = s.readingAfter (n + 1) := by
  have hwall : (s.verified cfg env).wall = s.wall + s.lag s.clockReads := rfl
  have hreads : (s.verified cfg env).clockReads = s.clockReads + 1 := rfl
  have hlag : (s.verified cfg env).lag = s.lag := rfl
  have hfirst : (List.range (n + 1 + 1)).map (fun i => s.lag (s.clockReads + i)) =
      s.lag s.clockReads :: (List.range (n + 1)).map fun i => s.lag (s.clockReads + 1 + i) := by
    rw [List.range_succ_eq_map, List.map_cons, List.map_map, Nat.add_zero]
    congr 1
    refine List.map_congr_left fun i _ => congrArg s.lag ?_
    omega
  rw [Server.readingAfter, Server.readingAfter, hwall, hreads, hlag, hfirst, List.sum_cons,
    Nat.add_assoc]

/-- The clocks of two servers go alike. -/
structure Server.SameClock (s s' : Server) : Prop where
  wall : s'.wall = s.wall
  lag : s'.lag = s.lag
  clockReads : s'.clockReads = s.clockReads

private theorem Server.SameClock.readingAfter {s s' : Server} (h : s.SameClock s') (n : Nat) :
    s'.readingAfter n = s.readingAfter n := by
  rw [Server.readingAfter, Server.readingAfter, h.wall, h.lag, h.clockReads]

/-! ## The server of a GET -/

private theorem Download.ensures_verified {s : Server} (req : Download.Request) :
    Ensures (exec cfg env) (Download.downloadFile cfg req) (fun _ s' => s' = s.verified cfg env)
      s := by
  have hverify : ∀ token refusal, Ensures (exec cfg env) (verifyToken token refusal)
      (fun _ s' => s' = s.verified cfg env) s := by
    intro token refusal
    simp only [Ensures, verifyToken, wpE_bind, wpE_verifyKeys, wpE_now, true_and]
    split
    · rfl
    · trivial
  unfold Download.downloadFile
  split
  · trivial
  · rename_i token hbearer
    simp only [Ensures, wpE_bind]
    refine ensures_mono (hverify token _) ?_
    rintro claims s₁ rfl
    split
    iterate 4 trivial
    split
    · trivial
    · split
      · trivial
      split
      · trivial
      split
      · trivial
      split
      · trivial
      simp only [wpE_bind]
      refine ensures_mono (ensures_readMetaOr _ _) ?_
      rintro m s₂ ⟨rfl, -⟩
      split
      · trivial
      · simp only [wpE_bind, wpE_openBundleFileRead, true_and]
        cases cfg.backend.openBundleFileRead (s.verified cfg env).disk.tree _ _ with
        | none => trivial
        | some data =>
          rw [wpE_bind]
          exact ensures_sendHead rfl

namespace Parcel

variable {p : Parcel} {files : List (String × Bytes)} {start sys : System} {k : Nat}
  {o : OpenStream}

/-! ## A stream, read to its end -/

private theorem chunkCount_eq_zero_iff {n : Nat} : chunkCount n = 0 ↔ n = 0 := by
  simp only [chunkCount, Download.chunkSize]
  omega

private theorem chunkCount_sub (n : Nat) :
    chunkCount (n - Download.chunkSize) = chunkCount n - 1 := by
  simp only [chunkCount, Download.chunkSize]
  omega

private theorem streams_chunk (ho : sys.openStream k = some o) (hj : o.stream.jti = p.jti) :
    p.Undisturbed cfg env sys (.chunk k) := .inr (.inl ⟨k, o, .inl rfl, ho, hj⟩)

/-- A read that brings bytes changes nothing but the stream. -/
theorem step_chunk (ho : sys.openStream k = some o) (hne : o.stream.unread ≠ []) :
    (sys.step cfg env (.chunk k)).server = sys.server ∧
      (sys.step cfg env (.chunk k)).streamed = sys.streamed ∧
      (sys.step cfg env (.chunk k)).openStream k = some { o with stream := o.stream.advance } := by
  have hprogram : runE (execAny cfg env) ((Event.chunk k).program cfg sys) sys.server =
      (.ok .done, sys.server) := by
    simp only [Event.program, ho, hne, if_false]
    rfl
  have hk := System.lt_of_openStream ho
  refine ⟨?_, ?_, ?_⟩
  · rw [System.step, hprogram]
    rfl
  · rw [System.step_streamed]
    simp [System.streamedBy, ho, hne]
  · have hstreams : (sys.step cfg env (.chunk k)).streams =
        sys.streams.set k (some { o with stream := o.stream.advance }) := by
      rw [System.step, hprogram]
      simp only [System.streamsAfter, ho, hne, if_false]
    rw [System.openStream, hstreams, List.getElem?_set_self hk]
    rfl

/-- The reads that bring bytes bring all that is left. -/
theorem reads_all (ho : sys.openStream k = some o) (hj : o.stream.jti = p.jti) :
    let reads := List.replicate (chunkCount o.stream.unread.length) (Event.chunk k)
    Runs.Guarded (System.step cfg env) (p.Undisturbed cfg env) sys reads ∧
      (sys.run cfg env reads).server = sys.server ∧
      (sys.run cfg env reads).streamed = sys.streamed ∧
      (System.sends cfg env k sys reads).flatten = o.stream.unread ∧
      ∃ o', (sys.run cfg env reads).openStream k = some o' ∧ o'.stream.unread = [] ∧
        o'.stream.name = o.stream.name ∧ o'.stream.jti = o.stream.jti := by
  generalize hn : chunkCount o.stream.unread.length = n
  induction n generalizing sys o with
  | zero =>
    have hend := List.length_eq_zero_iff.mp (chunkCount_eq_zero_iff.mp hn)
    exact ⟨trivial, rfl, rfl, hend.symm, o, ho, hend, rfl, rfl⟩
  | succ n ih =>
    have hne : o.stream.unread ≠ [] := by
      intro hnil
      rw [hnil] at hn
      cases hn
    obtain ⟨hserver, hstreamed, hopen⟩ := @step_chunk cfg env sys k o ho hne
    have hcount : chunkCount (o.stream.advance).unread.length = n := by
      rw [Download.Stream.advance, List.length_drop, chunkCount_sub, hn, Nat.add_sub_cancel]
    obtain ⟨hg, hserver', hstreamed', hsends, o', ho', hend, hname, hjti⟩ := ih hopen hj hcount
    refine ⟨⟨streams_chunk ho hj, hg⟩, hserver'.trans hserver, hstreamed'.trans hstreamed, ?_,
      o', ho', hend, hname, hjti⟩
    rw [List.replicate_succ, System.sends, List.flatten_cons, hsends]
    have hyields : sys.yields k (.chunk k) = o.stream.unread.take Download.chunkSize := by
      simp [System.yields, ho]
    rw [hyields]
    exact List.take_append_drop _ _

/-- The read at the end takes no time. -/
theorem Course.sameClock_end (hb : p.Begun cfg files start) (h : Course cfg p start sys)
    (hpending : Pending cfg p start sys) (ho : sys.openStream k = some o)
    (hj : o.stream.jti = p.jti) (hend : o.stream.unread = []) :
    sys.server.SameClock (sys.step cfg env (.chunk k)).server := by
  obtain ⟨c, hget, -, -⟩ := hpending.claim
  have hfinish := @OnTheWay.runE_finish cfg env p files start sys.server o.stream hb
    (h.stream ho hj) hj c hget
  have hprogram : (runE (execAny cfg env) ((Event.chunk k).program cfg sys) sys.server).2 =
      (runE (execAny cfg env) o.stream.finish sys.server).2 := by
    simp only [Event.program, ho, hend, if_true]
    rw [runE_bind_ok hfinish, hfinish]
    rfl
  have hserver : (sys.step cfg env (.chunk k)).server =
      (runE (execAny cfg env) o.stream.finish sys.server).2 := hprogram
  rw [hserver, hfinish]
  split
  · exact ⟨rfl, rfl, rfl⟩
  · exact ⟨rfl, rfl, rfl⟩

/-- A GET that comes in time, while the bundle is there, is answered with its file, and the clock
has been read once. -/
theorem Course.answered (hb : p.Begun cfg files start) (h : Course cfg p start sys)
    (hpending : Pending cfg p start sys)
    (hback : ∀ e ∈ files, p.stored cfg start.server e.1 = some e.2)
    (hserve : p.Servable cfg) (htime : sys.server.reading < p.deadline) {name : String}
    {req : Download.Request} (hreq : p.Fetches cfg name req) :
    ∃ st, runE (exec cfg env) (Download.getDownload cfg req) sys.server =
        (.ok st, sys.server.verified cfg env) ∧ st.name = name ∧ st.jti = p.jti ∧
      (name, st.unread) ∈ files ∧ st.contentLength = st.unread.length := by
  obtain ⟨hname, -⟩ := hb.rawPath hreq.toAsks
  obtain ⟨f, hf, hfn⟩ := List.mem_map.mp hname
  obtain ⟨data, hmem, -⟩ := hb.written.checked.2.2.2 f hf
  rw [hfn] at hmem
  have hstored : p.stored cfg sys.server name = some data := by
    rw [hpending.stored name hname]
    exact hback (name, data) hmem
  have hreturns : Returns (exec cfg env) (Download.getDownload cfg req)
      (fun st _ => st.name = name ∧ st.jti = p.jti) sys.server := by
    rw [hb.returns_getDownload hreq.toAsks, and_iff_right (hserve.routed name hname)]
    exact (hb.returns_get_iff h.keys h.wall htime (hpending.there hb h.standing).bundle
      hreq.toAsks (hb.lets (.inr hreq.sender))).mpr
      ⟨f, hf, hfn, hserve.typed f hf, data, hstored, rfl, rfl⟩
  obtain ⟨st, s, hrun, hst, hsj⟩ := returns_iff_run.mp hreturns
  have hfile := Download.downloadFile_of_get hrun
  have hs : s = sys.server.verified cfg env := wpE_ok (Download.ensures_verified req) hfile
  rw [hs] at hrun
  obtain ⟨hunread, hannounced⟩ := h.opened hb hback hreq hfile
  exact ⟨st, hrun, hst, hsj, hunread, hannounced⟩

/-- One file of a command on its own: it is streamed as a whole, its name is noted, and the clock
has been read once. -/
theorem Course.fetch_one (hroot : ∀ k ∈ cfg.backend.root, FileName k)
    (hb : p.Begun cfg files start) (h : Course cfg p start sys)
    (hback : ∀ e ∈ files, p.stored cfg start.server e.1 = some e.2)
    (hserve : p.Servable cfg) (hmissing : ∃ n ∈ p.bundle.names, n ∉ p.fetched start sys)
    (htime : sys.server.reading < p.deadline) {name : String} {req : Download.Request}
    (hreq : p.Fetches cfg name req) {length : Nat}
    (hlength : ∀ data, (name, data) ∈ files → data.length = length) {one : List Event}
    (hone : one = .download req :: readEvents sys.streams.length length) :
    Runs.Guarded (System.step cfg env) (p.Undisturbed cfg env) sys one ∧
      p.fetched start (sys.run cfg env one) = p.fetched start sys ++ [name] ∧
      (sys.server.verified cfg env).SameClock (sys.run cfg env one).server ∧
      ∃ chunks, sys.Answers cfg env req (readEvents sys.streams.length length)
        (.stream chunks none) := by
  have hpending : ∀ {sys'}, Course cfg p start sys' →
      p.fetched start sys' = p.fetched start sys → Pending cfg p start sys' := by
    intro sys' h' hsame
    refine h'.stage.resolve_right fun hdone => ?_
    obtain ⟨n, hn, hnot⟩ := hmissing
    exact hnot (hsame ▸ hdone.fetched n hn)
  obtain ⟨st, hrun, hst, hsj, hmem, hannounced⟩ :=
    @Course.answered cfg env p files start sys hb h
      (hpending h rfl) hback hserve htime name req hreq
  obtain ⟨hserver, hstreamed, found, hopen⟩ :=
    @System.step_download cfg env sys req st _ (Download.downloadFile_of_get hrun)
  have hlen := hlength _ hmem
  have hget : p.Undisturbed cfg env sys (.download req) := .inl ⟨name, req, rfl, hreq, htime⟩
  have hcourse := h.step hroot hb hget
  obtain ⟨hg, hserver', hstreamed', hsends, o, ho, hend, hname, hjti⟩ :=
    @reads_all cfg env p _ _ _ hopen hsj
  rw [hlen] at hg hserver' hstreamed' hsends ho
  have hreads : readEvents sys.streams.length length =
      List.replicate (chunkCount length) (.chunk sys.streams.length) ++
        [.chunk sys.streams.length] := List.replicate_succ'
  generalize chunkCount length = n at hg hserver' hstreamed' hsends ho hreads
  have hcourse' := hg.invariant (fun _ _ h hu => h.step hroot hb hu) hcourse
  have hj : o.stream.jti = p.jti := hjti.trans hsj
  obtain ⟨read, hread⟩ : ∃ read, read = (sys.step cfg env (.download req)).run cfg env
      (List.replicate n (.chunk sys.streams.length)) := ⟨_, rfl⟩
  have hrunOne : sys.run cfg env one = read.step cfg env (.chunk sys.streams.length) := by
    rw [hone, hreads, System.run, Runs.run_cons, Runs.run_append, hread]
    rfl
  have hguard : Runs.Guarded (System.step cfg env) (p.Undisturbed cfg env) sys one := by
    rw [hone, hreads]
    exact ⟨hget, Runs.guarded_append.mpr ⟨hg, streams_chunk ho hj, trivial⟩⟩
  have hflatten : (System.sends cfg env sys.streams.length (sys.step cfg env (.download req))
      (readEvents sys.streams.length length)).flatten = st.unread := by
    have hnothing : read.yields sys.streams.length (.chunk sys.streams.length) = [] := by
      rw [hread, System.yields, if_pos rfl, ho]
      simp [hend]
    rw [hreads, System.sends_append, List.flatten_append, hsends, ← hread, System.sends, hnothing]
    simp [System.sends]
  rw [System.run] at hread
  rw [← hread] at hcourse'
  rw [System.run, ← hread] at ho hserver' hstreamed'
  have hsame : p.fetched start read = p.fetched start sys := by
    rw [fetched, hstreamed', hstreamed, fetched]
  have hlast : p.fetched start (read.step cfg env (.chunk sys.streams.length)) =
      p.fetched start read ++ [o.stream.name] := Course.fetched_end ho hj hcourse' hend
  have hclock : read.server.SameClock (read.step cfg env (.chunk sys.streams.length)).server :=
    hcourse'.sameClock_end hb (hpending hcourse' hsame) ho hj hend
  rw [hsame, hname, hst] at hlast
  rw [hserver', hserver] at hclock
  exact ⟨hguard, hrunOne ▸ hlast, hrunOne ▸ hclock, _, .whole hrun rfl
    (by rw [hflatten, hannounced])⟩

/-! ## All files -/

/-- The length of a file is what the envelope says. -/
theorem Begun.length_of (hb : p.Begun cfg files start) {f : ReferenceFile}
    (hf : f ∈ p.envelope.files) {data : Bytes} (hmem : (f.name, data) ∈ files) :
    data.length = f.size.toNat := by
  obtain ⟨expiresAt, henvelope⟩ := hb.envelope
  rw [congrArg ReferenceEnvelope.files henvelope] at hf
  obtain ⟨g, hg, rfl⟩ := List.mem_map.mp hf
  obtain ⟨data', hmem', hlen⟩ := hb.written.checked.2.2.2 g hg
  have honce := List.inj_on_of_nodup_map hb.written.one_of_name hmem hmem' rfl
  rw [(Prod.mk.inj honce).2, ← Int.toNat_natCast data'.length, hlen]

/-- The files of a command on its own, from the first one that is still to come. -/
theorem Course.fetch_rest (hroot : ∀ k ∈ cfg.backend.root, FileName k)
    (hbase : Pathless cfg.publicBaseUrl) (hb : p.Begun cfg files start)
    (hback : ∀ e ∈ files, p.stored cfg start.server e.1 = some e.2) (hserve : p.Servable cfg)
    {rest : List ReferenceFile} (hrest : rest ⊆ p.envelope.files)
    (hnodup : (rest.map (·.name)).Nodup)
    (h : Course cfg p start sys)
    (hlast : ∀ f, rest.getLast? = some f → f.name ∉ p.fetched start sys)
    (htime : ∀ n < rest.length, sys.server.readingAfter n < p.deadline) :
    Runs.Guarded (System.step cfg env) (p.Undisturbed cfg env) sys
        (Cli.fetchEvents cfg env p.envelope.downloadToken rest sys) ∧
      p.fetched start (sys.run cfg env
        (Cli.fetchEvents cfg env p.envelope.downloadToken rest sys)) =
          p.fetched start sys ++ rest.map (·.name) ∧
      ∀ (i : Nat) (f : ReferenceFile), rest[i]? = some f → ∃ before during after chunks,
        Cli.fetchEvents cfg env p.envelope.downloadToken rest sys = before ++
          .download (Cli.getFile p.envelope.downloadToken f.url) :: (during ++ after) ∧
        (sys.run cfg env before).Answers cfg env (Cli.getFile p.envelope.downloadToken f.url)
          during (.stream chunks none) := by
  induction rest generalizing sys with
  | nil => exact ⟨trivial, (List.append_nil _).symm, fun i f hf => by simp at hf⟩
  | cons f rest ih =>
    obtain ⟨hf, hrest'⟩ := List.cons_subset.mp hrest
    obtain ⟨hother, hnodup'⟩ := List.nodup_cons.mp hnodup
    have hreq := hb.fetches_getFile hbase hf
    have hmissing : ∃ n ∈ p.bundle.names, n ∉ p.fetched start sys := by
      obtain ⟨g, hg⟩ : ∃ g, (f :: rest).getLast? = some g :=
        ⟨_, List.getLast?_eq_some_getLast (List.cons_ne_nil f rest)⟩
      exact ⟨g.name, (hb.rawPath (hb.fetches_getFile hbase
        (hrest (List.mem_of_getLast? hg))).toAsks).1, hlast g hg⟩
    have hnow : sys.server.reading < p.deadline := by
      rw [← Server.readingAfter_zero]
      exact htime 0 (by simp)
    obtain ⟨hg, hfetched, hclock, chunks, hanswers⟩ := @Course.fetch_one cfg env p files start sys
      hroot hb h hback hserve hmissing hnow f.name _ hreq
        f.size.toNat (fun _ => hb.length_of hf) _ rfl
    obtain ⟨one, hone⟩ : ∃ one, one = Event.download (Cli.getFile p.envelope.downloadToken f.url) ::
        readEvents sys.streams.length f.size.toNat := ⟨_, rfl⟩
    rw [← hone] at hg hfetched hclock
    have hcourse : Course cfg p start (sys.run cfg env one) :=
      hg.invariant (fun _ _ h hu => h.step hroot hb hu) h
    have hevents : Cli.fetchEvents cfg env p.envelope.downloadToken (f :: rest) sys =
        one ++ Cli.fetchEvents cfg env p.envelope.downloadToken rest (sys.run cfg env one) := by
      rw [hone]
      rfl
    have hlast' : ∀ g, rest.getLast? = some g → g.name ∉ p.fetched start (sys.run cfg env one) := by
      intro g hg
      rw [hfetched, List.mem_append, List.mem_singleton, not_or]
      exact ⟨hlast g (by rw [List.getLast?_cons, hg]; rfl), fun heq =>
        hother (List.mem_map.mpr ⟨g, List.mem_of_getLast? hg, heq⟩)⟩
    have htime' : ∀ n < rest.length, (sys.run cfg env one).server.readingAfter n < p.deadline := by
      intro n hn
      rw [hclock.readingAfter, Server.readingAfter_verified]
      exact htime (n + 1) (Nat.succ_lt_succ hn)
    obtain ⟨hg', hfetched', hall⟩ := ih hrest' hnodup' hcourse hlast' htime'
    rw [hevents]
    refine ⟨Runs.guarded_append.mpr ⟨hg, hg'⟩, ?_, fun i g hi => ?_⟩
    · rw [System.run_append, hfetched', hfetched, List.append_assoc]
      rfl
    · cases i with
      | zero =>
        obtain rfl : f = g := Option.some.inj hi
        exact ⟨[], _, _, chunks, by rw [hone, List.cons_append, List.nil_append], hanswers⟩
      | succ i =>
        obtain ⟨before, during, after, chunks', heq, hanswers'⟩ := hall i g hi
        refine ⟨one ++ before, during, after, chunks', by rw [heq, List.append_assoc], ?_⟩
        rw [System.run_append]
        exact hanswers'

end Parcel

/-- After any pick by reference of a bundle whose names do not meet and whose GETs can be served, by
a recipient whose label the client can send, and any run in which nothing but the recipient's GETs
touches it, whatever these have come to: as long as the last file of the manifest has not been
streamed to its last byte, and the token stays in time for one more GET of each file, the command on
its own brings every file byte for byte, and bundle and claim are gone with it. -/
theorem download_resumes (hroot : ∀ k ∈ cfg.backend.root, FileName k)
    (hbase : Pathless cfg.publicBaseUrl) (p : Parcel) (files : List (String × Bytes))
    (sys : System) (hs : Standing sys.server) (r : PickRequest)
    (hpick : p.PickedIn cfg env files sys r)
    (hapart : cfg.backend.Apart (p.loc cfg.backend) p.bundle files)
    (hrouted : ∀ n ∈ p.bundle.names, (pathParam (p.path ++ "/" ++ n)).isSome)
    (htyped : ∀ f ∈ p.bundle.files, headValue (Download.contentType f) = true)
    (hlabel : ∀ l, p.claims.recipient = some l → Cli.sendable l = true)
    (hnames : ∀ n ∈ p.bundle.names, Cli.Nameable n) (events : List Event)
    (hrun : Runs.Guarded (System.step cfg env) (p.Undisturbed cfg env)
      (sys.step cfg env (.pick r)) events)
    (hlast : ∀ n, p.bundle.names.getLast? = some n → n ∉ p.fetched (sys.step cfg env (.pick r))
      ((sys.step cfg env (.pick r)).run cfg env events))
    (htime : ∀ n < p.envelope.files.length,
      ((sys.step cfg env (.pick r)).run cfg env events).server.readingAfter n < p.deadline)
    (c : Fetching) (hfresh : Cli.Fresh c.out c.tree) (htoken : ∀ t, c.encode t ≠ [])
    (more : List Event) (hmore : more = Cli.fetchEvents cfg env p.envelope.downloadToken
      p.envelope.files ((sys.step cfg env (.pick r)).run cfg env events)) :
    Runs.Guarded (System.step cfg env) (p.Undisturbed cfg env) (sys.step cfg env (.pick r))
        (events ++ more) ∧
      p.Gone cfg ((sys.step cfg env (.pick r)).run cfg env (events ++ more)).server ∧
      ∃ server, (∀ i f, p.envelope.files[i]? = some f → System.Gets cfg env
          (sys.step cfg env (.pick r)) (events ++ more)
          (Cli.getFile p.envelope.downloadToken f.url) (server i)) ∧
        (({ c with server } : Fetching).download p).1 = .ok () ∧
        Cli.Holds c.out files p.bundle.names (c.tree.mkdirParents (spell c.out)).2
          (({ c with server } : Fetching).download p).2.tree := by
  have hb := hpick.begun hroot hs
  have hback := hb.written.apart_iff.mpr hapart
  have hserve : p.Servable cfg :=
    ⟨hrouted, htyped, .inr fun l hl => (Bool.and_eq_true_iff.mp (hlabel l hl)).1⟩
  have hcourse : Parcel.Course cfg p (sys.step cfg env (.pick r))
      ((sys.step cfg env (.pick r)).run cfg env events) :=
    hrun.invariant (fun _ _ h hu => h.step hroot hb hu) hb.course
  obtain ⟨-, hentries, -⟩ := hb.entries
  have hnodup : (p.envelope.files.map (·.name)).Nodup := hentries ▸ hb.written.checked.2.1
  have hlast' : ∀ f, p.envelope.files.getLast? = some f → f.name ∉
      p.fetched (sys.step cfg env (.pick r)) ((sys.step cfg env (.pick r)).run cfg env events) := by
    intro f hf
    apply hlast
    rw [← hentries, List.getLast?_map, hf]
    rfl
  obtain ⟨hg, hfetched, hall⟩ := hcourse.fetch_rest hroot hbase hb hback hserve
    (List.Subset.refl _) hnodup hlast' htime
  rw [← hmore] at hg hfetched hall
  have hguard := Runs.guarded_append.mpr ⟨hrun, hg⟩
  have hend : Parcel.Course cfg p (sys.step cfg env (.pick r))
      ((sys.step cfg env (.pick r)).run cfg env (events ++ more)) :=
    hguard.invariant (fun _ _ h hu => h.step hroot hb hu) hb.course
  rw [← System.run_append, hentries] at hfetched
  have hgone : p.Gone cfg ((sys.step cfg env (.pick r)).run cfg env (events ++ more)).server := by
    rcases hend.stage with hpending | hdone
    · obtain ⟨n, hn, hmissing⟩ := hpending.missing
      rw [hfetched] at hmissing
      exact absurd (List.mem_append_right _ hn) hmissing
    · exact hdone.gone
  have hresponses : ∀ i : Nat, ∃ response : Cli.Response, ∀ f : ReferenceFile,
      p.envelope.files[i]? = some f →
      System.Gets cfg env (sys.step cfg env (.pick r)) (events ++ more)
        (Cli.getFile p.envelope.downloadToken f.url) response ∧ response.Whole ∧
          response.Brings files f.name := by
    intro i
    cases hi : p.envelope.files[i]? with
    | none => exact ⟨.fails .httpError, nofun⟩
    | some f =>
      obtain ⟨before, during, after, chunks, heq, hanswers⟩ := hall i f hi
      rw [← System.run_append] at hanswers
      have hbefore : Parcel.Course cfg p (sys.step cfg env (.pick r))
          ((sys.step cfg env (.pick r)).run cfg env (events ++ before)) := by
        rw [heq, ← List.append_assoc] at hguard
        exact (Runs.guarded_append.mp hguard).1.invariant
          (fun _ _ h hu => h.step hroot hb hu) hb.course
      refine ⟨.stream chunks none, fun g hg => ?_⟩
      obtain rfl := Option.some.inj hg
      have hreq := hb.fetches_getFile hbase (List.mem_of_getElem? hi)
      refine ⟨.inr ⟨events ++ before, during, after, ?_, hanswers⟩, trivial,
        hbefore.brings hb hback hreq hanswers⟩
      rw [heq, List.append_assoc]
  choose server hserver using hresponses
  obtain ⟨hok, hholds⟩ := hb.download hback hnames (c := { c with server }) hfresh htoken
    fun i f hf => (hserver i f hf).2.2
  have hwell := hok.mpr fun i hi =>
    (hserver i _ (List.getElem?_eq_getElem hi)).2.1
  exact ⟨hguard, hgone, server, fun i f hf => (hserver i f hf).1, hwell, hholds hwell⟩

/-- The GET on the small server, and its stream broken off before a byte has gone out. -/
def brokenOff : List Event := [.download smallGet, .disconnect 0]

private theorem sendable_small (l : String) (hl : (firstParcel "p").claims.recipient = some l) :
    Cli.sendable l = true := by
  obtain rfl : l = "bob:b" := (Option.some.inj hl).symm
  decide

/-- The same command again, and the file is there. -/
theorem download_resumes_small : ∃ server,
    (({ smallFetching with server } : Fetching).download (firstParcel "p")).1 = .ok () := by
  have hb := picked_small.begun (by decide) (standing_broadcast "p")
  have hguard : Runs.Guarded (System.step srvConfig .core)
      ((firstParcel "p").Undisturbed srvConfig .core) (pickedUp "p") brokenOff := by
    refine ⟨.inl ⟨"p", _, rfl, ?_, by decide +kernel⟩,
      .inr (.inl (Parcel.streams_of_any (.inr rfl) (by decide +kernel))), trivial⟩
    exact hb.fetches_getFile pathless_local (List.mem_singleton_self _)
  have hnone : (firstParcel "p").fetched (pickedUp "p")
      ((pickedUp "p").run srvConfig .core brokenOff) = [] := by decide +kernel
  have hlast : ∀ n, (firstParcel "p").bundle.names.getLast? = some n →
      n ∉ (firstParcel "p").fetched (pickedUp "p")
        ((pickedUp "p").run srvConfig .core brokenOff) := by
    intro n _
    rw [hnone]
    exact List.not_mem_nil
  have htime : ∀ n < (firstParcel "p").envelope.files.length,
      ((pickedUp "p").run srvConfig .core brokenOff).server.readingAfter n <
        (firstParcel "p").deadline := by
    intro n hn
    obtain rfl : n = 0 := Nat.lt_one_iff.mp hn
    decide +kernel
  have hall := download_resumes (by decide) pathless_local (firstParcel "p") [("p", [1])]
    (broadcastSystem "p") (standing_broadcast "p") _ picked_small
    ⟨by decide +kernel, by decide +kernel, by decide +kernel⟩ servable_small.routed
    servable_small.typed sendable_small nameable_small brokenOff hguard
    hlast htime smallFetching fresh_small (by simp [smallFetching]) _ rfl
  obtain ⟨-, -, server, -, hok, -⟩ := hall
  exact ⟨server, hok⟩

end Cassetta
