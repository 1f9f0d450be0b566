import Cassetta.Core.Threads
import Cassetta.Guarantee.Minting

/-!
# Picks of one bundle side by side

Several worker processes pick one inbox bundle inline, over REST or MCP, by its path or as the
latest, and their backend calls interleave. A pick reads the manifest, reads the files and
deletes the directory; a directory that is already gone is no error then. `Alone` asks that no
pick finds the manifest while another is between finding it and deleting it.
-/

namespace Cassetta

/-- How far a pick has got with its bundle. -/
inductive PickMode where
  | before
  /-- It has read the manifest and has not called `delete_bundle` yet. -/
  | holding
  | after
  deriving DecidableEq, Repr

section Model

variable (cfg : Config)

def PickMode.next : PickMode → AnyCall → Server → PickMode
  | .before, .plain (.readBundleMeta path), s =>
    if (cfg.backend.readBundleMeta s.disk.tree path).isSome then .holding else .before
  | .holding, .plain (.deleteBundle _), _ => .after
  | μ, _, _ => μ

abbrev PickThread := Threads.Thread AnyCall AnyCall.Answer PickMode (Except Exc Envelope)

/-- A pick about to begin. -/
def PickRequest.thread (r : PickRequest) : PickThread := ⟨.before, (r.handler cfg).run⟩

/-- One call of one pick. -/
def PickThread.step (env : Environment) :
    Server × List PickThread → Nat → Server × List PickThread :=
  Threads.step (execAny cfg env) (PickMode.next cfg)

/-- Whether the next call of a pick finds the manifest. -/
def PickThread.finds (s : Server) : PickThread → Bool
  | ⟨.before, .call c _⟩ => PickMode.next cfg .before c s = .holding
  | _ => false

/-- A pick finds the manifest only while no other holds the bundle. -/
def Alone (w : Server × List PickThread) (i : Nat) : Prop :=
  ∀ th ∈ w.2[i]?, PickThread.finds cfg w.1 th = true →
    ∀ a ∈ w.2, a.mode = .holding → a.result.isSome = true

instance (w : Server × List PickThread) (i : Nat) : Decidable (Alone cfg w i) :=
  inferInstanceAs (Decidable (∀ th ∈ w.2[i]?, _))

/-- "Not found", as each surface says it. -/
def PickRequest.notFound : PickRequest → Exc
  | .rest _ _ path =>
    if path = "latest" then .http 404 "No files in inbox" else httpNotFound path
  | .mcp _ path => if path = "latest" then .value "No files in inbox" else valueNotFound path

/-- At most one pick returns contents; the others that have ended report that there is
nothing. -/
def DeliveredOnce (requests : List PickRequest) (w : Server × List PickThread) : Prop :=
  (∀ (i j : Nat) (a b : PickThread) (x y : Envelope), w.2[i]? = some a → w.2[j]? = some b →
    a.result = some (.ok x) → b.result = some (.ok y) → i = j) ∧
  ∀ (i : Nat) (a : PickThread) (e : Exc), w.2[i]? = some a → a.result = some (.error e) →
    ∃ r, requests[i]? = some r ∧ e = r.notFound

/-! ## The bundle -/

/-- The tree once the bundle is deleted. -/
def Backend.without (b : Backend) (t : DataTree) (path : String) : DataTree :=
  (t.rmtree (b.resolve path)).2

/-- A bundle that is there, is delivered inline, and can be read and removed. -/
structure Pickable (t : DataTree) (path : String) (m : BundleMeta) : Prop where
  found : cfg.backend.readBundleMeta t path = some m
  inline : evaluateDownload cfg.limits m.totalSize = .inline
  files : ∀ f ∈ m.files, (cfg.backend.openBundleFileRead t path f.name).isSome = true
  removable : (t.rmtree (cfg.backend.resolve path)).1 = .ok ()

/-- The one bundle an inbox lists; nothing else shows once it is gone. -/
def OnlyBundle (t : DataTree) (agent path : String) : Prop :=
  (∀ d : Disk, d.tree = t → ∃ refs,
    cfg.backend.listBundles d (inboxPath agent "") false = .ok refs ∧
    refs.map (·.path) = [path]) ∧
  ∀ d : Disk, d.tree = cfg.backend.without t path →
    cfg.backend.listBundles d (inboxPath agent "") false = .ok []

/-- The bundle path in an agent's inbox that a pick asks for. -/
def AsksFor (t : DataTree) (agent asked path : String) : Prop :=
  if asked = "latest" then OnlyBundle cfg t agent path else inboxPath agent asked = path

/-- A pick of this bundle, by its path or as the latest. -/
def PickRequest.Addresses (t : DataTree) (path : String) : PickRequest → Prop
  | .rest _ agent asked => AsksFor cfg t agent asked path
  | .mcp caller asked => caller.target "" ≠ "" ∧
      (asked ≠ "latest" → validatePath cfg.allowedPathChars asked = .ok ()) ∧
      AsksFor cfg t (caller.target "") asked path

end Model

/-! ## What a pick may meet and do -/

section Rules

variable (cfg : Config) (env : Environment) (t : DataTree) (path : String)

/-- The trees a pick may find. -/
def Meets : PickMode → Server → Prop
  | .before, s => s.disk.tree = t ∨ s.disk.tree = cfg.backend.without t path
  | .holding, s => s.disk.tree = t
  | .after, s => s.disk.tree = cfg.backend.without t path

/-- A pick deletes the bundle it holds, and changes no tree otherwise. -/
def May (μ : PickMode) (s : Server) (c : AnyCall) : Prop :=
  (μ = .holding ∧ c = .plain (.deleteBundle path)) ∨
    (execAny cfg env c s).2.disk.tree = s.disk.tree ∧ (∀ p, c ≠ .plain (.deleteBundle p)) ∧
      (PickMode.next cfg μ c s = .holding → s.disk.tree = t)

/-- What a handler is sure of when others pick beside it. -/
abbrev Sure {α : Type} (x : Handler α) (Q : PickMode → α → Prop) (E : PickMode → Exc → Prop)
    (μ : PickMode) : Prop :=
  Threads.swpE (exec cfg env) (fun μ c s => PickMode.next cfg μ (.plain c) s) (Meets cfg t path)
    (fun μ s c => May cfg env t path μ s (.plain c)) x Q E μ

variable {cfg env t path}
variable {m : BundleMeta} {Q : PickMode → Unit → Prop} {E : PickMode → Exc → Prop} {μ : PickMode}

/-- A call that neither finds a manifest nor changes the tree. -/
theorem may_quiet {c : Call} {s : Server} (hs : Meets cfg t path μ s)
    (htree : (exec cfg env c s).2.disk.tree = s.disk.tree) (hd : ∀ p, c ≠ .deleteBundle p)
    (hr : ∀ p, c ≠ .readBundleMeta p) :
    May cfg env t path μ s (.plain c) ∧ PickMode.next cfg μ (.plain c) s = μ := by
  have hnext : PickMode.next cfg μ (.plain c) s = μ := by
    cases μ <;> cases c <;> first | rfl | exact absurd rfl (hr _) | exact absurd rfl (hd _)
  refine ⟨.inr ⟨htree, fun p he => hd p (AnyCall.plain.inj he), fun hh => ?_⟩, hnext⟩
  rw [hnext] at hh
  subst hh
  exact hs

private theorem sure_quiet {c : Call} {Q : PickMode → c.Answer → Prop}
    (htree : ∀ s, (exec cfg env c s).2.disk.tree = s.disk.tree) (hd : ∀ p, c ≠ .deleteBundle p)
    (hr : ∀ p, c ≠ .readBundleMeta p)
    (hQ : ∀ s, Meets cfg t path μ s → Q μ (exec cfg env c s).1) :
    Sure cfg env t path (ask c) Q E μ := by
  refine (Threads.swpE_performE c Q).mpr fun s hs => ?_
  obtain ⟨hm, hn⟩ := may_quiet hs (htree s) hd hr
  exact ⟨hm, hn.symm ▸ hQ s hs⟩

private theorem sure_enforce {identity : Identity} {resource : Resource} {action : Action}
    {denied : Exc}
    (henv : env.check identity resource action = .ok true) (hQ : Q μ ()) :
    Sure cfg env t path (enforce identity resource action denied) Q E μ := by
  unfold enforce
  rw [Sure, Threads.swpE_bind]
  refine sure_quiet (c := .check identity resource action) (fun _ => rfl) (by simp) (by simp)
    fun s _ => ?_
  show Threads.swpE _ _ _ _ (orCollaborator (env.check identity resource action) >>= _) _ _ _
  rw [henv]
  exact hQ

private theorem sure_increment {c : Counter} (henv : env.increment c = .ok ()) (hQ : Q μ ()) :
    Sure cfg env t path (increment c) Q E μ := by
  unfold increment
  rw [Sure, Threads.swpE_bind]
  refine sure_quiet (c := .increment c) (fun _ => rfl) (by simp) (by simp) fun s _ => ?_
  show Threads.swpE _ _ _ _ (orCollaborator (env.increment c)) _ _ _
  rw [henv]
  exact hQ

private theorem sure_isExpiredByMeta {createdAt : Nat} {Q : PickMode → Bool → Prop}
    (hQ : ∀ b, Q μ b) :
    Sure cfg env t path (isExpiredByMeta cfg createdAt) Q E μ := by
  unfold isExpiredByMeta
  split
  · exact hQ false
  · rw [Sure, Threads.swpE_bind]
    exact sure_quiet (c := .now) (fun _ => rfl) (by simp) (by simp) fun s _ => hQ _

/-! ### The bundle itself -/

/-- A bundle that can be picked is a directory. -/
theorem Pickable.isDir (h : Pickable cfg t path m) : t.isDir (cfg.backend.resolve path) = true := by
  obtain ⟨blob, hr, -⟩ := Option.bind_eq_some_iff.mp h.found
  exact FileTree.Tree.isDir_of_readFile hr

/-- A bundle that was deleted cannot be read. -/
theorem Pickable.gone (h : Pickable cfg t path m) :
    cfg.backend.readBundleMeta (cfg.backend.without t path) path = none := by
  refine Option.eq_none_iff_forall_ne_some.mpr fun m' hm => ?_
  obtain ⟨blob, hf, -⟩ := Backend.readBundleMeta_eq_some hm
  rw [Backend.without, Backend.rmtree_fileAt, if_pos ⟨h.isDir, List.prefix_append _ _⟩] at hf
  cases hf

/-- The manifest is found, or the bundle is gone. -/
theorem sure_readBundleMeta (h : Pickable cfg t path m)
    {Q : PickMode → Except StorageError BundleMeta → Prop} (hfound : Q .holding (.ok m))
    (hgone : Q .before (.error .fileNotFound)) :
    Sure cfg env t path (readBundleMeta path) Q E .before := by
  refine (Threads.swpE_performE (A := Call.Answer) (Call.readBundleMeta path) Q).mpr fun s hs => ?_
  rcases hs with hs | hs
  · have hr : cfg.backend.readBundleMeta s.disk.tree path = some m := by rw [hs, h.found]
    have hn : PickMode.next cfg .before (.plain (.readBundleMeta path)) s = .holding := by
      simp [PickMode.next, hr]
    refine ⟨.inr ⟨rfl, by simp, fun _ => hs⟩, ?_⟩
    show Q (PickMode.next cfg .before (.plain (.readBundleMeta path)) s)
      (exec cfg env (.readBundleMeta path) s).1
    rw [hn, exec_readBundleMeta, hr]
    exact hfound
  · have hr : cfg.backend.readBundleMeta s.disk.tree path = none := by rw [hs, h.gone]
    have hn : PickMode.next cfg .before (.plain (.readBundleMeta path)) s = .before := by
      simp [PickMode.next, hr]
    refine ⟨.inr ⟨rfl, by simp, fun hh => ?_⟩, ?_⟩
    · rw [hn] at hh
      cases hh
    · show Q (PickMode.next cfg .before (.plain (.readBundleMeta path)) s)
        (exec cfg env (.readBundleMeta path) s).1
      rw [hn, exec_readBundleMeta, hr]
      exact hgone

private theorem sure_deleteBundle (h : Pickable cfg t path m)
    {Q : PickMode → Except StorageError Unit → Prop} (hQ : Q .after (.ok ())) :
    Sure cfg env t path (deleteBundle path) Q E .holding := by
  refine (Threads.swpE_performE (A := Call.Answer) (Call.deleteBundle path) Q).mpr fun s hs => ?_
  refine ⟨.inl ⟨rfl, rfl⟩, ?_⟩
  have he : (exec cfg env (.deleteBundle path) s).1 = .ok () := by
    show (cfg.backend.deleteBundle s.wall path s.disk).1 = .ok ()
    have hs' : s.disk.tree = t := hs
    have hrm := h.removable
    rw [Backend.deleteBundle, hs', if_pos h.isDir]
    rcases hr : t.rmtree (cfg.backend.resolve path) with ⟨r, t'⟩
    rw [hr] at hrm
    subst hrm
    rfl
  rw [he]
  exact hQ

private theorem sure_deleteQuiet (h : Pickable cfg t path m) (hQ : Q .after ()) :
    Sure cfg env t path (deleteQuiet path) Q E .holding := by
  unfold deleteQuiet
  rw [Sure, Threads.swpE_bind]
  exact sure_deleteBundle h hQ

private theorem sure_collectBundleFiles (h : Pickable cfg t path m) {files : List FileRecord}
    (hf : ∀ f ∈ files, f ∈ m.files) {Q : PickMode → List (String × Bytes) → Prop}
    (hQ : ∀ payloads, Q .holding payloads) :
    Sure cfg env t path (collectBundleFiles path files) Q E .holding := by
  induction files generalizing Q with
  | nil => exact hQ []
  | cons f rest ih =>
    unfold collectBundleFiles
    rw [Sure, Threads.swpE_bind]
    refine sure_quiet (c := .openBundleFileRead path f.name) (fun _ => rfl) (by simp) (by simp)
      fun s hs => ?_
    have hs' : s.disk.tree = t := hs
    obtain ⟨data, hd⟩ := Option.isSome_iff_exists.mp (h.files f (hf f (by simp)))
    show Threads.swpE _ _ _ _
      (orRaise (exec cfg env (.openBundleFileRead path f.name) s).1 >>= _) _ _ _
    rw [exec_openBundleFileRead, hs', hd, Threads.swpE_bind]
    refine (Threads.swpE_pure _).mpr ?_
    rw [Threads.swpE_bind]
    exact ih (fun f hm => hf f (by simp [hm])) fun payloads => hQ _

/-! ### Finding the bundle -/

private theorem sure_readFreshOr (h : Pickable cfg t path m) {missing : Exc}
    {Q : PickMode → BundleMeta → Prop} (hfound : Q .holding m) (hgone : E .before missing)
    (hexpired : E .after missing) :
    Sure cfg env t path (readFreshOr cfg path missing) Q E .before := by
  unfold readFreshOr readMetaOr
  simp only [Sure, Threads.swpE_bind]
  refine sure_readBundleMeta h ?_ hgone
  refine sure_isExpiredByMeta fun expired => ?_
  cases expired with
  | false => exact hfound
  | true =>
    refine (Threads.swpE_bind _ _ _).mpr ?_
    exact sure_deleteQuiet h hexpired

private theorem sure_listBundles {agent : String} (h : OnlyBundle cfg t agent path)
    {Q : PickMode → List Backend.BundleRef → Prop}
    (hQ : ∀ refs, refs.map (·.path) = [path] ∨ refs = [] → Q .before refs) :
    Sure cfg env t path (listBundles (inboxPath agent "") false) Q E .before := by
  unfold listBundles
  rw [Sure, Threads.swpE_bind]
  refine sure_quiet (c := .listBundles (inboxPath agent "") false) (fun _ => rfl) (by simp)
    (by simp) fun s hs => ?_
  show Threads.swpE _ _ _ _ (orRaise (cfg.backend.listBundles s.disk (inboxPath agent "") false))
    _ _ _
  rcases hs with hs | hs
  · obtain ⟨refs, hr, hp⟩ := h.1 s.disk hs
    rw [hr]
    exact hQ refs (.inl hp)
  · rw [h.2 s.disk hs]
    exact hQ [] (.inr rfl)

/-- An expired bundle is passed over, and left in place. -/
theorem sure_newestBundle (h : Pickable cfg t path m)
    {Q : PickMode → Option (String × BundleMeta) → Prop} (hfound : Q .holding (some (path, m)))
    (hexpired : Q .holding none) (hgone : Q .before none) :
    Sure cfg env t path (newestBundle cfg none [path]) Q E .before := by
  unfold newestBundle
  simp only [Sure, Threads.swpE_bind]
  refine sure_readBundleMeta h ?_ hgone
  refine (Threads.swpE_bind _ _ _).mpr (sure_isExpiredByMeta fun expired => ?_)
  cases expired with
  | false => exact hfound
  | true => exact hexpired

private theorem sure_resolvePick (h : Pickable cfg t path m) {agent asked : String}
    (hasks : AsksFor cfg t agent asked path) {noFiles missing : Exc}
    {Q : PickMode → String × BundleMeta → Prop} (hfound : Q .holding (path, m))
    (hnone : asked = "latest" → ∀ μ, E μ noFiles) (hmissing : asked ≠ "latest" → ∀ μ, E μ missing) :
    Sure cfg env t path (Inbox.resolvePick cfg agent asked noFiles missing) Q E .before := by
  unfold Inbox.resolvePick
  by_cases hl : asked = "latest"
  · rw [AsksFor, if_pos hl] at hasks
    rw [if_pos hl, Sure, Threads.swpE_bind]
    refine sure_listBundles hasks fun refs hrefs => ?_
    rw [Threads.swpE_bind]
    rcases hrefs with hp | rfl
    · rw [hp]
      exact sure_newestBundle h hfound (hnone hl _) (hnone hl _)
    · exact hnone hl _
  · rw [AsksFor, if_neg hl] at hasks
    subst hasks
    rw [if_neg hl, Sure, Threads.swpE_bind]
    exact sure_readFreshOr h hfound (hmissing hl _) (hmissing hl _)

/-! ### Whole picks -/

variable (cfg env t path) in
/-- The same, for a handler that has the claim store. -/
abbrev SureAny {α : Type} (x : ClaimHandler α) (Q : PickMode → α → Prop)
    (E : PickMode → Exc → Prop) (μ : PickMode) : Prop :=
  Threads.swpE (execAny cfg env) (PickMode.next cfg) (Meets cfg t path) (May cfg env t path) x Q E μ

private theorem sureAny_plain {α : Type} {x : Handler α} {Q : PickMode → α → Prop} :
    SureAny cfg env t path (plain x) Q E μ ↔ Sure cfg env t path x Q E μ :=
  Threads.swpE_embedE (agree_plain cfg env) x

private theorem sure_consume (h : Pickable cfg t path m) {agent : String} {missing : Exc}
    {Q : PickMode → Envelope → Prop} (hQ : ∀ e, Q .after e) :
    SureAny cfg env t path (Inbox.consume cfg agent path m missing) Q E .holding := by
  unfold Inbox.consume
  rw [h.inline]
  simp only [SureAny, Threads.swpE_bind]
  refine sureAny_plain.mpr (sure_collectBundleFiles h (fun _ hf => hf) fun payloads => ?_)
  exact sureAny_plain.mpr (sure_deleteQuiet h (hQ _))

private theorem sure_validatePickPath {asked : String}
    (h : asked ≠ "latest" → validatePath cfg.allowedPathChars asked = .ok ()) (hQ : Q μ ()) :
    Sure cfg env t path (Mcp.validatePickPath cfg asked) Q E μ := by
  unfold Mcp.validatePickPath validateOr
  by_cases hl : asked = "latest"
  · rw [if_pos hl]
    exact hQ
  · rw [if_neg hl, h hl]
    exact hQ

/-- A pick beside others returns after it has deleted the bundle, or says "not found". -/
theorem sure_pick (hcheck : ∀ i r a, env.check i r a = .ok true)
    (hincrement : ∀ c, env.increment c = .ok ()) (h : Pickable cfg t path m) {r : PickRequest}
    (hr : r.Addresses cfg t path) :
    SureAny cfg env t path (r.handler cfg) (fun μ _ => μ = .after) (fun _ e => e = r.notFound)
      .before := by
  cases r with
  | rest identity agent asked =>
    unfold PickRequest.handler Inbox.pickInboxFile
    simp only [SureAny, Threads.swpE_bind]
    refine sureAny_plain.mpr (sure_enforce (hcheck _ _ _) ?_)
    refine sureAny_plain.mpr (sure_resolvePick h hr ?_ ?_ ?_)
    · exact sure_consume h fun _ => rfl
    · intro hl μ
      exact (if_pos hl).symm
    · intro hl μ
      exact (if_neg hl).symm
  | mcp caller asked =>
    obtain ⟨htarget, hvalid, hasks⟩ := hr
    change SureAny cfg env t path (Mcp.cassettaPick cfg caller asked) _ _ _
    unfold Mcp.cassettaPick
    rw [if_neg htarget]
    simp only [SureAny, Threads.swpE_bind]
    refine sureAny_plain.mpr (sure_enforce (hcheck _ _ _) ?_)
    refine sureAny_plain.mpr (sure_validatePickPath hvalid ?_)
    refine sureAny_plain.mpr (sure_resolvePick h hasks ?_ ?_ ?_)
    · refine sure_consume h fun e => ?_
      exact sureAny_plain.mpr (sure_increment (hincrement _) rfl)
    · intro hl μ
      exact (if_pos hl).symm
    · intro hl μ
      exact (if_neg hl).symm

end Rules

/-! ## All picks together -/

section Pool

variable {cfg : Config} {env : Environment} {t : DataTree} {path : String} {m : BundleMeta}

/-- The bundle is in place and at most one pick under way holds it, or one pick has deleted
it. -/
def Turn (cfg : Config) (t : DataTree) (path : String) (w : Server × List PickThread) : Prop :=
  (w.1.disk.tree = t ∧ (∀ th ∈ w.2, th.mode ≠ .after) ∧
    ∀ (i j : Nat) (a b : PickThread), w.2[i]? = some a → w.2[j]? = some b →
      a.mode = .holding → b.mode = .holding → a.result = none → b.result = none → i = j) ∨
  (w.1.disk.tree = cfg.backend.without t path ∧
    (∀ th ∈ w.2, th.mode = .holding → th.result.isSome = true) ∧
    ∀ (i j : Nat) (a b : PickThread), w.2[i]? = some a → w.2[j]? = some b →
      a.mode = .after → b.mode = .after → i = j)

/-- How a pick may end. -/
def PickRequest.Ends (r : PickRequest) (μ : PickMode) : Except Exc Envelope → Prop
  | .ok _ => μ = .after
  | .error e => e = r.notFound

/-- What every pick keeps to, whatever the others do. -/
def Bound (cfg : Config) (env : Environment) (t : DataTree) (path : String) (r : PickRequest)
    (th : PickThread) : Prop :=
  Threads.swp (execAny cfg env) (PickMode.next cfg) (Meets cfg t path) (May cfg env t path) th.prog
    r.Ends th.mode

structure Picking (cfg : Config) (env : Environment) (t : DataTree) (path : String)
    (requests : List PickRequest) (w : Server × List PickThread) : Prop where
  turn : Turn cfg t path w
  bound : ∀ (i : Nat) (th : PickThread), w.2[i]? = some th →
    ∃ r, requests[i]? = some r ∧ Bound cfg env t path r th

/-- A pick under way meets a tree its mode may meet. -/
theorem Turn.meets {w : Server × List PickThread} (h : Turn cfg t path w) {th : PickThread}
    (hm : th ∈ w.2) (hr : th.result = none) : Meets cfg t path th.mode w.1 := by
  cases hμ : th.mode with
  | before => exact h.imp And.left And.left
  | holding =>
    rcases h with ⟨ht, -⟩ | ⟨-, hdone, -⟩
    · exact ht
    · have hs := hdone th hm hμ
      rw [hr] at hs
      cases hs
  | after =>
    rcases h with ⟨-, hnone, -⟩ | ⟨ht, -⟩
    · exact absurd hμ (hnone th hm)
    · exact ht

private theorem PickMode.next_of_ne {c : AnyCall} {s : Server} {μ : PickMode}
    (hc : ∀ p, c ≠ .plain (.deleteBundle p)) :
    PickMode.next cfg μ c s = μ ∨ μ = .before ∧ PickMode.next cfg μ c s = .holding := by
  unfold PickMode.next
  split
  · split
    · exact .inr ⟨rfl, rfl⟩
    · exact .inl rfl
  · exact absurd rfl (hc _)
  · exact .inl rfl

private theorem getElem?_set_cases {α : Type} {l : List α} {i j : Nat} {x a : α}
    (h : (l.set i x)[j]? = some a) : j = i ∧ a = x ∨ j ≠ i ∧ l[j]? = some a := by
  rw [List.getElem?_set] at h
  split at h
  · rename_i hij
    split at h
    · exact .inl ⟨hij.symm, (Option.some.inj h).symm⟩
    · cases h
  · rename_i hij
    exact .inr ⟨fun he => hij he.symm, h⟩

/-- The pick that holds the bundle deletes it. -/
theorem Turn.delete {w : Server × List PickThread} (h : Turn cfg t path w) {i : Nat}
    {th th' : PickThread} {s' : Server} (hi : w.2[i]? = some th) (hμ : th.mode = .holding)
    (hr : th.result = none) (htree : s'.disk.tree = cfg.backend.without t path)
    (hafter : th'.mode = .after) : Turn cfg t path (s', w.2.set i th') := by
  rcases h with ⟨-, hnone, hone⟩ | ⟨-, hdone, -⟩
  · refine .inr ⟨htree, fun a ha hm => ?_, fun j k a b hj hk hma hmb => ?_⟩
    · obtain ⟨j, hj⟩ := List.mem_iff_getElem?.mp ha
      rcases getElem?_set_cases hj with ⟨-, rfl⟩ | ⟨hne, hj⟩
      · rw [hafter] at hm
        cases hm
      · refine Option.isSome_iff_ne_none.mpr fun hn => hne ?_
        exact hone j i a th hj hi hm hμ hn hr
    · rcases getElem?_set_cases hj with ⟨rfl, -⟩ | ⟨-, hj⟩
      · rcases getElem?_set_cases hk with ⟨rfl, -⟩ | ⟨-, hk⟩
        · rfl
        · exact absurd hmb (hnone b (List.mem_of_getElem? hk))
      · exact absurd hma (hnone a (List.mem_of_getElem? hj))
  · have hs := hdone th (List.mem_of_getElem? hi) hμ
    rw [hr] at hs
    cases hs

/-- A call that changes no tree, of a pick that finds the manifest only when it may. -/
theorem Turn.quiet {w : Server × List PickThread} (h : Turn cfg t path w) {i : Nat}
    {th th' : PickThread} {s' : Server} (hi : w.2[i]? = some th) (hr : th.result = none)
    (htree : s'.disk.tree = w.1.disk.tree)
    (hmode : th'.mode = th.mode ∨ th.mode = .before ∧ th'.mode = .holding ∧
      w.1.disk.tree ≠ cfg.backend.without t path ∧
      ∀ a ∈ w.2, a.mode = .holding → a.result.isSome = true) :
    Turn cfg t path (s', w.2.set i th') := by
  have hmem := List.mem_of_getElem? hi
  rcases h with ⟨ht, hnone, hone⟩ | ⟨ht, hdone, hone⟩
  · refine .inl ⟨htree.trans ht, fun a ha hm => ?_, ?_⟩
    · obtain ⟨j, hj⟩ := List.mem_iff_getElem?.mp ha
      rcases getElem?_set_cases hj with ⟨-, rfl⟩ | ⟨-, hj⟩
      · rcases hmode with he | ⟨-, he, -⟩
        · exact hnone th hmem (he ▸ hm)
        · rw [he] at hm
          cases hm
      · exact hnone a (List.mem_of_getElem? hj) hm
    · have hother : ∀ (j : Nat) (b : PickThread), w.2[j]? = some b → b.mode = .holding →
          b.result = none → th'.mode = .holding → j = i := by
        intro j b hj hm hn hm'
        rcases hmode with he | ⟨-, -, -, hall⟩
        · exact hone j i b th hj hi hm (he ▸ hm') hn hr
        · have hs := hall b (List.mem_of_getElem? hj) hm
          rw [hn] at hs
          cases hs
      intro j k a b hj hk hma hmb hna hnb
      rcases getElem?_set_cases hj with ⟨rfl, rfl⟩ | ⟨-, hj'⟩ <;>
        rcases getElem?_set_cases hk with ⟨rfl, rfl⟩ | ⟨-, hk'⟩
      · rfl
      · exact (hother k b hk' hmb hnb hma).symm
      · exact hother j a hj' hma hna hmb
      · exact hone j k a b hj' hk' hma hmb hna hnb
  · have hsame : th'.mode = th.mode := by
      rcases hmode with he | ⟨-, -, hne, -⟩
      · exact he
      · exact absurd ht hne
    refine .inr ⟨htree.trans ht, fun a ha hm => ?_, fun j k a b hj hk hma hmb => ?_⟩
    · obtain ⟨j, hj⟩ := List.mem_iff_getElem?.mp ha
      rcases getElem?_set_cases hj with ⟨-, rfl⟩ | ⟨-, hj⟩
      · have hs := hdone th hmem (hsame ▸ hm)
        rw [hr] at hs
        cases hs
      · exact hdone a (List.mem_of_getElem? hj) hm
    · rcases getElem?_set_cases hj with ⟨rfl, rfl⟩ | ⟨-, hj'⟩ <;>
        rcases getElem?_set_cases hk with ⟨rfl, rfl⟩ | ⟨-, hk'⟩
      · rfl
      · exact hone _ _ th b hi hk' (hsame ▸ hma) hmb
      · exact hone _ _ a th hj' hi hma (hsame ▸ hmb)
      · exact hone j k a b hj' hk' hma hmb

/-- A call of one pick, while the others wait, keeps to the race. -/
theorem Picking.step {requests : List PickRequest} (hp : Pickable cfg t path m)
    (w : Server × List PickThread) (i : Nat) (h : Picking cfg env t path requests w)
    (halone : Alone cfg w i) : Picking cfg env t path requests (PickThread.step cfg env w i) := by
  unfold PickThread.step
  rcases Threads.step_cases w i with hsame | ⟨μ, c, k, hi, hstep⟩
  · rw [hsame]
    exact h
  obtain ⟨r, hreq, hbound⟩ := h.bound i _ hi
  have hmeets := h.turn.meets (List.mem_of_getElem? hi) rfl
  obtain ⟨hmay, hrest⟩ := hbound w.1 hmeets
  rw [hstep]
  refine ⟨?_, fun j a hj => ?_⟩
  · rcases hmay with ⟨hμ, hc⟩ | ⟨htree, hc, hhold⟩
    · have hμ' : μ = .holding := hμ
      subst hμ' hc
      refine h.turn.delete hi rfl rfl ?_ rfl
      have ht : w.1.disk.tree = t := hmeets
      change (cfg.backend.deleteBundle w.1.wall path w.1.disk).2.tree = _
      rw [Backend.deleteBundle, ht, if_pos hp.isDir, Backend.without]
      rcases t.rmtree (cfg.backend.resolve path) with ⟨r, t'⟩
      cases r <;> rfl
    · refine h.turn.quiet hi rfl htree ?_
      rcases PickMode.next_of_ne (s := w.1) (μ := μ) hc with he | ⟨rfl, he⟩
      · exact .inl he
      · refine .inr ⟨rfl, he, fun hw => ?_, ?_⟩
        · have hf := hp.found
          rw [← hhold he, hw, hp.gone] at hf
          cases hf
        · exact halone _ hi (by simpa [PickThread.finds] using he)
  · rcases getElem?_set_cases hj with ⟨rfl, rfl⟩ | ⟨-, hj'⟩
    · exact ⟨r, hreq, hrest⟩
    · exact h.bound j a hj'

/-- Where all picks have ended, one of them has delivered. -/
theorem Picking.delivered {requests : List PickRequest} {w : Server × List PickThread}
    (h : Picking cfg env t path requests w) : DeliveredOnce requests w := by
  have hend : ∀ (i : Nat) (a : PickThread) (out : Except Exc Envelope), w.2[i]? = some a →
      a.result = some out → ∃ r, requests[i]? = some r ∧ r.Ends a.mode out := by
    intro i a out hi ho
    obtain ⟨r, hr, hb⟩ := h.bound i a hi
    obtain ⟨μ, p⟩ := a
    cases p with
    | call c k => cases ho
    | pure x =>
      cases ho
      exact ⟨r, hr, hb⟩
  refine ⟨fun i j a b x y hi hj hx hy => ?_, fun i a e hi he => ?_⟩
  · obtain ⟨_, -, ha⟩ := hend i a _ hi hx
    obtain ⟨_, -, hb⟩ := hend j b _ hj hy
    rcases h.turn with ⟨-, hnone, -⟩ | ⟨-, -, hone⟩
    · exact absurd ha (hnone a (List.mem_of_getElem? hi))
    · exact hone i j a b hi hj ha hb
  · exact hend i a _ hi he

/-- In every run in which no pick finds the manifest while another is between finding it and
deleting the bundle, at most one pick returns contents and every other one says "not found". -/
theorem picks_deliveredOnce (hcheck : ∀ i r a, env.check i r a = .ok true)
    (hincrement : ∀ c, env.increment c = .ok ()) {s : Server}
    (h : Pickable cfg s.disk.tree path m) (requests : List PickRequest)
    (hr : ∀ r ∈ requests, r.Addresses cfg s.disk.tree path) (picks : List Nat)
    (hg : Runs.Guarded (PickThread.step cfg env) (Alone cfg)
      (s, requests.map (PickRequest.thread cfg)) picks) :
    DeliveredOnce requests (Runs.run (PickThread.step cfg env)
      (s, requests.map (PickRequest.thread cfg)) picks) := by
  refine
    (hg.invariant (I := Picking cfg env s.disk.tree path requests) (Picking.step h) ?_).delivered
  refine ⟨.inl ⟨rfl, fun th hm => ?_, fun i j a b hi hj hma => ?_⟩, fun i th hi => ?_⟩
  · obtain ⟨r, -, rfl⟩ := List.mem_map.mp hm
    exact PickMode.noConfusion
  · obtain ⟨r, -, rfl⟩ := List.mem_map.mp (List.mem_of_getElem? hi)
    cases hma
  · rw [List.getElem?_map] at hi
    obtain ⟨r, hreq, rfl⟩ := Option.map_eq_some_iff.mp hi
    refine ⟨r, hreq, Threads.swp_mono (fun μ out ho => ?_)
      (sure_pick hcheck hincrement h (hr r (List.mem_of_getElem? hreq)))⟩
    cases out <;> exact ho

/-! ### Three picks of one bundle -/

/-- A server that delivers everything inline, with one bundle in an inbox. -/
def inlineServer : Server :=
  { srvSystem.server with
    disk := Runs.run inlineConfig.backend.step (Disk.init srvTree)
      [.openBundleWrite 0 "inbox/bob:b/p", .writeFile 0 0 "f" [1], .commit 0 0 (smallMeta ["f"])] }

def inlinePicks : List PickRequest :=
  [.rest bob "bob:b" "p", .mcp ⟨some bob, some "bob:b"⟩ "p", .rest bob "bob:b" "latest"]

private theorem inlineServer_pickable :
    Pickable inlineConfig inlineServer.disk.tree "inbox/bob:b/p" (smallMeta ["f"]) :=
  ⟨by decide +kernel, by decide +kernel, by decide +kernel, by decide +kernel⟩

private theorem inlineServer_only :
    OnlyBundle inlineConfig inlineServer.disk.tree "bob:b" "inbox/bob:b/p" := by
  constructor
  · rintro ⟨tree, mtime, writers, next, commits⟩ rfl
    exact ⟨_, rfl, rfl⟩
  · rintro ⟨tree, mtime, writers, next, commits⟩ rfl
    rfl

private theorem inlinePicks_address : ∀ r ∈ inlinePicks,
    r.Addresses inlineConfig inlineServer.disk.tree "inbox/bob:b/p" := by
  have hp : AsksFor inlineConfig inlineServer.disk.tree "bob:b" "p" "inbox/bob:b/p" := by
    rw [AsksFor, if_neg (by decide)]
    decide
  have hl : AsksFor inlineConfig inlineServer.disk.tree "bob:b" "latest" "inbox/bob:b/p" := by
    rw [AsksFor, if_pos rfl]
    exact inlineServer_only
  intro r hr
  simp only [inlinePicks, List.mem_cons, List.not_mem_nil, or_false] at hr
  rcases hr with rfl | rfl | rfl
  · exact hp
  · exact ⟨by decide, fun _ => by decide, hp⟩
  · exact hl

/-- Who has returned contents after a run. -/
def delivered (w : Server × List PickThread) : List Bool :=
  w.2.map fun th => match th.result with
    | some (.ok _) => true
    | _ => false

/-- Two picks that delivered are one. -/
theorem DeliveredOnce.unique {requests : List PickRequest} {w : Server × List PickThread}
    (h : DeliveredOnce requests w) {i j : Nat} (hi : (delivered w)[i]? = some true)
    (hj : (delivered w)[j]? = some true) : i = j := by
  have hok : ∀ k : Nat, (delivered w)[k]? = some true → ∃ (a : PickThread) (x : Envelope),
      w.2[k]? = some a ∧ a.result = some (.ok x) := by
    intro k hk
    rw [delivered, List.getElem?_map] at hk
    obtain ⟨a, ha, hr⟩ := Option.map_eq_some_iff.mp hk
    split at hr
    · rename_i x hx
      exact ⟨a, x, ha, hx⟩
    · cases hr
  obtain ⟨a, x, ha, hx⟩ := hok i hi
  obtain ⟨b, y, hb, hy⟩ := hok j hj
  exact h.1 i j a b x y ha hb hx hy

/-- One after the other. -/
theorem picks_deliveredOnce_inline :
    DeliveredOnce inlinePicks (Runs.run (PickThread.step inlineConfig .core)
      (inlineServer, inlinePicks.map (PickRequest.thread inlineConfig))
      [0, 1, 2, 0, 0, 0, 1, 1, 2, 2]) ∧
    delivered (Runs.run (PickThread.step inlineConfig .core)
      (inlineServer, inlinePicks.map (PickRequest.thread inlineConfig))
      [0, 1, 2, 0, 0, 0, 1, 1, 2, 2]) = [true, false, false] :=
  ⟨picks_deliveredOnce (fun _ _ _ => rfl) (fun _ => rfl) inlineServer_pickable inlinePicks
    inlinePicks_address _ (by decide +kernel), by decide +kernel⟩

/-- Two picks read the bundle before either deletes it, and both return its contents. -/
theorem picks_delivered_twice :
    ¬∀ picks, DeliveredOnce inlinePicks (Runs.run (PickThread.step inlineConfig .core)
      (inlineServer, inlinePicks.map (PickRequest.thread inlineConfig)) picks) := by
  intro h
  have htwice : delivered (Runs.run (PickThread.step inlineConfig .core)
      (inlineServer, inlinePicks.map (PickRequest.thread inlineConfig))
      [0, 1, 0, 1, 0, 1, 0, 1, 1]) = [true, true, false] := by decide +kernel
  have hone := (h [0, 1, 0, 1, 0, 1, 0, 1, 1]).unique (i := 0) (j := 1)
  rw [htwice] at hone
  exact absurd (hone rfl rfl) (by decide)

end Pool

end Cassetta
