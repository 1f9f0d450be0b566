import Cassetta.Guarantee.Metrics
import Cassetta.Server.Faults

/-!
# Recipients a broadcast did not reach

Each write of a broadcast is preceded by a delete at its path. This module says which
deliveries leave the inbox of a label as it was, whatever storage calls fail, and that a
broadcast all of whose deliveries do leaves the inboxes alone of the labels it reports as
denied or failed.
-/

namespace Cassetta

open Prog FileTree

/-! ## Requests -/

/-- A broadcast, on either surface. -/
inductive BroadcastRequest where
  | rest (identity : Identity) (path : String) (body : Body)
  | mcp (caller : Mcp.Caller) (overHttp : Bool) (path content : String) (files : FilesArg)

namespace BroadcastRequest

/-- The path of the broadcast. -/
def path : BroadcastRequest → String
  | .rest _ path _ => path
  | .mcp _ _ path _ _ => path

/-- Whose broadcast it is. -/
def identity : BroadcastRequest → Identity
  | .rest identity _ _ => identity
  | .mcp caller _ _ _ _ => caller.effective

/-- The label it is sent under. -/
def sender : BroadcastRequest → Option String
  | .rest identity _ _ => Agents.senderFromIdentity identity
  | .mcp caller _ _ _ _ => caller.senderLabel

/-- The files of the payload. -/
def parts : BroadcastRequest → List FilePart
  | .rest _ path body => body.fileParts path
  | .mcp _ _ path content files => (mcpFileParts path content files).toOption.getD []

/-- The handler, up to its report. -/
def handler (cfg : Config) : BroadcastRequest → Handler BroadcastReport
  | .rest identity path body => Agents.broadcast cfg identity path body
  | .mcp caller overHttp path content files =>
    Mcp.cassettaBroadcast cfg caller overHttp path content files

end BroadcastRequest

/-- The labels a report gives as denied or failed. -/
def BroadcastReport.unreached (r : BroadcastReport) : List String :=
  r.denied.map Prod.fst ++ r.failed.map Prod.fst

/-! ## Inboxes -/

/-- The bundles committed in the inbox of a label read as they did, and there are no others. -/
def Backend.InboxKept (b : Backend) (label : String) (t t' : DataTree) : Prop :=
  ∀ loc, StrictlyInside (b.location (inboxPath label "")) loc →
    b.metaAt t' loc = b.metaAt t loc ∧ ∀ m, b.metaAt t loc = some m →
      ∀ f ∈ m.files, t'.fileAt (fileLoc loc f.name) = t.fileAt (fileLoc loc f.name)

/-- A place whose content counts for the inbox of a label: that of a manifest, or of a file that
a committed bundle lists. -/
def Backend.Holds (b : Backend) (label : String) (t : DataTree) (q : List String) : Prop :=
  ∃ loc, StrictlyInside (b.location (inboxPath label "")) loc ∧
    (q = loc ++ [bundleManifest] ∨
      ∃ m, b.metaAt t loc = some m ∧ ∃ f ∈ m.files, q = fileLoc loc f.name)

namespace Backend.InboxKept

variable {b : Backend} {label : String} {t t₁ t₂ : DataTree}

/-- An inbox is kept as it is. -/
theorem refl (t : DataTree) : b.InboxKept label t t := fun _ _ => ⟨rfl, fun _ _ _ _ => rfl⟩

/-- An inbox that is kept twice is kept. -/
theorem trans (h : b.InboxKept label t t₁) (h' : b.InboxKept label t₁ t₂) :
    b.InboxKept label t t₂ := by
  intro loc hloc
  obtain ⟨hm, hfiles⟩ := h loc hloc
  obtain ⟨hm', hfiles'⟩ := h' loc hloc
  refine ⟨hm'.trans hm, fun m hsome f hf => ?_⟩
  exact (hfiles' m (hm.trans hsome) f hf).trans (hfiles m hsome f hf)

/-- An inbox is kept from either side. -/
theorem symm (h : b.InboxKept label t t₁) : b.InboxKept label t₁ t := by
  intro loc hloc
  obtain ⟨hm, hfiles⟩ := h loc hloc
  exact ⟨hm.symm, fun m hsome f hf => (hfiles m (hm.symm.trans hsome) f hf).symm⟩

/-- Where all its places are as they were, the inbox is kept. -/
theorem of_places (h : ∀ q, b.Holds label t q → t₁.fileAt q = t.fileAt q) :
    b.InboxKept label t t₁ := by
  intro loc hloc
  refine ⟨?_, fun m hm f hf => h _ ⟨loc, hloc, .inr ⟨m, hm, f, hf, rfl⟩⟩⟩
  rw [metaAt, metaAt, h _ ⟨loc, hloc, .inl rfl⟩]

/-- A kept inbox has the same places. -/
theorem holds_iff (h : b.InboxKept label t t₁) {q : List String} :
    b.Holds label t₁ q ↔ b.Holds label t q := by
  refine exists_congr fun loc => and_congr_right fun hloc => or_congr_right ?_
  rw [(h loc hloc).1]

end Backend.InboxKept

/-! ## The condition -/

variable {cfg : Config} {env : Environment} {faults : Faults cfg.backend} {s : Server}

/-- The server when a delivery gets to its write. -/
def Server.clearing (cfg : Config) (s : Server) (path : String) : Server :=
  { s with disk := (cfg.backend.deleteBundle s.wall path s.disk).2, nextId := s.nextId + 1 }

/-- The places a delivery writes to. -/
def Written (loc : List String) (parts : List FilePart) (q : List String) : Prop :=
  q = loc ++ [bundleManifest] ∨ Leads loc parts q

/-- A delivery leaves the inbox of a label as it was. If the delete at its path fails, what it
has removed by then is nothing of the inbox. If not, no bundle of the inbox has its directory
or a file there, and where the write goes to a place that counts for the inbox, it is cleaned
up because the write does not go through. -/
def SparesInbox (cfg : Config) (faults : Faults cfg.backend) (parts : List FilePart)
    (sender : Option String) (label : String) (s : Server) (path : String) : Prop :=
  match faults.fault (.deleteBundle path) with
  | some (_, left) => cfg.backend.InboxKept label s.disk.tree (left s.disk).tree
  | none =>
    (s.disk.tree.dirAt (cfg.backend.location path) = true → ∀ loc m,
      StrictlyInside (cfg.backend.location (inboxPath label "")) loc →
      cfg.backend.metaAt s.disk.tree loc = some m →
      ¬Reaches s.disk.tree (cfg.backend.location path) loc m) ∧
    ∀ q, Written (cfg.backend.location path) parts q → cfg.backend.Holds label s.disk.tree q →
      StrictlyInside (cfg.backend.location path) q ∧
        ¬GoesThrough cfg faults path parts sender "application/octet-stream" s.nextId
          (s.clearing cfg path)

/-- Every delivery starts with a delete; it leaves the inbox of a label as it was. -/
def Sparing (cfg : Config) (faults : Faults cfg.backend) (parts : List FilePart)
    (sender : Option String) (label : String) (s : Server) : Call → Prop
  | .deleteBundle path => SparesInbox cfg faults parts sender label s path
  | _ => True

/-! ## One delivery -/

section Delivery

variable {label path : String} {parts : List FilePart} {sender : Option String} {loc : List String}

variable (label) in
/-- The delete at a path keeps an inbox exactly when no bundle of the inbox has its directory or
a file there. -/
theorem inboxKept_delete_iff (hspell : cfg.backend.resolve path = spell loc) :
    cfg.backend.InboxKept label s.disk.tree (s.clearing cfg path).disk.tree ↔
      (s.disk.tree.dirAt loc = true → ∀ dir m,
        StrictlyInside (cfg.backend.location (inboxPath label "")) dir →
        cfg.backend.metaAt s.disk.tree dir = some m → ¬Reaches s.disk.tree loc dir m) := by
  have hloc : cfg.backend.location path = loc := by rw [Backend.location, hspell, normalize_spell]
  have hdir : s.disk.tree.isDir (cfg.backend.resolve path) = s.disk.tree.dirAt loc := by
    rw [Bool.eq_iff_iff, hspell, Tree.isDir_spell, Tree.dirAt_iff]
  have hwithout : Without s.disk.tree (s.clearing cfg path).disk.tree
      (fun dir => dir = loc ∧ s.disk.tree.dirAt loc = true) := by
    refine ⟨?_, fun q => ?_⟩
    · rintro dir ⟨rfl, hd⟩
      exact Tree.dirAt_iff.mp hd
    · rw [Server.clearing, Backend.deleteBundle_fileAt, hloc, hdir]
      by_cases hq : s.disk.tree.dirAt loc = true ∧ loc <+: q
      · exact .inl ⟨⟨loc, ⟨rfl, hq.1⟩, hq.2⟩, if_pos hq⟩
      · refine .inr ⟨?_, if_neg hq⟩
        rintro dir ⟨rfl, hd⟩ hp
        exact hq ⟨hd, hp⟩
  constructor
  · intro hkept hd dir m hin hm
    have hkeeps : cfg.backend.KeepsBundle s.disk.tree (s.clearing cfg path).disk.tree dir m :=
      ⟨(hkept dir hin).1.trans hm, (hkept dir hin).2 m hm⟩
    exact (hwithout.keeps_iff hm).mp hkeeps loc ⟨rfl, hd⟩
  · intro hclear dir hin
    cases hm : cfg.backend.metaAt s.disk.tree dir with
    | some m =>
      obtain ⟨hmeta, hfiles⟩ := (hwithout.keeps_iff hm).mpr fun d hd =>
        hd.1 ▸ hclear hd.2 dir m hin hm
      refine ⟨hmeta, ?_⟩
      rintro _ ⟨⟩
      exact hfiles
    | none =>
      refine ⟨?_, by rintro _ ⟨⟩⟩
      rcases hwithout.2 (dir ++ [bundleManifest]) with ⟨-, hnone⟩ | ⟨-, hsame⟩
      · rw [Backend.metaAt, hnone]
        rfl
      · rw [Backend.metaAt, hsame]
        exact hm

/-- What a delivery does to one target. -/
def deliver (cfg : Config) (path : String) (parts : List FilePart) (sender : Option String) :
    Handler BundleMeta := do
  deleteQuiet path
  let bundleId ← newId
  writeBundle cfg path parts sender "application/octet-stream" bundleId

/-- A delivery whose delete fails ends there. -/
theorem runE_deliver_fails {e : Errno} {left : Disk → Disk}
    (hf : faults.fault (.deleteBundle path) = some (e, left)) (s : Server) :
    runE (execFaulty cfg env faults) (deliver cfg path parts sender) s =
      (.error (.storage (.osError e)), s.setDisk (left s.disk)) := by
  rw [deliver, runE_bind, runE_faulty_deleteQuiet_fails hf]

/-- If not, it goes on to the write. -/
theorem runE_deliver (hspell : cfg.backend.resolve path = spell loc) (hne : loc ≠ [])
    (hf : faults.fault (.deleteBundle path) = none) (s : Server) :
    runE (execFaulty cfg env faults) (deliver cfg path parts sender) s =
      runE (execFaulty cfg env faults)
        (writeBundle cfg path parts sender "application/octet-stream" s.nextId)
        (s.clearing cfg path) := by
  have hid : ∀ s₁ : Server, runE (execFaulty cfg env faults) newId s₁ =
      (.ok s₁.nextId, { s₁ with nextId := s₁.nextId + 1 }) := fun _ => rfl
  rw [deliver, runE_bind_ok (runE_faulty_deleteQuiet hspell hne hf s), runE_bind_ok (hid _)]
  rfl

variable (env faults parts sender) in
/-- What a delivery has done at its end, when its delete does not fail. -/
theorem delivered_spec (hspell : cfg.backend.resolve path = spell loc) (s : Server) :
    match runE (execFaulty cfg env faults)
      (writeBundle cfg path parts sender "application/octet-stream" s.nextId)
      (s.clearing cfg path) with
    | (.ok m, s') => GoesThrough cfg faults path parts sender "application/octet-stream" s.nextId
          (s.clearing cfg path) ∧
        m.bundleId = s.nextId ∧ cfg.backend.metaAt s'.disk.tree loc = some m ∧
        ∀ q, ¬Written loc parts q →
          s'.disk.tree.fileAt q = (s.clearing cfg path).disk.tree.fileAt q
    | (.error _, s') => ¬GoesThrough cfg faults path parts sender "application/octet-stream"
          s.nextId (s.clearing cfg path) ∧
        ∀ q, (Leads loc parts q → StrictlyInside loc q) →
          s'.disk.tree.fileAt q = (s.clearing cfg path).disk.tree.fileAt q := by
  have hnone : ∀ q, StrictlyInside loc q → (s.clearing cfg path).disk.tree.fileAt q = none :=
    fun q hq => Backend.deleteBundle_inside hspell hq
  have hwrite := wpE_faulty_writeBundle env faults parts sender "application/octet-stream" s.nextId
    hspell hnone
  have hgoes := returns_faulty_writeBundle env faults path parts sender
    "application/octet-stream" s.nextId (s.clearing cfg path)
  rw [returns_iff_run] at hgoes
  rcases hrun : runE (execFaulty cfg env faults)
    (writeBundle cfg path parts sender "application/octet-stream" s.nextId)
    (s.clearing cfg path) with ⟨e | m, s'⟩
  · refine ⟨fun hthrough => ?_, wpE_error hwrite hrun⟩
    obtain ⟨a, s₂, hok, -⟩ := hgoes.mpr hthrough
    rw [hrun] at hok
    cases hok
  · obtain ⟨hid, hm, hsame⟩ := wpE_ok hwrite hrun
    exact ⟨hgoes.mp ⟨m, s', hrun, trivial⟩, hid, hm,
      fun q hq => hsame q (fun h => hq (.inl h)) fun h => hq (.inr h)⟩

variable (env) in
/-- A delivery that spares an inbox keeps it, whether it goes through or not. -/
theorem deliver_keeps (hspell : cfg.backend.resolve path = spell loc) (hne : loc ≠ [])
    (h : SparesInbox cfg faults parts sender label s path) :
    cfg.backend.InboxKept label s.disk.tree
      (runE (execFaulty cfg env faults) (deliver cfg path parts sender) s).2.disk.tree := by
  have hloc : cfg.backend.location path = loc := by rw [Backend.location, hspell, normalize_spell]
  cases hf : faults.fault (.deleteBundle path) with
  | some fault =>
    rw [SparesInbox, hf] at h
    rw [runE_deliver_fails hf]
    exact h
  | none =>
    rw [SparesInbox, hf, hloc] at h
    obtain ⟨hclear, hplaces⟩ := h
    have hdelete := (inboxKept_delete_iff label hspell).mpr hclear
    rw [runE_deliver hspell hne hf]
    have hspec := delivered_spec env faults parts sender hspell s
    refine hdelete.trans (.of_places fun q hq => ?_)
    have hheld := hdelete.holds_iff.mp hq
    rcases hrun : runE (execFaulty cfg env faults)
      (writeBundle cfg path parts sender "application/octet-stream" s.nextId)
      (s.clearing cfg path) with ⟨e | m, s'⟩
    · rw [hrun] at hspec
      exact hspec.2 q fun hlead => (hplaces q (.inr hlead) hheld).1
    · rw [hrun] at hspec
      exact hspec.2.2.2 q fun hwritten => (hplaces q hwritten hheld).2 hspec.1

end Delivery

/-! ## All deliveries -/

section Loops

variable {label path : String} {parts : List FilePart} {sender : Option String}
  {identity : Identity}

/-- A call that is no delete. -/
def Call.NoDelete (c : Call) : Prop := ∀ path, c ≠ .deleteBundle path

variable (faults parts sender label) in
private theorem sparing_of_noDelete (s : Server) (c : Call) (hc : c.NoDelete) :
    Sparing cfg faults parts sender label s c := by
  cases c with
  | deleteBundle path => exact absurd rfl (hc path)
  | _ => trivial

private theorem noDelete_writeBundle (bundleId : Id) :
    OnlyE Call.NoDelete
      (writeBundle cfg path parts sender "application/octet-stream" bundleId) := by
  have hask : ∀ {c : Call}, c.NoDelete → OnlyE Call.NoDelete (ask c) := onlyE_performE
  have hraise : ∀ {α : Type} (r : Except StorageError α), OnlyE Call.NoDelete (orRaise r) := by
    intro α r
    cases r <;> trivial
  have hfiles : ∀ handle files, OnlyE Call.NoDelete (writeFiles cfg handle files) := by
    intro handle files
    induction files with
    | nil => trivial
    | cons f rest ih =>
      refine OnlyE.bind (OnlyE.bind (hask nofun) fun _ => hraise _) fun _ => ?_
      exact OnlyE.bind ih fun _ => trivial
  refine OnlyE.bind (hask nofun) fun r => OnlyE.bind (hraise _) fun handle => ?_
  refine OnlyE.tryCatch ?_ fun _ => OnlyE.bind (hask nofun) fun _ => trivial
  refine OnlyE.bind (hfiles _ _) fun records => OnlyE.bind (hask nofun) fun createdAt => ?_
  exact OnlyE.bind (OnlyE.bind (hask nofun) fun _ => hraise _) fun _ => trivial

/-- What a guard on the deletes asks of a delivery, it asks at its start. -/
theorem wpE_deliver_iff {guard : Server → Call → Prop} (hguard : ∀ s c, c.NoDelete → guard s c)
    {Q : BundleMeta → Server → Prop} {E : Exc → Server → Prop} :
    wpE (execFaulty cfg env faults) guard (deliver cfg path parts sender) Q E s ↔
      guard s (.deleteBundle path) ∧
        match runE (execFaulty cfg env faults) (deliver cfg path parts sender) s with
        | (.ok m, s') => Q m s'
        | (.error e, s') => E e s' := by
  have hrest : ∀ s, wpE (execFaulty cfg env faults) guard (do
      let bundleId ← newId
      writeBundle cfg path parts sender "application/octet-stream" bundleId)
      (fun _ _ => True) (fun _ _ => True) s := by
    intro s
    have hwrite : wpE (execFaulty cfg env faults) guard
        (writeBundle cfg path parts sender "application/octet-stream" s.nextId)
        (fun _ _ => True) (fun _ _ => True) { s with nextId := s.nextId + 1 } :=
      wpE_guard_mono hguard ((noDelete_writeBundle s.nextId).wpE _)
    exact (wpE_bind _ _ _).mpr ⟨hguard _ _ nofun, hwrite⟩
  have hstart : wpE (execFaulty cfg env faults) guard (deliver cfg path parts sender)
      (fun _ _ => True) (fun _ _ => True) s ↔ guard s (.deleteBundle path) := by
    refine (wpE_bind _ _ _).trans ⟨fun h => ((wpE_bind _ _ _).mp h).1, fun h => ?_⟩
    refine (wpE_bind _ _ _).mpr ⟨h, ?_⟩
    generalize (execFaulty cfg env faults (.deleteBundle path) s).1 = a
    change Except StorageError Unit at a
    rcases a with (_ | _ | _ | _) | _ <;> first | exact hrest _ | trivial
  rw [wpE_iff_run, hstart]
  rcases runE (execFaulty cfg env faults) (deliver cfg path parts sender) s with ⟨e | m, s'⟩ <;> rfl

/-- The deliveries to several targets, one after the other. -/
theorem wpE_deliverTo_cons {guard : Server → Call → Prop} (target : String) (rest : List String)
    {Q : Unit → Server → Prop} {E : Exc → Server → Prop} :
    wpE (execFaulty cfg env faults) guard (deliverTo cfg path parts sender (target :: rest)) Q E s ↔
      wpE (execFaulty cfg env faults) guard
        (deliver cfg (broadcastPath target path) parts sender)
        (fun _ s' => wpE (execFaulty cfg env faults) guard
          (deliverTo cfg path parts sender rest) Q E s') E s := by
  simp only [deliverTo, deliver, wpE_bind]

private theorem runE_deliverTo_cons (target : String) (rest : List String) (s : Server) :
    runE (execFaulty cfg env faults) (deliverTo cfg path parts sender (target :: rest)) s =
      runE (execFaulty cfg env faults) (do
        let _ ← deliver cfg (broadcastPath target path) parts sender
        deliverTo cfg path parts sender rest) s :=
  runE_congr fun _ _ => (wpE_deliverTo_cons target rest).trans (wpE_bind _ _ _).symm

/-- Where the bundle of a broadcast lies below one target. -/
abbrev Backend.deliveryLoc (b : Backend) (path target : String) : List String :=
  b.location (broadcastPath target path)

/-- A target is a storage key prefix: relative, not empty, and without `..`. -/
def KeyPrefix (target : String) : Prop := Downward (rstripSlash target)

variable (cfg) in
private theorem resolve_broadcastPath {target : String} (ht : KeyPrefix target)
    (hp : Downward path) :
    cfg.backend.resolve (broadcastPath target path) =
        spell (cfg.backend.deliveryLoc path target) ∧
      cfg.backend.deliveryLoc path target ≠ [] := by
  have hrel : isAbsolute (broadcastPath target path) = false := by
    have hne := ht.ne_empty
    have hrel := ht.relative
    rw [isAbsolute, startsWith] at hrel ⊢
    rw [broadcastPath, String.toList_append, String.toList_append]
    cases hl : (rstripSlash target).toList with
    | nil => exact absurd (String.toList_injective (hl.trans String.toList_empty.symm)) hne
    | cons c w =>
      rw [hl] at hrel
      simpa [List.isPrefixOf] using hrel
  have hresolve : cfg.backend.resolve (broadcastPath target path) =
      spell (cfg.backend.dataLoc ++ below (rstripSlash target) ++ below path) := by
    rw [Backend.resolve, joinPath, hrel, broadcastPath, steps_append_slash, ht.spelled, hp.spelled,
      spell_append, spell_append, ← cfg.backend.dataRoot_eq]
    simp
  have hloc : cfg.backend.deliveryLoc path target =
      cfg.backend.dataLoc ++ below (rstripSlash target) ++ below path := by
    rw [Backend.deliveryLoc, Backend.location, hresolve, normalize_spell]
  refine ⟨by rw [hresolve, hloc], ?_⟩
  rw [hloc]
  simp [Backend.dataLoc]

/-- Deliveries that all spare an inbox keep it. -/
theorem deliverTo_keeps {targets : List String} (hkeys : ∀ target ∈ targets, KeyPrefix target)
    (hp : Downward path)
    (h : wpE (execFaulty cfg env faults) (Sparing cfg faults parts sender label)
      (deliverTo cfg path parts sender targets) (fun _ _ => True) (fun _ _ => True) s) :
    cfg.backend.InboxKept label s.disk.tree (runE (execFaulty cfg env faults)
      (deliverTo cfg path parts sender targets) s).2.disk.tree := by
  induction targets generalizing s with
  | nil => exact .refl _
  | cons target rest ih =>
    obtain ⟨hspell, hne⟩ := resolve_broadcastPath cfg (hkeys target (by simp)) hp
    rw [wpE_deliverTo_cons, wpE_deliver_iff (sparing_of_noDelete faults label parts sender)] at h
    obtain ⟨hspares, hrest⟩ := h
    have hstep := deliver_keeps env hspell hne hspares
    rw [runE_deliverTo_cons, runE_bind]
    rcases hrun : runE (execFaulty cfg env faults)
      (deliver cfg (broadcastPath target path) parts sender) s with ⟨e | m, s'⟩
    · rw [hrun] at hstep
      exact hstep
    · rw [hrun] at hstep hrest
      exact hstep.trans (ih (fun t ht => hkeys t (by simp [ht])) hrest)

/-- The targets that are written to for a label. -/
def attempted (env : Environment) (identity : Identity) (sender : Option String)
    (keys : List KeyInfo) (label : String) : List String :=
  match env.resolve keys label sender with
  | .ok (some resolved) =>
    if env.check identity (.inbox label) .write = .ok true then resolved.inboxTargets else []
  | _ => []

/-- One round of the loop over the labels. -/
def noteLabel (cfg : Config) (identity : Identity) (path : String) (parts : List FilePart)
    (sender : Option String) (report : BroadcastReport) (label : String) :
    Handler BroadcastReport := do
  match ← resolveAlias label sender with
  | .error () => return { report with
      failed := report.failed ++ [(label, ⟨"resolver_error: ", some .collaborator⟩)] }
  | .ok none => return { report with
      failed := report.failed ++ [(label, ⟨"resolver_unknown", none⟩)] }
  | .ok (some resolved) => do
    match ← check identity (.inbox label) .write with
    | .error () => return { report with denied := report.denied ++ [(label, "check_error")] }
    | .ok false => return { report with denied := report.denied ++ [(label, "access_denied")] }
    | .ok true => do
      let raised ← tryCatch (do
        deliverTo cfg path parts sender resolved.inboxTargets
        return none) fun e => return some e
      return raised.elim { report with delivered := report.delivered ++ [label] } fun e =>
        { report with failed := report.failed ++ [(label, ⟨"write_error: ", some e⟩)] }

variable (cfg env faults path parts sender identity) in
/-- A round comes down to the deliveries to the targets of its label. -/
theorem noteLabel_delivers {guard : Server → Call → Prop} (hguard : ∀ s c, c.NoDelete → guard s c)
    (report : BroadcastReport) (label : String) (s : Server) :
    ∃ report' s₁, s₁.disk = s.disk ∧ s₁.nextId = s.nextId ∧
      runE (execFaulty cfg env faults) (noteLabel cfg identity path parts sender report label) s =
        (.ok report', (runE (execFaulty cfg env faults)
          (deliverTo cfg path parts sender (attempted env identity sender s.keys label)) s₁).2) ∧
      (wpE (execFaulty cfg env faults) guard
          (noteLabel cfg identity path parts sender report label)
          (fun _ _ => True) (fun _ _ => True) s ↔
        wpE (execFaulty cfg env faults) guard
          (deliverTo cfg path parts sender (attempted env identity sender s.keys label))
          (fun _ _ => True) (fun _ _ => True) s₁) := by
  have hresolve : runE (execFaulty cfg env faults) (resolveAlias label sender) s =
      (.ok (env.resolve s.keys label sender), s) := rfl
  have hresolve' : ∀ Q : Except Unit (Option ResolvedRecipient) → Server → Prop,
      wpE (execFaulty cfg env faults) guard (resolveAlias label sender) Q (fun _ _ => True) s ↔
        Q (env.resolve s.keys label sender) s := fun _ => and_iff_right (hguard _ _ nofun)
  have hcheck : runE (execFaulty cfg env faults) (check identity (.inbox label) .write) s =
      (.ok (env.check identity (.inbox label) .write),
        { s with asked := .inbox label :: s.asked }) := rfl
  have hcheck' : ∀ Q : Except Unit Bool → Server → Prop,
      wpE (execFaulty cfg env faults) guard (check identity (.inbox label) .write) Q
        (fun _ _ => True) s ↔ Q (env.check identity (.inbox label) .write)
          { s with asked := .inbox label :: s.asked } := fun _ => and_iff_right (hguard _ _ nofun)
  unfold noteLabel attempted
  rw [wpE_bind, hresolve', runE_bind_ok hresolve]
  rcases env.resolve s.keys label sender with u | (_ | resolved)
  · exact ⟨_, s, rfl, rfl, rfl, Iff.rfl⟩
  · exact ⟨_, s, rfl, rfl, rfl, Iff.rfl⟩
  · dsimp only
    rw [wpE_bind, hcheck', runE_bind_ok hcheck]
    rcases env.check identity (.inbox label) .write with u | (_ | _)
    · exact ⟨_, { s with asked := .inbox label :: s.asked }, rfl, rfl, rfl, Iff.rfl⟩
    · exact ⟨_, { s with asked := .inbox label :: s.asked }, rfl, rfl, rfl, Iff.rfl⟩
    · dsimp only
      rw [if_pos rfl, wpE_bind, wpE_tryCatch, wpE_bind, wpE_iff_run, runE_bind, runE_tryCatch,
        runE_bind]
      rcases hrun : runE (execFaulty cfg env faults)
        (deliverTo cfg path parts sender resolved.inboxTargets)
        { s with asked := .inbox label :: s.asked } with ⟨e | u, s₂⟩
      · exact ⟨_, { s with asked := .inbox label :: s.asked }, rfl, rfl, by rw [hrun]; rfl,
          and_iff_left trivial⟩
      · exact ⟨_, { s with asked := .inbox label :: s.asked }, rfl, rfl, by rw [hrun]; rfl,
          and_iff_left trivial⟩

private theorem wpE_broadcastTo_cons {guard : Server → Call → Prop} (report : BroadcastReport)
    (label : String) (rest : List String) {Q : BroadcastReport → Server → Prop}
    {E : Exc → Server → Prop} :
    wpE (execFaulty cfg env faults) guard
        (broadcastTo cfg identity path parts sender report (label :: rest)) Q E s ↔
      wpE (execFaulty cfg env faults) guard
        (noteLabel cfg identity path parts sender report label)
        (fun report' s' => wpE (execFaulty cfg env faults) guard
          (broadcastTo cfg identity path parts sender report' rest) Q E s') E s := by
  simp only [broadcastTo, noteLabel, wpE_bind]
  refine iff_of_eq (congrArg (wpE _ _ _ · _ _) (funext fun r => funext fun s' => ?_))
  rcases r with u | (_ | resolved)
  · rfl
  · rfl
  · simp only [wpE_bind]
    refine congrArg (wpE _ _ _ · _ _) (funext fun r => funext fun s₂ => ?_)
    rcases r with u | (_ | _)
    · rfl
    · rfl
    · simp only [wpE_bind, wpE_pure]

private theorem runE_broadcastTo_cons (report : BroadcastReport) (label : String)
    (rest : List String)
    (s : Server) :
    runE (execFaulty cfg env faults)
        (broadcastTo cfg identity path parts sender report (label :: rest)) s =
      runE (execFaulty cfg env faults) (do
        let report' ← noteLabel cfg identity path parts sender report label
        broadcastTo cfg identity path parts sender report' rest) s :=
  runE_congr fun _ _ => (wpE_broadcastTo_cons report label rest).trans (wpE_bind _ _ _).symm

private theorem execFaulty_steady (c : Call) (s : Server) :
    (execFaulty cfg env faults c s).2.keys = s.keys ∧
      s.nextId ≤ (execFaulty cfg env faults c s).2.nextId := by
  unfold execFaulty
  split
  · exact ⟨rfl, le_rfl⟩
  · refine ⟨?_, exec_nextId_le c s⟩
    cases c <;> rfl

variable (env faults) in
/-- A run keeps the keys and uses up ids. -/
theorem runE_steady {α : Type} (x : Handler α) (s : Server) :
    (runE (execFaulty cfg env faults) x s).2.keys = s.keys ∧
      s.nextId ≤ (runE (execFaulty cfg env faults) x s).2.nextId :=
  runE_invariant (I := fun s' => s'.keys = s.keys ∧ s.nextId ≤ s'.nextId)
    (fun s₁ c h _ => ⟨(execFaulty_steady c s₁).1.trans h.1, h.2.trans (execFaulty_steady c s₁).2⟩)
    (wpE_trivial x) ⟨rfl, le_rfl⟩

/-- The targets that the resolver answers with are storage key prefixes. -/
def PrefixTargets (env : Environment) (identity : Identity) (sender : Option String)
    (keys : List KeyInfo) : Prop :=
  ∀ name, ∀ target ∈ attempted env identity sender keys name, KeyPrefix target

/-- A loop all of whose deliveries spare an inbox keeps it. -/
theorem broadcastTo_keeps (hkeys : PrefixTargets env identity sender s.keys) (hp : Downward path)
    (report : BroadcastReport) (labels : List String)
    (h : wpE (execFaulty cfg env faults) (Sparing cfg faults parts sender label)
      (broadcastTo cfg identity path parts sender report labels) (fun _ _ => True)
      (fun _ _ => True) s) :
    cfg.backend.InboxKept label s.disk.tree (runE (execFaulty cfg env faults)
      (broadcastTo cfg identity path parts sender report labels) s).2.disk.tree := by
  induction labels generalizing report s with
  | nil => exact .refl _
  | cons name rest ih =>
    obtain ⟨report', s₁, hdisk, -, hrun, hguard⟩ := noteLabel_delivers cfg env faults path parts
      sender identity (sparing_of_noDelete faults label parts sender) report name s
    rw [wpE_broadcastTo_cons, wpE_iff_run, hguard, hrun] at h
    have hkeep := (runE_steady env faults
      (noteLabel cfg identity path parts sender report name) s).1
    rw [hrun] at hkeep
    rw [runE_broadcastTo_cons, runE_bind, hrun, ← hdisk]
    exact (deliverTo_keeps (hkeys name) hp h.1).trans (ih (hkeep.symm ▸ hkeys) report' h.2)

end Loops

/-! ## Only those that spare it -/

section Needed

variable {label path : String} {parts : List FilePart} {sender : Option String}
  {identity : Identity} {loc : List String} {last : DataTree} {n : Id}

/-- The names of a payload lead below the directory they are written to. -/
def Contained (parts : List FilePart) : Prop :=
  ∀ f ∈ parts, ∀ loc, StrictlyInside loc (fileLoc loc f.name)

/-- The bundles of an inbox have their files in their own directories, and ids below the next. -/
structure Backend.WellKept (b : Backend) (label : String) (t : DataTree) (n : Id) : Prop where
  inside : ∀ loc, StrictlyInside (b.location (inboxPath label "")) loc → ∀ m,
    b.metaAt t loc = some m → ∀ f ∈ m.files, loc <+: fileLoc loc f.name
  fresh : ∀ loc, StrictlyInside (b.location (inboxPath label "")) loc → ∀ m,
    b.metaAt t loc = some m → m.bundleId < n

/-- What is well kept is so in a tree with the same inbox. -/
theorem Backend.WellKept.congr {b : Backend} {t t' : DataTree} (h : b.WellKept label t n)
    (hkept : b.InboxKept label t t') : b.WellKept label t' n := by
  refine ⟨fun loc hloc m hm => ?_, fun loc hloc m hm => ?_⟩
  · exact h.inside loc hloc m ((hkept loc hloc).1.symm.trans hm)
  · exact h.fresh loc hloc m ((hkept loc hloc).1.symm.trans hm)

/-- What counts for the inbox lies in it. -/
theorem Backend.WellKept.holds_inside {b : Backend} {t : DataTree} (h : b.WellKept label t n)
    {q : List String} (hq : b.Holds label t q) : b.location (inboxPath label "") <+: q := by
  obtain ⟨dir, hdir, rfl | ⟨m, hm, f, hf, rfl⟩⟩ := hq
  · exact hdir.1.trans (List.prefix_append _ _)
  · exact hdir.1.trans (h.inside dir hdir m hm f hf)

/-- A tree that has, place by place, what the first or the last of two trees has that agree on
an inbox agrees with them. -/
theorem Backend.InboxKept.between {b : Backend} {t t₁ t₂ : DataTree}
    (h : b.InboxKept label t t₂)
    (hq : ∀ q, b.Holds label t q → t₁.fileAt q = t.fileAt q ∨ t₁.fileAt q = t₂.fileAt q) :
    b.InboxKept label t t₁ := by
  intro dir hdir
  obtain ⟨hm, hfiles⟩ := h dir hdir
  refine ⟨?_, fun m hsome f hf => ?_⟩
  · rcases hq _ ⟨dir, hdir, .inl rfl⟩ with heq | heq
    · rw [metaAt, metaAt, heq]
    · rw [← hm, metaAt, metaAt, heq]
  · rcases hq _ ⟨dir, hdir, .inr ⟨m, hsome, f, hf, rfl⟩⟩ with heq | heq
    · exact heq
    · exact heq.trans (hfiles m hsome f hf)

variable (env) in
/-- A delivery whose end is still to be seen at its path, in an inbox that is kept in the end,
has spared the inbox. -/
theorem deliver_spares (hspell : cfg.backend.resolve path = spell loc) (hne : loc ≠ [])
    (hnames : Contained parts) (houtside : ¬loc <+: cfg.backend.location (inboxPath label ""))
    (hkept : cfg.backend.InboxKept label s.disk.tree last)
    (hwell : cfg.backend.WellKept label s.disk.tree s.nextId)
    (hseen : ∀ q, loc <+: q → last.fileAt q = (runE (execFaulty cfg env faults)
      (deliver cfg path parts sender) s).2.disk.tree.fileAt q) :
    SparesInbox cfg faults parts sender label s path := by
  have hloc : cfg.backend.location path = loc := by rw [Backend.location, hspell, normalize_spell]
  cases hf : faults.fault (.deleteBundle path) with
  | some fault =>
    rw [SparesInbox, hf]
    rw [runE_deliver_fails hf] at hseen
    refine hkept.between fun q _ => ?_
    rcases (faults.halfDone hf s.disk).files q with hsame | ⟨-, hp⟩
    · exact .inl hsame
    · exact .inr (hseen q (hloc ▸ hp)).symm
  | none =>
    rw [SparesInbox, hf, hloc, ← inboxKept_delete_iff label hspell]
    rw [runE_deliver hspell hne hf] at hseen
    have hspec := delivered_spec env faults parts sender hspell s
    have hdelete : ∀ q, ¬loc <+: q →
        (s.clearing cfg path).disk.tree.fileAt q = s.disk.tree.fileAt q := by
      intro q hq
      rw [Server.clearing, Backend.deleteBundle_fileAt, hloc, if_neg fun h => hq h.2]
    have hdown : ∀ q, Written loc parts q → StrictlyInside loc q := by
      rintro q (rfl | ⟨f, hf, rfl⟩)
      · exact strictlyInside_concat _ _
      · exact hnames f hf loc
    rcases hrun : runE (execFaulty cfg env faults)
      (writeBundle cfg path parts sender "application/octet-stream" s.nextId)
      (s.clearing cfg path) with ⟨e | m, s'⟩
    · rw [hrun] at hspec hseen
      refine ⟨hkept.between fun q _ => ?_, fun q hq _ => ⟨hdown q hq, hspec.1⟩⟩
      by_cases hp : loc <+: q
      · exact .inr ((hseen q hp).trans (hspec.2 q fun h => hdown q (.inr h))).symm
      · exact .inl (hdelete q hp)
    · rw [hrun] at hspec hseen
      have hapart : ¬StrictlyInside (cfg.backend.location (inboxPath label "")) loc := by
        intro hin
        have hnew : cfg.backend.metaAt last loc = some m := by
          rw [Backend.metaAt, hseen _ (List.prefix_append _ _)]
          exact hspec.2.2.1
        have hlt := hwell.fresh loc hin m ((hkept loc hin).1.symm.trans hnew)
        rw [hspec.2.1] at hlt
        exact lt_irrefl _ hlt
      have hnot : ∀ q, cfg.backend.Holds label s.disk.tree q → ¬loc <+: q := by
        intro q hq hp
        rcases comparable_of_below (hwell.holds_inside hq) hp with h | h
        · exact hapart ⟨h, fun he => houtside (he ▸ List.prefix_refl _)⟩
        · exact houtside h
      refine ⟨hkept.between fun q hq => .inl (hdelete q (hnot q hq)), fun q hq hheld => ?_⟩
      exact absurd (hdown q hq).1 (hnot q hheld)

variable (env faults sender) in
/-- A delivery changes no file outside of its directory. -/
theorem deliver_outside (s : Server) (hspell : cfg.backend.resolve path = spell loc)
    (hne : loc ≠ []) (hnames : Contained parts) {q : List String} (hq : ¬loc <+: q) :
    (runE (execFaulty cfg env faults) (deliver cfg path parts sender) s).2.disk.tree.fileAt q =
      s.disk.tree.fileAt q := by
  have hloc : cfg.backend.location path = loc := by rw [Backend.location, hspell, normalize_spell]
  cases hf : faults.fault (.deleteBundle path) with
  | some fault =>
    rw [runE_deliver_fails hf]
    exact ((faults.halfDone hf s.disk).files q).resolve_right fun h => hq (hloc ▸ h.2)
  | none =>
    have hdelete : (s.clearing cfg path).disk.tree.fileAt q = s.disk.tree.fileAt q := by
      rw [Server.clearing, Backend.deleteBundle_fileAt, hloc, if_neg fun h => hq h.2]
    have hlead : ¬Leads loc parts q := by
      rintro ⟨f, hf, rfl⟩
      exact hq (hnames f hf loc).1
    have hspec := delivered_spec env faults parts sender hspell s
    rw [runE_deliver hspell hne hf]
    rcases hrun : runE (execFaulty cfg env faults)
      (writeBundle cfg path parts sender "application/octet-stream" s.nextId)
      (s.clearing cfg path) with ⟨e | m, s'⟩
    · rw [hrun] at hspec
      exact (hspec.2 q fun h => absurd h hlead).trans hdelete
    · rw [hrun] at hspec
      refine (hspec.2.2.2 q ?_).trans hdelete
      rintro (rfl | h)
      · exact hq (List.prefix_append _ _)
      · exact hlead h

variable (env faults sender) in
private theorem deliverTo_outside (s : Server) {targets : List String}
    (hkeys : ∀ target ∈ targets, KeyPrefix target) (hp : Downward path) (hnames : Contained parts)
    {q : List String}
    (hq : ∀ target ∈ targets, ¬cfg.backend.deliveryLoc path target <+: q) :
    (runE (execFaulty cfg env faults)
      (deliverTo cfg path parts sender targets) s).2.disk.tree.fileAt q =
        s.disk.tree.fileAt q := by
  induction targets generalizing s with
  | nil => rfl
  | cons target rest ih =>
    obtain ⟨hspell, hne⟩ := resolve_broadcastPath cfg (hkeys target (by simp)) hp
    have hstep := deliver_outside env faults sender s hspell hne hnames (hq target (by simp))
    rw [runE_deliverTo_cons, runE_bind]
    rcases hrun : runE (execFaulty cfg env faults)
      (deliver cfg (broadcastPath target path) parts sender) s with ⟨e | m, s'⟩
    · rw [hrun] at hstep
      exact hstep
    · rw [hrun] at hstep
      exact (ih s' (fun t ht => hkeys t (by simp [ht])) fun t ht => hq t (by simp [ht])).trans hstep

/-- Deliveries to places apart from each other, in an inbox that is kept in the end, have all
spared the inbox. -/
theorem deliverTo_spares {targets : List String} (hkeys : ∀ target ∈ targets, KeyPrefix target)
    (hp : Downward path) (hnames : Contained parts)
    (houtside : ∀ target ∈ targets,
      ¬cfg.backend.deliveryLoc path target <+: cfg.backend.location (inboxPath label ""))
    (hapart : (targets.map (cfg.backend.deliveryLoc path)).Pairwise fun a c => ¬Comparable a c)
    (hkept : cfg.backend.InboxKept label s.disk.tree last)
    (hwell : cfg.backend.WellKept label last n) (hn : n ≤ s.nextId)
    (hseen : ∀ target ∈ targets, ∀ q, cfg.backend.deliveryLoc path target <+: q →
      last.fileAt q = (runE (execFaulty cfg env faults)
        (deliverTo cfg path parts sender targets) s).2.disk.tree.fileAt q) :
    wpE (execFaulty cfg env faults) (Sparing cfg faults parts sender label)
      (deliverTo cfg path parts sender targets) (fun _ _ => True) (fun _ _ => True) s := by
  induction targets generalizing s with
  | nil => trivial
  | cons target rest ih =>
    obtain ⟨hspell, hne⟩ := resolve_broadcastPath cfg (hkeys target (by simp)) hp
    rw [List.map_cons, List.pairwise_cons] at hapart
    rw [wpE_deliverTo_cons, wpE_deliver_iff (sparing_of_noDelete faults label parts sender)]
    have hwell' : cfg.backend.WellKept label s.disk.tree s.nextId := by
      have hsame := hwell.congr hkept.symm
      exact ⟨hsame.inside, fun dir hdir m hm => (hsame.fresh dir hdir m hm).trans_le hn⟩
    have hspares : SparesInbox cfg faults parts sender label s (broadcastPath target path) := by
      refine deliver_spares env hspell hne hnames (houtside target (by simp)) hkept hwell'
        fun q hq => (hseen target (by simp) q hq).trans ?_
      rw [runE_deliverTo_cons, runE_bind]
      rcases runE (execFaulty cfg env faults)
        (deliver cfg (broadcastPath target path) parts sender) s with ⟨e | m, s'⟩
      · rfl
      · refine deliverTo_outside env faults sender _ (fun t ht => hkeys t (by simp [ht])) hp hnames
          fun t ht hq' => ?_
        exact hapart.1 _ (List.mem_map_of_mem ht) (comparable_of_below hq hq')
    refine ⟨hspares, ?_⟩
    have hstep := deliver_keeps env hspell hne hspares
    have hlater := (runE_steady env faults
      (deliver cfg (broadcastPath target path) parts sender) s).2
    rw [runE_deliverTo_cons, runE_bind] at hseen
    rcases hrun : runE (execFaulty cfg env faults)
      (deliver cfg (broadcastPath target path) parts sender) s with ⟨e | m, s'⟩
    · trivial
    · rw [hrun] at hstep hlater hseen
      exact ih (fun t ht => hkeys t (by simp [ht])) (fun t ht => houtside t (by simp [ht]))
        hapart.2 (hstep.symm.trans hkept) (hn.trans hlater)
        fun t ht q hq => hseen t (by simp [ht]) q hq

private theorem broadcastTo_outside (hkeys : PrefixTargets env identity sender s.keys)
    (hp : Downward path)
    (hnames : Contained parts) (report : BroadcastReport) (labels : List String)
    {q : List String} (hq : ∀ name ∈ labels, ∀ target ∈ attempted env identity sender s.keys name,
      ¬cfg.backend.deliveryLoc path target <+: q) :
    (runE (execFaulty cfg env faults)
      (broadcastTo cfg identity path parts sender report labels) s).2.disk.tree.fileAt q =
        s.disk.tree.fileAt q := by
  induction labels generalizing report s with
  | nil => rfl
  | cons name rest ih =>
    obtain ⟨report', s₁, hdisk, -, hrun, -⟩ := noteLabel_delivers cfg env faults path parts sender
      identity (sparing_of_noDelete faults "" parts sender) report name s
    have hstep := deliverTo_outside env faults sender s₁ (hkeys name) hp hnames
      fun t ht => hq name (by simp) t ht
    have hkeep := (runE_steady env faults
      (noteLabel cfg identity path parts sender report name) s).1
    rw [hrun] at hkeep
    rw [runE_broadcastTo_cons, runE_bind, hrun]
    refine (ih (hkeep.symm ▸ hkeys) report' fun name' hn t ht => hq name' (by simp [hn]) t ?_).trans
      (hstep.trans (by rw [hdisk]))
    rwa [hkeep] at ht

/-- A loop whose deliveries go to places apart from each other, in an inbox that is kept in the
end, has spared it each time. -/
theorem broadcastTo_spares (hkeys : PrefixTargets env identity sender s.keys) (hp : Downward path)
    (hnames : Contained parts) (report : BroadcastReport) (labels : List String)
    (houtside : ∀ name ∈ labels, ∀ target ∈ attempted env identity sender s.keys name,
      ¬cfg.backend.deliveryLoc path target <+: cfg.backend.location (inboxPath label ""))
    (hapart : ((labels.flatMap (attempted env identity sender s.keys)).map
      (cfg.backend.deliveryLoc path)).Pairwise fun a c => ¬Comparable a c)
    (hlast : last = (runE (execFaulty cfg env faults)
      (broadcastTo cfg identity path parts sender report labels) s).2.disk.tree)
    (hkept : cfg.backend.InboxKept label s.disk.tree last)
    (hwell : cfg.backend.WellKept label last n) (hn : n ≤ s.nextId) :
    wpE (execFaulty cfg env faults) (Sparing cfg faults parts sender label)
      (broadcastTo cfg identity path parts sender report labels) (fun _ _ => True)
      (fun _ _ => True) s := by
  induction labels generalizing report s with
  | nil => trivial
  | cons name rest ih =>
    obtain ⟨report', s₁, hdisk, hid, hrun, hguard⟩ := noteLabel_delivers cfg env faults path parts
      sender identity (sparing_of_noDelete faults label parts sender) report name s
    have hsteady := runE_steady env faults
      (noteLabel cfg identity path parts sender report name) s
    rw [hrun] at hsteady
    rw [List.flatMap_cons, List.map_append, List.pairwise_append] at hapart
    rw [runE_broadcastTo_cons, runE_bind, hrun] at hlast
    dsimp only at hlast hsteady
    have htargets : wpE (execFaulty cfg env faults) (Sparing cfg faults parts sender label)
        (deliverTo cfg path parts sender (attempted env identity sender s.keys name))
        (fun _ _ => True) (fun _ _ => True) s₁ := by
      refine deliverTo_spares (hkeys name) hp hnames
        (houtside name (by simp)) hapart.1 (hdisk ▸ hkept) hwell ?_ fun t ht q hq => ?_
      · rw [hid]
        exact hn
      · rw [hlast]
        refine broadcastTo_outside (hsteady.1.symm ▸ hkeys) hp hnames report' rest
          fun name' hn' t' ht' hq' => ?_
        rw [hsteady.1] at ht'
        exact hapart.2.2 _ (List.mem_map_of_mem ht) _
          (List.mem_map_of_mem (List.mem_flatMap.mpr ⟨name', hn', ht'⟩))
          (comparable_of_below hq hq')
    rw [wpE_broadcastTo_cons, wpE_iff_run, hguard, hrun]
    refine ⟨htargets, ih (hsteady.1.symm ▸ hkeys) report' ?_ ?_ hlast ?_ (hn.trans hsteady.2)⟩
    · intro name' hn' t ht
      rw [hsteady.1] at ht
      exact houtside name' (by simp [hn']) t ht
    · rw [hsteady.1]
      exact hapart.2.1
    · have hstep := deliverTo_keeps (hkeys name) hp htargets
      rw [hdisk] at hstep
      exact hstep.symm.trans hkept

end Needed

/-! ## Whole broadcasts -/

section Whole

variable {req : BroadcastRequest} {report : BroadcastReport} {s' : Server}
  {guard : Server → Call → Prop}

/-- The labels a broadcast comes to. -/
def BroadcastRequest.visible (env : Environment) (keys : List KeyInfo) (req : BroadcastRequest) :
    List String :=
  visibleOf (env.visibleAgents req.identity (candidateLabels keys req.sender))

/-- A fan-out that comes to its report is the loop over the visible labels. -/
theorem fanOut_broadcasts (hguard : ∀ s c, c.NoDelete → guard s c) {identity : Identity}
    {path : String} {parts : List FilePart} {sender : Option String}
    (hrun : runE (execFaulty cfg env faults) (fanOut cfg identity path parts sender) s =
      (.ok report, s')) :
    runE (execFaulty cfg env faults) (broadcastTo cfg identity path parts sender {}
        (visibleOf (env.visibleAgents identity (candidateLabels s.keys sender)))) s =
      (.ok report, s') ∧
    (wpE (execFaulty cfg env faults) guard (fanOut cfg identity path parts sender)
        (fun _ _ => True) (fun _ _ => True) s ↔
      wpE (execFaulty cfg env faults) guard (broadcastTo cfg identity path parts sender {}
        (visibleOf (env.visibleAgents identity (candidateLabels s.keys sender))))
        (fun _ _ => True) (fun _ _ => True) s) := by
  have hkeys : runE (execFaulty cfg env faults) listKeys s = (.ok s.keys, s) := rfl
  have hkeys' : ∀ Q : List KeyInfo → Server → Prop,
      wpE (execFaulty cfg env faults) guard listKeys Q (fun _ _ => True) s ↔ Q s.keys s :=
    fun _ => and_iff_right (hguard _ _ nofun)
  have hvisible : runE (execFaulty cfg env faults)
      (visibleAgents identity (candidateLabels s.keys sender)) s =
        (.ok (env.visibleAgents identity (candidateLabels s.keys sender)), s) := rfl
  have hvisible' : ∀ Q : Except Unit (List String) → Server → Prop,
      wpE (execFaulty cfg env faults) guard
          (visibleAgents identity (candidateLabels s.keys sender)) Q (fun _ _ => True) s ↔
        Q (env.visibleAgents identity (candidateLabels s.keys sender)) s :=
    fun _ => and_iff_right (hguard _ _ nofun)
  rw [fanOut_eq, runE_bind_ok hkeys] at hrun
  rw [fanOut_eq, wpE_bind, hkeys', wpE_bind]
  by_cases hcap : cfg.broadcastMaxTargets < (candidateLabels s.keys sender).length
  · rw [checkFanoutCap, if_pos hcap, runE_bind, runE_throw] at hrun
    cases hrun
  · rw [checkFanoutCap, if_neg hcap, runE_bind, runE_pure] at hrun
    rw [checkFanoutCap, if_neg hcap, wpE_pure, wpE_bind, hvisible']
    dsimp only at hrun
    rw [runE_bind_ok hvisible] at hrun
    generalize env.visibleAgents identity (candidateLabels s.keys sender) = answer at hrun ⊢
    rcases answer with u | visible
    · exact ⟨hrun, Iff.rfl⟩
    · exact ⟨hrun, Iff.rfl⟩

/-- What counts and then raises does not come to an answer. -/
theorem not_runE_count {α : Type} {m : Counter} {e : Exc} {a : α} :
    runE (execFaulty cfg env faults) (increment m >>= fun _ => throw e) s ≠ (.ok a, s') := by
  rw [runE_bind]
  split
  · nofun
  · nofun

/-- The count at the cap aside, so is the fan-out of an MCP broadcast. -/
theorem fanOutCounted_broadcasts (hguard : ∀ s c, c.NoDelete → guard s c) {identity : Identity}
    {path : String} {parts : List FilePart} {sender : Option String}
    (hrun : runE (execFaulty cfg env faults) (Mcp.fanOutCounted cfg identity path parts sender) s =
      (.ok report, s')) :
    runE (execFaulty cfg env faults) (broadcastTo cfg identity path parts sender {}
        (visibleOf (env.visibleAgents identity (candidateLabels s.keys sender)))) s =
      (.ok report, s') ∧
    (wpE (execFaulty cfg env faults) guard (Mcp.fanOutCounted cfg identity path parts sender)
        (fun _ _ => True) (fun _ _ => True) s ↔
      wpE (execFaulty cfg env faults) guard (broadcastTo cfg identity path parts sender {}
        (visibleOf (env.visibleAgents identity (candidateLabels s.keys sender))))
        (fun _ _ => True) (fun _ _ => True) s) := by
  rw [Mcp.fanOutCounted, runE_tryCatch] at hrun
  split at hrun
  · rename_i r s₁ hfan
    cases hrun
    obtain ⟨hloop, hspares⟩ := fanOut_broadcasts hguard hfan
    refine ⟨hloop, ?_⟩
    rw [Mcp.fanOutCounted, wpE_tryCatch, wpE_iff_run, hfan]
    exact (and_iff_left trivial).trans hspares
  · split at hrun
    · exact (not_runE_count hrun).elim
    · cases hrun

/-- So is an MCP broadcast that comes to its report. -/
theorem broadcastAdmitted_broadcasts (hguard : ∀ s c, c.NoDelete → guard s c)
    {caller : Mcp.Caller} {path content : String} {files : FilesArg} {admitted overHttp : Bool}
    (hrun : runE (execFaulty cfg env faults)
      (Mcp.broadcastAdmitted cfg caller path content files admitted) s = (.ok report, s')) :
    let req : BroadcastRequest := .mcp caller overHttp path content files
    Downward path ∧
    runE (execFaulty cfg env faults) (broadcastTo cfg req.identity path req.parts req.sender {}
        (req.visible env s.keys)) s = (.ok report, s') ∧
    (wpE (execFaulty cfg env faults) guard
        (Mcp.broadcastAdmitted cfg caller path content files admitted) (fun _ _ => True)
        (fun _ _ => True) s ↔
      wpE (execFaulty cfg env faults) guard (broadcastTo cfg req.identity path req.parts
        req.sender {} (req.visible env s.keys)) (fun _ _ => True) (fun _ _ => True) s) := by
  unfold Mcp.broadcastAdmitted at hrun ⊢
  cases admitted with
  | false => exact (not_runE_count hrun).elim
  | true =>
    simp only [not_true_eq_false, if_false] at hrun ⊢
    cases hvalid : validatePath cfg.allowedPathChars path with
    | error e =>
      rw [validateOr, hvalid] at hrun
      cases hrun
    | ok u =>
      refine ⟨downward_of_validatePath hvalid, ?_⟩
      rw [validateOr, hvalid] at hrun ⊢
      dsimp only at hrun ⊢
      rw [runE_bind, runE_pure] at hrun
      rw [wpE_bind, wpE_pure]
      dsimp only [BroadcastRequest.parts] at hrun ⊢
      generalize mcpFileParts path content files = answer at hrun ⊢
      rcases answer with e | parts
      · cases hrun
      dsimp only at hrun ⊢
      generalize evaluateUpload cfg parts = answer at hrun ⊢
      rcases answer with r | u
      · cases hrun
      · exact fanOutCounted_broadcasts hguard hrun

/-- So is a broadcast that comes to its report. -/
theorem handler_broadcasts (hguard : ∀ s c, c.NoDelete → guard s c)
    (hrun : runE (execFaulty cfg env faults) (req.handler cfg) s = (.ok report, s')) :
    Downward req.path ∧
    runE (execFaulty cfg env faults) (broadcastTo cfg req.identity req.path req.parts req.sender {}
        (req.visible env s.keys)) s = (.ok report, s') ∧
    (wpE (execFaulty cfg env faults) guard (req.handler cfg) (fun _ _ => True)
        (fun _ _ => True) s ↔
      wpE (execFaulty cfg env faults) guard (broadcastTo cfg req.identity req.path req.parts
        req.sender {} (req.visible env s.keys)) (fun _ _ => True) (fun _ _ => True) s) := by
  have hrate : runE (execFaulty cfg env faults) checkRateLimit s = (.ok (env.admits s.wall), s) :=
    rfl
  have hrate' : ∀ Q : Bool → Server → Prop,
      wpE (execFaulty cfg env faults) guard checkRateLimit Q (fun _ _ => True) s ↔
        Q (env.admits s.wall) s := fun _ => and_iff_right (hguard _ _ (by rintro _ ⟨⟩))
  cases req with
  | rest identity path body =>
    simp only [BroadcastRequest.handler, Agents.broadcast] at hrun ⊢
    rw [runE_bind_ok hrate] at hrun
    rw [wpE_bind, hrate']
    cases hadmits : env.admits s.wall with
    | false =>
      rw [hadmits] at hrun
      cases hrun
    | true =>
      rw [hadmits] at hrun
      cases hvalid : validatePath cfg.allowedPathChars path with
      | error e =>
        rw [validateOr, hvalid] at hrun
        cases hrun
      | ok u =>
        have hpass : ∀ refusal, runE (execFaulty cfg env faults)
            (validateOr cfg.allowedPathChars path refusal) s = (.ok (), s) := fun refusal => by
          rw [validateOr, hvalid]
          rfl
        rw [if_neg (by simp), runE_bind_ok (hpass _)] at hrun
        refine ⟨downward_of_validatePath hvalid, ?_⟩
        cases hlimits : checkManifestAgainstLimits (uploadManifest (body.fileParts path))
            cfg.limits with
        | error r =>
          rw [hlimits] at hrun
          cases hrun
        | ok a =>
          rw [hlimits] at hrun
          refine ⟨(fanOut_broadcasts hguard hrun).1, ?_⟩
          rw [validateOr, hvalid]
          exact (fanOut_broadcasts hguard hrun).2
  | mcp caller overHttp path content files =>
    simp only [BroadcastRequest.handler] at hrun ⊢
    rw [Mcp.cassettaBroadcast_eq] at hrun ⊢
    cases overHttp with
    | false =>
      simp only [Bool.false_eq_true, if_false] at hrun ⊢
      rw [runE_bind, runE_pure] at hrun
      rw [wpE_bind, wpE_pure]
      exact broadcastAdmitted_broadcasts hguard hrun
    | true =>
      simp only [if_true] at hrun ⊢
      rw [runE_bind_ok hrate] at hrun
      rw [wpE_bind, hrate']
      exact broadcastAdmitted_broadcasts hguard hrun

/-- The deliveries of a broadcast all leave the inbox of a label as it was. -/
def BroadcastRequest.Spares (cfg : Config) (env : Environment) (faults : Faults cfg.backend)
    (s : Server) (req : BroadcastRequest) (label : String) : Prop :=
  wpE (execFaulty cfg env faults) (Sparing cfg faults req.parts req.sender label)
    (req.handler cfg) (fun _ _ => True) (fun _ _ => True) s

/-- The targets of a broadcast lie apart from each other and below the inboxes of the labels,
and the names of its payload do not lead out of the directory they are written to. -/
structure BroadcastRequest.Ordinary (cfg : Config) (env : Environment) (s : Server)
    (req : BroadcastRequest) (labels : List String) : Prop where
  contained : Contained req.parts
  apart : (((req.visible env s.keys).flatMap (attempted env req.identity req.sender s.keys)).map
    (cfg.backend.deliveryLoc req.path)).Pairwise fun a c => ¬Comparable a c
  outside : ∀ label ∈ labels, ∀ name ∈ req.visible env s.keys,
    ∀ target ∈ attempted env req.identity req.sender s.keys name,
      ¬cfg.backend.deliveryLoc req.path target <+: cfg.backend.location (inboxPath label "")
  wellKept : ∀ label ∈ labels, cfg.backend.WellKept label s.disk.tree s.nextId

/-- The inboxes of the labels a broadcast did not reach are kept if each of its deliveries
spares them; where its targets lie apart, only then. -/
theorem unreached_kept_iff (hkeys : PrefixTargets env req.identity req.sender s.keys)
    (hrun : runE (execFaulty cfg env faults) (req.handler cfg) s = (.ok report, s')) :
    ((∀ label ∈ report.unreached, req.Spares cfg env faults s label) →
      ∀ label ∈ report.unreached, cfg.backend.InboxKept label s.disk.tree s'.disk.tree) ∧
    (req.Ordinary cfg env s report.unreached →
      ((∀ label ∈ report.unreached, cfg.backend.InboxKept label s.disk.tree s'.disk.tree) ↔
        ∀ label ∈ report.unreached, req.Spares cfg env faults s label)) := by
  have hloop : ∀ label, Downward req.path ∧ runE (execFaulty cfg env faults)
      (broadcastTo cfg req.identity req.path req.parts req.sender {} (req.visible env s.keys)) s =
        (.ok report, s') ∧ (req.Spares cfg env faults s label ↔ _) := fun label =>
    handler_broadcasts (sparing_of_noDelete faults label req.parts req.sender) hrun
  have hkeeps : (∀ label ∈ report.unreached, req.Spares cfg env faults s label) →
      ∀ label ∈ report.unreached, cfg.backend.InboxKept label s.disk.tree s'.disk.tree := by
    intro hspares label hlabel
    obtain ⟨hp, hreports, hiff⟩ := hloop label
    have hkept := broadcastTo_keeps hkeys hp {} _ (hiff.mp (hspares label hlabel))
    rwa [hreports] at hkept
  refine ⟨hkeeps, fun hord => ⟨fun hkept label hlabel => ?_, hkeeps⟩⟩
  obtain ⟨hp, hreports, hiff⟩ := hloop label
  have hlast : s'.disk.tree = (runE (execFaulty cfg env faults) (broadcastTo cfg req.identity
      req.path req.parts req.sender {} (req.visible env s.keys)) s).2.disk.tree := by
    rw [hreports]
  refine hiff.mpr (broadcastTo_spares hkeys hp hord.contained {} _ (hord.outside label hlabel)
    hord.apart hlast (hkept label hlabel) ?_ le_rfl)
  exact (hord.wellKept label hlabel).congr (hkept label hlabel)

end Whole

/-! ## A form with one name twice -/

/-- A broadcast of a form with one name twice. -/
def doubledBroadcast : BroadcastRequest :=
  .rest alice "p" (.multipart [⟨"a", [], none⟩, ⟨"a", [], none⟩])

private theorem prefixTargets_srvKeys (identity : Identity) (sender : Option String) :
    PrefixTargets .core identity sender srvKeys := by
  intro name target htarget
  simp only [attempted, Environment.core, defaultResolve] at htarget
  split at htarget
  · rename_i resolved hresolved
    split at hresolved
    · split at hresolved
      · rename_i hany
        cases hresolved
        have hname : "alice:a" = name ∨ "bob:b" = name := by
          simpa [srvKeys, KeyInfo.label] using hany
        simp only [if_true, List.mem_singleton] at htarget
        subst htarget
        rcases hname with rfl | rfl
        · exact ⟨by decide, by decide, by decide +kernel⟩
        · exact ⟨by decide, by decide, by decide +kernel⟩
      · cases hresolved
    · cases hresolved
  · cases htarget

/-- What the report says of `bob`. -/
def doubledError : BroadcastError :=
  ⟨"write_error: ", some (.storage (.valueError "Duplicate file name in bundle: a"))⟩

/-- On a server without bundles, the one for `bob` fails, and takes nothing from him. -/
theorem unreached_kept_fresh :
    let s := srvSystem.server
    let s' := (runE (execFaulty srvConfig .core (.none _))
      (doubledBroadcast.handler srvConfig) s).2
    ((∀ label ∈ ["bob:b"], doubledBroadcast.Spares srvConfig .core (.none _) s label) →
      ∀ label ∈ ["bob:b"], srvConfig.backend.InboxKept label s.disk.tree s'.disk.tree) ∧
    (doubledBroadcast.Ordinary srvConfig .core s ["bob:b"] →
      ((∀ label ∈ ["bob:b"], srvConfig.backend.InboxKept label s.disk.tree s'.disk.tree) ↔
        ∀ label ∈ ["bob:b"], doubledBroadcast.Spares srvConfig .core (.none _) s label)) := by
  have hrun : (runE (execFaulty srvConfig .core (.none _)) (doubledBroadcast.handler srvConfig)
      srvSystem.server).1 = .ok ⟨[], [], [("bob:b", doubledError)]⟩ := by decide +kernel
  exact unreached_kept_iff (prefixTargets_srvKeys _ _) (Prod.ext hrun rfl)

/-- A server on which `alice` has sent everyone an empty file `p`. -/
def sentServer : Server :=
  (srvSystem.run srvConfig .core [.plain (.broadcast alice "p" (.raw []))]).server

/-- When she sends the form there, the write for `bob` fails, and the file is gone. -/
theorem doubled_broadcast_loses_old : ∃ report,
    (runE (execFaulty srvConfig .core (.none _)) (doubledBroadcast.handler srvConfig)
      sentServer).1 = .ok report ∧ "bob:b" ∈ report.unreached ∧
    ¬srvConfig.backend.InboxKept "bob:b" sentServer.disk.tree
      (runE (execFaulty srvConfig .core (.none _)) (doubledBroadcast.handler srvConfig)
        sentServer).2.disk.tree := by
  refine ⟨⟨[], [], [("bob:b", doubledError)]⟩, ?_, by decide, fun hkept => ?_⟩
  · decide +kernel
  · have hsame := (hkept ["srv", "data", "inbox", "bob:b", "p"] (by decide +kernel)).1
    have hgone : srvConfig.backend.metaAt (runE (execFaulty srvConfig .core (.none _))
        (doubledBroadcast.handler srvConfig) sentServer).2.disk.tree
          ["srv", "data", "inbox", "bob:b", "p"] = none := by decide +kernel
    have hwas : (srvConfig.backend.metaAt sentServer.disk.tree
        ["srv", "data", "inbox", "bob:b", "p"]).isSome = true := by decide +kernel
    rw [← hsame, hgone] at hwas
    cases hwas

end Cassetta
