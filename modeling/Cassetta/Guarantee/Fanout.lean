import Cassetta.Core.Trace
import Cassetta.Server.System
import Cassetta.Server.Writing

/-!
# A broadcast accounts for every recipient

The loop over the visible labels is run against an arbitrary interpreter, so that every
collaborator and every storage call may answer or raise as it likes, and differently each time.
The trace of the loop falls into one segment for each label, which says what became of it.
-/

namespace Cassetta

open Prog

/-! ## Calls that went through -/

/-- A call of the storage backend. -/
def Call.isStorage : Call → Bool
  | .openBundleWrite _ | .writeFile .. | .commit .. | .abort _ | .readBundleMeta _
  | .openBundleFileRead .. | .listBundles .. | .deleteBundle _ => true
  | _ => false

/-- A call of the alias resolver. -/
def Call.isResolve : Call → Bool
  | .resolve .. => true
  | _ => false

/-- An answer that stops the delivery to a recipient. -/
def Call.Stops : (c : Call) → c.Answer → Prop
  | .resolve .., (a : Except Unit (Option ResolvedRecipient)) => ∀ r, a ≠ .ok (some r)
  | .check .., (a : Except Unit Bool) => a ≠ .ok true
  | .openBundleWrite _, (a : Except StorageError Nat) => ∀ handle, a ≠ .ok handle
  | .writeFile .., (a : Except StorageError Nat) => ∀ n, a ≠ .ok n
  | .commit .., (a : Except StorageError Unit) => a ≠ .ok ()
  | .deleteBundle _, (a : Except StorageError Unit) => a ≠ .ok () ∧ a ≠ .error .fileNotFound
  | _, _ => False

abbrev CallEvent : Type := Answered Call Call.Answer

/-- Some call of a trace was answered so that the delivery stops. -/
def Stopped (l : List CallEvent) : Prop := ∃ e ∈ l, e.1.Stops e.2

/-- The writes of the files of a payload, all of which went through. -/
def fileWrites (handle : Nat) (written : List (FilePart × Nat)) : List CallEvent :=
  written.map fun w => ⟨.writeFile handle w.1.name w.1.data, (.ok w.2 : Except StorageError Nat)⟩

section Delivery

variable (cfg : Config) (path : String) (files : List FilePart) (sender : Option String)

/-- One target is written to: what was there is deleted or was not there, the bundle is opened,
every file is written, and the bundle is committed. -/
def TargetWritten (target : String) (l : List CallEvent) : Prop :=
  ∃ (deleted : Except StorageError Unit) (bundleId handle createdAt : Nat)
    (written : List (FilePart × Nat)),
    (deleted = .ok () ∨ deleted = .error .fileNotFound) ∧ written.map Prod.fst = files ∧
    l = [⟨.deleteBundle (broadcastPath target path), deleted⟩, ⟨.newId, bundleId⟩,
        ⟨.openBundleWrite (broadcastPath target path), (.ok handle : Except StorageError Nat)⟩] ++
      fileWrites handle written ++
      [⟨.now, createdAt⟩,
        ⟨.commit handle (partMeta cfg files sender "application/octet-stream" bundleId createdAt),
          (.ok () : Except StorageError Unit)⟩]

/-- Every target is written to, one after the other. -/
def TargetsWritten : List String → List CallEvent → Prop
  | [], l => l = []
  | target :: rest, l => ∃ l₁ l₂, TargetWritten cfg path files sender target l₁ ∧
      TargetsWritten rest l₂ ∧ l = l₁ ++ l₂

/-- A recipient is reached: its label is resolved, the policy allows the write, and every target
is written to. -/
def Reached (identity : Identity) (label : String) (l : List CallEvent) : Prop :=
  ∃ (resolved : ResolvedRecipient) (rest : List CallEvent),
    TargetsWritten cfg path files sender resolved.inboxTargets rest ∧
    l = [⟨.resolve label sender,
          (.ok (some resolved) : Except Unit (Option ResolvedRecipient))⟩,
        ⟨.check identity (.inbox label) .write, (.ok true : Except Unit Bool)⟩] ++ rest

/-! ## What is written has gone through -/

variable {cfg path files sender}

private theorem fileWrites_go_on {handle : Nat} {written : List (FilePart × Nat)} :
    ¬Stopped (fileWrites handle written) := by
  rintro ⟨e, he, hstops⟩
  obtain ⟨w, -, rfl⟩ := List.mem_map.mp he
  exact hstops w.2 rfl

/-- Calls stop if one of their parts does. -/
theorem Stopped.append {l l' : List CallEvent} : Stopped (l ++ l') ↔ Stopped l ∨ Stopped l' := by
  simp only [Stopped, List.mem_append, or_and_right, exists_or]

/-- Calls stop at the first, or after it. -/
theorem Stopped.cons {e : CallEvent} {l : List CallEvent} :
    Stopped (e :: l) ↔ e.1.Stops e.2 ∨ Stopped l := by
  simp only [Stopped, List.mem_cons, or_and_right, exists_or, exists_eq_left]

/-- A target that is written to does not stop the others. -/
theorem TargetWritten.goes_on {target : String} {l : List CallEvent}
    (h : TargetWritten cfg path files sender target l) : ¬Stopped l := by
  obtain ⟨deleted, bundleId, handle, createdAt, written, hdel, -, rfl⟩ := h
  simp only [List.cons_append, List.nil_append, Stopped.cons, Stopped.append, fileWrites_go_on,
    Call.Stops]
  rcases hdel with rfl | rfl <;> simp [Stopped]

/-- Targets that are written to do not stop the others. -/
theorem TargetsWritten.goes_on {targets : List String} {l : List CallEvent}
    (h : TargetsWritten cfg path files sender targets l) : ¬Stopped l := by
  induction targets generalizing l with
  | nil =>
    obtain rfl := h
    simp [Stopped]
  | cons target rest ih =>
    obtain ⟨l₁, l₂, h₁, h₂, rfl⟩ := h
    rw [Stopped.append, not_or]
    exact ⟨h₁.goes_on, ih h₂⟩

/-- A label that is reached does not stop the others. -/
theorem Reached.goes_on {identity : Identity} {label : String} {l : List CallEvent}
    (h : Reached cfg path files sender identity label l) : ¬Stopped l := by
  obtain ⟨resolved, rest, hrest, rfl⟩ := h
  simp only [List.cons_append, List.nil_append, Stopped.cons, Call.Stops, hrest.goes_on]
  simp

end Delivery

/-! ## What the loop calls -/

section Loop

variable {S : Type} {h : (c : Call) → S → c.Answer × S} {cfg : Config} {path : String}
  {files : List FilePart} {sender : Option String} {identity : Identity}

/-! ### One storage call -/

private theorem logs_writeFile (handle : Nat) (name : String) (data : Bytes) :
    Logs h (writeFile handle name data)
      (fun n l => l = [⟨.writeFile handle name data, (.ok n : Except StorageError Nat)⟩])
      (fun _ l => Stopped l) := by
  refine logs_bind (logs_performE fun s => ?_)
  generalize (h (.writeFile handle name data) s).1 = a
  change Except StorageError Nat at a
  cases a with
  | ok n => exact logs_pure rfl
  | error e => exact logs_throw ⟨_, List.mem_singleton_self _, by simp [Call.Stops]⟩

private theorem logs_commit (handle : Nat) (m : BundleMeta) :
    Logs h (commit handle m)
      (fun _ l => l = [⟨.commit handle m, (.ok () : Except StorageError Unit)⟩])
      (fun _ l => Stopped l) := by
  refine logs_bind (logs_performE fun s => ?_)
  generalize (h (.commit handle m) s).1 = a
  change Except StorageError Unit at a
  cases a with
  | ok u => exact logs_pure rfl
  | error e => exact logs_throw ⟨_, List.mem_singleton_self _, by simp [Call.Stops]⟩

private theorem logs_deleteQuiet (path : String) :
    Logs h (deleteQuiet path)
      (fun _ l => ∃ deleted : Except StorageError Unit,
        (deleted = .ok () ∨ deleted = .error .fileNotFound) ∧ l = [⟨.deleteBundle path, deleted⟩])
      (fun _ l => Stopped l) := by
  refine logs_bind (logs_performE fun s => ?_)
  generalize (h (.deleteBundle path) s).1 = a
  change Except StorageError Unit at a
  rcases a with (_ | _ | _ | _) | _
  · exact logs_pure ⟨_, .inr rfl, rfl⟩
  all_goals first
    | exact logs_throw ⟨_, List.mem_singleton_self _, by simp [Call.Stops]⟩
    | exact logs_pure ⟨_, .inl rfl, rfl⟩

/-! ### One bundle -/

private theorem logs_writeFiles (handle : Nat) (files : List FilePart) :
    Logs h (writeFiles cfg handle files)
      (fun records l => records = partRecords cfg files ∧
        ∃ written : List (FilePart × Nat), written.map Prod.fst = files ∧
          l = fileWrites handle written)
      (fun _ l => Stopped l) := by
  induction files with
  | nil => exact logs_pure ⟨rfl, [], rfl, rfl⟩
  | cons f rest ih =>
    refine logs_bind ((logs_writeFile handle f.name f.data).mono ?_ fun _ _ hstop => hstop)
    rintro n l rfl
    refine logs_bind (ih.mono ?_ fun _ l' hstop => Stopped.append.mpr (.inr hstop))
    rintro records l' ⟨rfl, written, hwritten, rfl⟩
    exact logs_pure ⟨rfl, (f, n) :: written, by simp [hwritten], by simp [fileWrites]⟩

private theorem logs_fillBundle (handle : Nat) (bundleId : Id) :
    Logs h (fillBundle cfg handle files sender "application/octet-stream" bundleId)
      (fun _ l => ∃ (createdAt : Nat) (written : List (FilePart × Nat)),
        written.map Prod.fst = files ∧ l = fileWrites handle written ++
          [⟨.now, createdAt⟩, ⟨.commit handle
            (partMeta cfg files sender "application/octet-stream" bundleId createdAt),
            (.ok () : Except StorageError Unit)⟩])
      (fun _ l => Stopped l) := by
  refine logs_bind ((logs_writeFiles handle files).mono ?_ fun _ _ hstop => hstop)
  rintro records l ⟨rfl, written, hwritten, rfl⟩
  refine logs_bind (logs_performE fun s => ?_)
  refine logs_bind ((logs_commit handle _).mono ?_ fun _ l hstop => ?_)
  · rintro _ l rfl
    exact logs_pure ⟨(h .now s).1, written, hwritten, by simp [partMeta]⟩
  · simp only [Stopped.append]
    exact .inr (.inr hstop)

/-- Whatever fails with the writer open is still noted after the abort. -/
theorem logs_orAbort {α : Type} {handle : Nat} {x : Handler α} {Q : α → List CallEvent → Prop}
    (hx : Logs h x Q fun _ l => Stopped l) :
    Logs h (Upload.orAbort handle x) Q fun _ l => Stopped l := by
  refine logs_tryCatch (hx.mono (fun _ _ hq => hq) fun e l hstop => ?_)
  refine logs_bind (logs_performE fun s => logs_throw ?_)
  simp only [List.append_nil, Stopped.append]
  exact .inl hstop

private theorem logs_writeBundle (target : String) (bundleId : Id) :
    Logs h (writeBundle cfg target files sender "application/octet-stream" bundleId)
      (fun _ l => ∃ (handle createdAt : Nat) (written : List (FilePart × Nat)),
        written.map Prod.fst = files ∧
        l = ⟨.openBundleWrite target, (.ok handle : Except StorageError Nat)⟩ ::
          fileWrites handle written ++
          [⟨.now, createdAt⟩, ⟨.commit handle
            (partMeta cfg files sender "application/octet-stream" bundleId createdAt),
            (.ok () : Except StorageError Unit)⟩])
      (fun _ l => Stopped l) := by
  rw [writeBundle_eq]
  refine logs_bind (logs_performE fun s => ?_)
  generalize (h (.openBundleWrite target) s).1 = a
  change Except StorageError Nat at a
  cases a with
  | error e =>
    exact logs_bind (logs_throw ⟨_, List.mem_singleton_self _, by simp [Call.Stops]⟩)
  | ok handle =>
    refine logs_bind (logs_pure ?_)
    refine (logs_orAbort (logs_fillBundle handle bundleId)).mono ?_ fun _ l hstop => ?_
    · rintro _ l ⟨createdAt, written, hwritten, rfl⟩
      exact ⟨handle, createdAt, written, hwritten, by simp⟩
    · simp only [Stopped.append]
      exact .inr (.inr hstop)

private theorem logs_deliverTo (targets : List String) :
    Logs h (deliverTo cfg path files sender targets)
      (fun _ l => TargetsWritten cfg path files sender targets l) (fun _ l => Stopped l) := by
  induction targets with
  | nil => exact logs_pure rfl
  | cons target rest ih =>
    refine logs_bind ((logs_deleteQuiet _).mono ?_ fun _ _ hstop => hstop)
    rintro _ l ⟨deleted, hdeleted, rfl⟩
    refine logs_bind (logs_performE fun s => ?_)
    refine logs_bind ((logs_writeBundle _ _).mono ?_ fun _ l hstop => ?_)
    · rintro _ l ⟨handle, createdAt, written, hwritten, rfl⟩
      refine ih.mono ?_ fun _ l hstop => ?_
      · intro _ l₂ hrest
        refine ⟨_, l₂, ⟨deleted, (h .newId s).1, handle, createdAt, written, hdeleted, hwritten,
          rfl⟩, hrest, by simp⟩
      · simp only [Stopped.append]
        exact .inr (.inr (.inr hstop))
    · simp only [Stopped.append]
      exact .inr (.inr hstop)

private theorem writes_without_resolving (targets : List String) :
    OnlyE (fun c => c.isResolve = false) (deliverTo cfg path files sender targets) := by
  have hraise : ∀ {α : Type} (r : Except StorageError α),
      OnlyE (fun c : Call => c.isResolve = false) (orRaise r) := by
    intro α r
    cases r <;> trivial
  have hfiles : ∀ handle parts,
      OnlyE (fun c : Call => c.isResolve = false) (writeFiles cfg handle parts) := by
    intro handle parts
    induction parts with
    | nil => trivial
    | cons f rest ih =>
      refine OnlyE.bind (OnlyE.bind (onlyE_performE rfl) fun r => hraise r) fun _ => ?_
      exact OnlyE.bind ih fun _ => trivial
  induction targets with
  | nil => trivial
  | cons target rest ih =>
    refine OnlyE.bind (OnlyE.bind (onlyE_performE rfl) fun r => ?_) fun _ => ?_
    · split <;> trivial
    refine OnlyE.bind (onlyE_performE rfl) fun bundleId => OnlyE.bind ?_ fun _ => ih
    refine OnlyE.bind (onlyE_performE rfl) fun r => OnlyE.bind (hraise r) fun handle => ?_
    refine OnlyE.tryCatch (OnlyE.bind (hfiles handle files) fun records => ?_) fun e => ?_
    · refine OnlyE.bind (onlyE_performE rfl) fun t => OnlyE.bind ?_ fun _ => trivial
      exact OnlyE.bind (onlyE_performE rfl) fun r => hraise r
    · exact OnlyE.bind (onlyE_performE rfl) fun _ => trivial

end Loop

/-! ## The loop -/

/-- What becomes of a recipient. -/
inductive Verdict where
  | delivered
  | denied (reason : String)
  | failed (error : BroadcastError)
  deriving DecidableEq, Repr

/-- A recipient with its verdict and the calls made for it. -/
structure Outcome where
  label : String
  verdict : Verdict
  calls : List CallEvent

/-- Note a verdict. -/
def BroadcastReport.note (report : BroadcastReport) (o : Outcome) : BroadcastReport :=
  match o.verdict with
  | .delivered => { report with delivered := report.delivered ++ [o.label] }
  | .denied why => { report with denied := report.denied ++ [(o.label, why)] }
  | .failed why => { report with failed := report.failed ++ [(o.label, why)] }

/-- The calls made for one recipient: its label is resolved first, and no other. -/
def IsSegment (sender : Option String) (label : String) (l : List CallEvent) : Prop :=
  ∃ (answer : Except Unit (Option ResolvedRecipient)) (rest : List CallEvent),
    l = ⟨.resolve label sender, answer⟩ :: rest ∧ ∀ e ∈ rest, e.1.isResolve = false

section Accounting

variable {S : Type} {h : (c : Call) → S → c.Answer × S} {cfg : Config} {path : String}
  {files : List FilePart} {sender : Option String} {identity : Identity}

/-- The verdict on a recipient is what its calls say. -/
structure Outcome.Sound (cfg : Config) (path : String) (files : List FilePart)
    (sender : Option String) (identity : Identity) (o : Outcome) : Prop where
  segment : IsSegment sender o.label o.calls
  delivered : o.verdict = .delivered ↔ Reached cfg path files sender identity o.label o.calls

private theorem Outcome.sound_of_stopped {o : Outcome} (hseg : IsSegment sender o.label o.calls)
    (hv : o.verdict ≠ .delivered) (hstop : Stopped o.calls) :
    o.Sound cfg path files sender identity :=
  ⟨hseg, iff_of_false hv fun hreached => hreached.goes_on hstop⟩

private theorem Outcome.sound_unresolved {label : String} {error : BroadcastError}
    {answer : Except Unit (Option ResolvedRecipient)} (hne : ∀ r, answer ≠ .ok (some r)) :
    Outcome.Sound cfg path files sender identity
      ⟨label, .failed error, [⟨.resolve label sender, answer⟩]⟩ :=
  Outcome.sound_of_stopped ⟨answer, [], rfl, by simp⟩ (by simp)
    ⟨_, List.mem_singleton_self _, hne⟩

private theorem Outcome.sound_denied {label reason : String}
    {answer : Except Unit (Option ResolvedRecipient)} {allowed : Except Unit Bool}
    (hne : allowed ≠ .ok true) :
    Outcome.Sound cfg path files sender identity
      ⟨label, .denied reason, [⟨.resolve label sender, answer⟩,
        ⟨.check identity (.inbox label) .write, allowed⟩]⟩ :=
  Outcome.sound_of_stopped ⟨answer, [_], rfl, by simp [Call.isResolve]⟩ (by simp)
    ⟨_, List.mem_cons_of_mem _ (List.mem_singleton_self _), hne⟩

/-- The deliveries to one recipient, with the verdict that is made of them. -/
theorem logs_delivery (identity : Identity) (label : String) (resolved : ResolvedRecipient) :
    Logs h (tryCatch (do
        deliverTo cfg path files sender resolved.inboxTargets
        pure none) fun e => pure (some e))
      (fun raised l => Outcome.Sound cfg path files sender identity
        ⟨label, raised.elim .delivered fun e => .failed ⟨"write_error: ", some e⟩,
          [⟨.resolve label sender, (.ok (some resolved) : Except Unit (Option ResolvedRecipient))⟩,
            ⟨.check identity (.inbox label) .write, (.ok true : Except Unit Bool)⟩] ++ l⟩)
      (fun _ _ => False) := by
  have hwrites := (@logs_deliverTo S h cfg path files sender resolved.inboxTargets).and
    (writes_without_resolving resolved.inboxTargets).logs
  refine logs_tryCatch (logs_bind (hwrites.mono ?_ ?_))
  · rintro _ l ⟨hwritten, hquiet⟩
    refine logs_pure ⟨⟨_, _, rfl, ?_⟩, iff_of_true rfl ⟨resolved, l, hwritten, by simp⟩⟩
    simpa [Call.isResolve] using hquiet
  · rintro _ l ⟨hstop, hquiet⟩
    refine logs_pure (Outcome.sound_of_stopped ⟨_, _, rfl, ?_⟩ (by simp) ?_)
    · simpa [Call.isResolve] using hquiet
    · simp only [List.append_nil, Stopped.append]
      exact .inr hstop

/-- The loop goes through all the labels, whatever happens. -/
theorem logs_broadcastTo (report : BroadcastReport) (labels : List String) :
    Logs h (broadcastTo cfg identity path files sender report labels)
      (fun r l => ∃ outs : List Outcome, outs.map Outcome.label = labels ∧
        r = outs.foldl BroadcastReport.note report ∧ l = (outs.map Outcome.calls).flatten ∧
        ∀ o ∈ outs, o.Sound cfg path files sender identity)
      (fun _ _ => False) := by
  induction labels generalizing report with
  | nil => exact logs_pure ⟨[], rfl, rfl, rfl, by simp⟩
  | cons label rest ih =>
    have hgo : ∀ o : Outcome, o.label = label → o.Sound cfg path files sender identity →
        Logs h (broadcastTo cfg identity path files sender (report.note o) rest)
          (fun r l => ∃ outs : List Outcome, outs.map Outcome.label = label :: rest ∧
            r = outs.foldl BroadcastReport.note report ∧
            o.calls ++ l = (outs.map Outcome.calls).flatten ∧
            ∀ o ∈ outs, o.Sound cfg path files sender identity)
          (fun _ _ => False) := by
      intro o hlabel hsound
      refine (ih (report.note o)).mono ?_ fun _ _ hfalse => hfalse
      rintro r l ⟨outs, hlabels, rfl, rfl, hall⟩
      exact ⟨o :: outs, by simp [hlabel, hlabels], rfl, rfl, by
        simpa only [List.forall_mem_cons] using ⟨hsound, hall⟩⟩
    refine logs_bind (logs_performE fun s => ?_)
    generalize (h (.resolve label sender) s).1 = resolution
    change Except Unit (Option ResolvedRecipient) at resolution
    match resolution with
    | .error () => exact hgo ⟨label, .failed _, _⟩ rfl (Outcome.sound_unresolved (by simp))
    | .ok none => exact hgo ⟨label, .failed _, _⟩ rfl (Outcome.sound_unresolved (by simp))
    | .ok (some resolved) =>
      refine logs_bind (logs_performE fun s => ?_)
      generalize (h (.check identity (.inbox label) .write) s).1 = allowed
      change Except Unit Bool at allowed
      match allowed with
      | .error () => exact hgo ⟨label, .denied _, _⟩ rfl (Outcome.sound_denied (by simp))
      | .ok false => exact hgo ⟨label, .denied _, _⟩ rfl (Outcome.sound_denied (by simp))
      | .ok true =>
        refine logs_bind ((logs_delivery identity label resolved).mono ?_ fun _ _ hfalse => hfalse)
        intro raised l hsound
        have hrest := hgo _ rfl hsound
        simp only [List.append_assoc] at hrest
        cases raised with
        | none => exact hrest
        | some e => exact hrest

/-! ## The report -/

private theorem note_delivered (outs : List Outcome) (report : BroadcastReport) :
    (outs.foldl BroadcastReport.note report).delivered =
      report.delivered ++ (outs.filter (·.verdict = .delivered)).map Outcome.label := by
  induction outs generalizing report with
  | nil => simp
  | cons o rest ih =>
    rw [List.foldl_cons, ih]
    obtain ⟨label, _ | _ | _, calls⟩ := o <;> simp [BroadcastReport.note]

/-- The labels a report names. -/
def BroadcastReport.labels (report : BroadcastReport) : List String :=
  report.delivered ++ (report.denied.map Prod.fst ++ report.failed.map Prod.fst)

private theorem perm_note (report : BroadcastReport) (o : Outcome) :
    (report.note o).labels.Perm (report.labels ++ [o.label]) := by
  obtain ⟨label, verdict, calls⟩ := o
  have hend : ∀ l₁ l₂ : List String, (l₁ ++ ([label] ++ l₂)).Perm (l₁ ++ (l₂ ++ [label])) :=
    fun l₁ _ => List.Perm.append_left l₁ List.perm_append_comm
  cases verdict with
  | delivered =>
    simpa [BroadcastReport.labels, BroadcastReport.note] using
      hend report.delivered (report.denied.map Prod.fst ++ report.failed.map Prod.fst)
  | denied why =>
    simpa [BroadcastReport.labels, BroadcastReport.note] using
      hend (report.delivered ++ report.denied.map Prod.fst) (report.failed.map Prod.fst)
  | failed why => simp [BroadcastReport.labels, BroadcastReport.note]

/-- Every recipient is noted once. -/
theorem perm_foldl_note (outs : List Outcome) (report : BroadcastReport) :
    (outs.foldl BroadcastReport.note report).labels.Perm
      (report.labels ++ outs.map Outcome.label) := by
  induction outs generalizing report with
  | nil => simp
  | cons o rest ih =>
    refine (ih (report.note o)).trans ?_
    simpa using (perm_note report o).append_right (rest.map Outcome.label)

/-- A list that only ever gets the label at hand at its end is in the order of the loop. -/
theorem sublist_foldl_note {f : BroadcastReport → List String}
    (hf : ∀ r o, f (r.note o) = f r ∨ f (r.note o) = f r ++ [o.label]) (outs : List Outcome)
    (report : BroadcastReport) :
    ∃ l, l.Sublist (outs.map Outcome.label) ∧
      f (outs.foldl BroadcastReport.note report) = f report ++ l := by
  induction outs generalizing report with
  | nil => exact ⟨[], List.Sublist.refl _, by simp⟩
  | cons o rest ih =>
    obtain ⟨l, hl, heq⟩ := ih (report.note o)
    rw [List.foldl_cons, heq]
    rcases hf report o with hsame | hadded
    · exact ⟨l, hl.cons _, by rw [hsame]⟩
    · exact ⟨o.label :: l, hl.cons_cons _, by simp [hadded]⟩

private theorem note_lists (r : BroadcastReport) (o : Outcome) :
    ((r.note o).delivered = r.delivered ∨ (r.note o).delivered = r.delivered ++ [o.label]) ∧
    ((r.note o).denied.map Prod.fst = r.denied.map Prod.fst ∨
      (r.note o).denied.map Prod.fst = r.denied.map Prod.fst ++ [o.label]) ∧
    ((r.note o).failed.map Prod.fst = r.failed.map Prod.fst ∨
      (r.note o).failed.map Prod.fst = r.failed.map Prod.fst ++ [o.label]) := by
  obtain ⟨label, _ | _ | _, calls⟩ := o <;> simp [BroadcastReport.note]

end Accounting

/-! ## The whole route -/

/-- The active labels other than the sender's. -/
def candidateLabels (keys : List KeyInfo) (sender : Option String) : List String :=
  (keys.filter fun k => k.isActive ∧ some k.label ≠ sender).map (·.label)

/-- Why a broadcast is refused as a whole. -/
inductive Refused (cfg : Config) (identity : Identity) (path : String) (body : Body)
    (calls : List CallEvent) : Exc → Prop
  | rate : Refused cfg identity path body calls .rateLimitExceeded
  | path {e : PathValidationError} (h : validatePath cfg.allowedPathChars path = .error e) :
    Refused cfg identity path body calls (.http 400 ("Invalid path: " ++ e.message))
  | limits {r : LimitsRejection}
    (h : checkManifestAgainstLimits (uploadManifest (body.fileParts path)) cfg.limits = .error r) :
    Refused cfg identity path body calls (.limits r)
  | cap {keys : List KeyInfo} (hkeys : ⟨.listKeys, keys⟩ ∈ calls)
    (h : cfg.broadcastMaxTargets <
      (candidateLabels keys (Agents.senderFromIdentity identity)).length) :
    Refused cfg identity path body calls (.fanoutCapExceeded cfg.broadcastMaxTargets)

/-- The answer accounts for the visible labels: each is in one of the three lists, once; the
lists are in the order of the labels; the totals are their lengths; and the calls fall into one
segment a label, a label being delivered to exactly when all its calls went through. -/
structure Accounts (cfg : Config) (identity : Identity) (path : String) (files : List FilePart)
    (sender : Option String) (visible : List String) (calls : List CallEvent)
    (r : Agents.BroadcastResponse) : Prop where
  once : (r.deliveredTo ++ (r.denied.map Prod.fst ++ r.failed.map Prod.fst)).Perm visible
  delivered : r.deliveredTo.Sublist visible
  denied : (r.denied.map Prod.fst).Sublist visible
  failed : (r.failed.map Prod.fst).Sublist visible
  totals : r.totalDelivered = r.deliveredTo.length ∧ r.totalDenied = r.denied.length ∧
    r.totalFailed = r.failed.length
  segments : ∃ segments : List (List CallEvent), segments.length = visible.length ∧
    calls = segments.flatten ∧ ∀ label l, (label, l) ∈ visible.zip segments →
      IsSegment sender label l ∧
        (label ∈ r.deliveredTo ↔ Reached cfg path files sender identity label l)

private theorem accounts_of_outcomes {cfg : Config} {identity : Identity} {path : String}
    {files : List FilePart} {sender : Option String} {outs : List Outcome}
    (hnodup : (outs.map Outcome.label).Nodup)
    (hall : ∀ o ∈ outs, o.Sound cfg path files sender identity) :
    Accounts cfg identity path files sender (outs.map Outcome.label)
      (outs.map Outcome.calls).flatten
      (Agents.response path (outs.foldl BroadcastReport.note {})) := by
  have hsub : ∀ {f : BroadcastReport → List String}, f {} = [] →
      (∀ r o, f (r.note o) = f r ∨ f (r.note o) = f r ++ [o.label]) →
      (f (outs.foldl BroadcastReport.note {})).Sublist (outs.map Outcome.label) := by
    intro f hnil hf
    obtain ⟨l, hl, heq⟩ := sublist_foldl_note hf outs {}
    rw [heq, hnil, List.nil_append]
    exact hl
  refine ⟨perm_foldl_note outs {}, hsub rfl fun r o => (note_lists r o).1,
    hsub (f := fun r => r.denied.map Prod.fst) rfl fun r o => (note_lists r o).2.1,
    hsub (f := fun r => r.failed.map Prod.fst) rfl fun r o => (note_lists r o).2.2,
    ⟨rfl, rfl, rfl⟩, outs.map Outcome.calls, by simp, rfl, ?_⟩
  intro label l hmem
  rw [List.zip_map', List.mem_map] at hmem
  obtain ⟨o, ho, heq⟩ := hmem
  obtain ⟨rfl, rfl⟩ := Prod.mk.inj heq
  refine ⟨(hall o ho).segment, Iff.trans ?_ (hall o ho).delivered⟩
  have hdelivered : (Agents.response path (outs.foldl BroadcastReport.note {})).deliveredTo =
      (outs.filter (·.verdict = .delivered)).map Outcome.label := by
    simpa [Agents.response] using note_delivered outs {}
  rw [hdelivered, List.mem_map]
  constructor
  · rintro ⟨o', ho', hlabel⟩
    obtain ⟨hmem', hv⟩ := List.mem_filter.mp ho'
    obtain rfl := List.inj_on_of_nodup_map hnodup hmem' ho hlabel
    simpa using hv
  · intro hv
    exact ⟨o, List.mem_filter.mpr ⟨ho, by simpa using hv⟩, rfl⟩

/-- What the visibility filter returns is a sublist of what it was given, without duplicates. -/
def FiltersLabels {S : Type} (h : (c : Call) → S → c.Answer × S) : Prop :=
  ∀ identity labels s visible,
    (h (.visibleAgents identity labels) s).1 = (.ok visible : Except Unit (List String)) →
      visible.Sublist labels ∧ visible.Nodup

/-- What a broadcast that is not refused has called before it comes to its recipients. -/
structure Prelude (identity : Identity) (sender : Option String) (visible : List String)
    (calls : List CallEvent) : Prop where
  asked : ∃ (keys : List KeyInfo) (answer : Except Unit (List String)),
    ⟨.listKeys, keys⟩ ∈ calls ∧
    ⟨.visibleAgents identity (candidateLabels keys sender), answer⟩ ∈ calls ∧
    visible = visibleOf answer
  quiet : ∀ e ∈ calls, e.1.isStorage = false
  nodup : visible.Nodup
  others : ∀ label, sender = some label → label ∉ visible

section Route

variable {S : Type} {h : (c : Call) → S → c.Answer × S} {cfg : Config} {path : String}
  {files : List FilePart} {sender : Option String} {identity : Identity}

/-- The sender is not among those the filter is asked about. -/
theorem sender_not_mem_candidateLabels {keys : List KeyInfo} {label : String}
    (hsender : sender = some label) : label ∉ candidateLabels keys sender := by
  subst hsender
  simp only [candidateLabels, List.mem_map, List.mem_filter, not_exists, not_and]
  rintro k hk rfl
  simp at hk

/-- What is visible is some of the labels, each once. -/
theorem FiltersLabels.visibleOf (hvis : FiltersLabels h) (identity : Identity)
    (labels : List String) (s : S) {answer : Except Unit (List String)}
    (hanswer : (h (.visibleAgents identity labels) s).1 = answer) :
    (visibleOf answer).Sublist labels ∧ (visibleOf answer).Nodup := by
  cases answer with
  | error u => exact ⟨List.nil_sublist _, List.nodup_nil⟩
  | ok visible => exact hvis identity labels s visible hanswer

/-- One more call before the first to the storage. -/
theorem Prelude.cons {visible : List String} {calls : List CallEvent}
    (hp : Prelude identity sender visible calls) {e : CallEvent} (he : e.1.isStorage = false) :
    Prelude identity sender visible (e :: calls) := by
  obtain ⟨⟨keys, answer, hkeys, hasked, hvisible⟩, hquiet, hnodup, hothers⟩ := hp
  exact ⟨⟨keys, answer, List.mem_cons_of_mem _ hkeys, List.mem_cons_of_mem _ hasked, hvisible⟩,
    List.forall_mem_cons.mpr ⟨he, hquiet⟩, hnodup, hothers⟩

private theorem logs_checkFanoutCap (n : Nat) :
    Logs h (checkFanoutCap cfg n) (fun _ l => l = [])
      (fun e l => l = [] ∧ e = .fanoutCapExceeded cfg.broadcastMaxTargets ∧
        cfg.broadcastMaxTargets < n) := by
  unfold checkFanoutCap
  split
  · rename_i hcap
    exact logs_throw ⟨rfl, rfl, hcap⟩
  · exact logs_pure rfl

/-- The fan-out to what the filter leaves. -/
theorem logs_broadcastVisible (answer : Except Unit (List String))
    (hnodup : (visibleOf answer).Nodup) :
    Logs h (match answer with
        | .error () => pure {}
        | .ok visible => broadcastTo cfg identity path files sender {} visible)
      (fun report l => Accounts cfg identity path files sender (visibleOf answer) l
        (Agents.response path report))
      (fun _ _ => False) := by
  match answer with
  | .error () => exact logs_pure (@accounts_of_outcomes _ _ _ _ _ [] (by simp) (by simp))
  | .ok visible =>
    refine (logs_broadcastTo {} visible).mono ?_ fun _ _ hfalse => hfalse
    rintro report l ⟨outs, rfl, rfl, rfl, hall⟩
    exact accounts_of_outcomes hnodup hall

/-- A fan-out is its checks, and then its deliveries. -/
theorem fanOut_eq : fanOut cfg identity path files sender = (do
    let keys ← listKeys
    checkFanoutCap cfg (candidateLabels keys sender).length
    let answer ← visibleAgents identity (candidateLabels keys sender)
    match answer with
    | .error () => pure {}
    | .ok visible => broadcastTo cfg identity path files sender {} visible) := rfl

/-- Over the cap, a fan-out is refused, and nothing has happened. -/
theorem runE_fanOut_capped {env : Environment} {s : Server}
    (hcap : cfg.broadcastMaxTargets < (candidateLabels s.keys sender).length) :
    runE (exec cfg env) (fanOut cfg identity path files sender) s =
      (.error (.fanoutCapExceeded cfg.broadcastMaxTargets), s) := by
  have hkeys : runE (exec cfg env) listKeys s = (.ok s.keys, s) := rfl
  rw [fanOut_eq, runE_bind_ok hkeys, checkFanoutCap, if_pos hcap]
  rfl

/-- Under the cap, a fan-out comes to its report. -/
theorem runE_fanOut_uncapped {env : Environment} {s : Server}
    (hcap : ¬cfg.broadcastMaxTargets < (candidateLabels s.keys sender).length) :
    ∃ report s', runE (exec cfg env) (fanOut cfg identity path files sender) s =
      (.ok report, s') := by
  have hkeys : runE (exec cfg env) listKeys s = (.ok s.keys, s) := rfl
  have hcheck : runE (exec cfg env) (checkFanoutCap cfg (candidateLabels s.keys sender).length) s =
      (.ok (), s) := by
    rw [checkFanoutCap, if_neg hcap]
    rfl
  have hvisible : runE (exec cfg env) (visibleAgents identity (candidateLabels s.keys sender)) s =
      (.ok (env.visibleAgents identity (candidateLabels s.keys sender)), s) := rfl
  rw [fanOut_eq, runE_bind_ok hkeys, runE_bind_ok hcheck, runE_bind_ok hvisible]
  match env.visibleAgents identity (candidateLabels s.keys sender) with
  | .error () => exact ⟨{}, s, rfl⟩
  | .ok visible =>
    have hlogs := @logs_broadcastTo _ (exec cfg env) cfg path files sender identity {} visible s
    rcases hr : runE (exec cfg env) (broadcastTo cfg identity path files sender {} visible) s with
      ⟨e | report, s'⟩
    · rw [hr] at hlogs
      exact hlogs.elim
    · exact ⟨report, s', rfl⟩

private theorem logs_fanOut (hvis : FiltersLabels h) :
    Logs h (fanOut cfg identity path files sender)
      (fun report l => ∃ visible before calls, l = before ++ calls ∧
        Prelude identity sender visible before ∧
        Accounts cfg identity path files sender visible calls (Agents.response path report))
      (fun e l => (∀ c ∈ l, c.1.isStorage = false) ∧
        e = .fanoutCapExceeded cfg.broadcastMaxTargets ∧
        ∃ keys : List KeyInfo, ⟨.listKeys, keys⟩ ∈ l ∧
          cfg.broadcastMaxTargets < (candidateLabels keys sender).length) := by
  refine logs_bind (logs_performE fun s => ?_)
  generalize (h .listKeys s).1 = keys
  change List KeyInfo at keys
  refine logs_bind ((logs_checkFanoutCap (candidateLabels keys sender).length).mono ?_ ?_)
  · rintro _ l rfl
    refine logs_bind (logs_performE fun s' => ?_)
    obtain ⟨hsub, hnodup⟩ := hvis.visibleOf identity (candidateLabels keys sender) s' rfl
    refine (logs_broadcastVisible _ hnodup).mono ?_ fun _ _ hfalse => hfalse.elim
    intro report l haccounts
    refine ⟨_, [⟨.listKeys, keys⟩, ⟨.visibleAgents identity (candidateLabels keys sender), _⟩], l,
      rfl, ⟨⟨keys, _, List.mem_cons_self, List.mem_cons_of_mem _ (List.mem_singleton_self _), rfl⟩,
      by simp [Call.isStorage], hnodup, ?_⟩, haccounts⟩
    exact fun label hlabel hmem => sender_not_mem_candidateLabels hlabel (hsub.subset hmem)
  · rintro e l ⟨rfl, rfl, hcap⟩
    exact ⟨by simp [Call.isStorage], rfl, keys, by simp, hcap⟩

private theorem logs_postBroadcast (hvis : FiltersLabels h) (cfg : Config) (identity : Identity)
    (path : String) (body : Body) :
    Logs h (Agents.postBroadcast cfg identity path body)
      (fun r l => ∃ visible before calls, l = before ++ calls ∧
        Prelude identity (Agents.senderFromIdentity identity) visible before ∧
        Accounts cfg identity path (body.fileParts path) (Agents.senderFromIdentity identity)
          visible calls r)
      (fun e l => Refused cfg identity path body l e ∧ ∀ c ∈ l, c.1.isStorage = false) := by
  refine logs_bind (logs_bind (logs_performE fun s => ?_))
  generalize (h .checkRateLimit s).1 = admitted
  change Bool at admitted
  cases admitted with
  | false => exact logs_throw ⟨.rate, by simp [Call.isStorage]⟩
  | true =>
    refine logs_bind ?_
    unfold validateOr
    cases hpath : validatePath cfg.allowedPathChars path with
    | error e => exact logs_throw ⟨.path hpath, by simp [Call.isStorage]⟩
    | ok _ =>
      refine logs_pure ?_
      cases hlimits : checkManifestAgainstLimits (uploadManifest (body.fileParts path))
        cfg.limits with
      | error r =>
        simp only [hlimits]
        exact logs_throw ⟨.limits hlimits, by simp [Call.isStorage]⟩
      | ok decision =>
        simp only [hlimits]
        refine (logs_fanOut hvis).mono ?_ ?_
        · rintro report l ⟨visible, before, calls, rfl, hbefore, haccounts⟩
          exact logs_pure ⟨visible, ⟨.checkRateLimit, true⟩ :: before, calls, by simp,
            hbefore.cons rfl, haccounts⟩
        · rintro e l ⟨hquiet, rfl, keys, hkeys, hcap⟩
          refine ⟨.cap (List.mem_cons_of_mem _ hkeys) hcap, ?_⟩
          simpa [Call.isStorage] using hquiet

end Route

/-- Against any behaviour of the collaborators and of the storage, as long as the visibility
filter returns a sublist without duplicates, a broadcast is refused before it makes a storage
call, or its answer accounts for every visible label. -/
theorem broadcast_accounts_for_each {S : Type} (h : (c : Call) → S → c.Answer × S)
    (hvis : FiltersLabels h) (cfg : Config) (identity : Identity) (path : String) (body : Body)
    (s : S) :
    (∃ e, (runE h (Agents.postBroadcast cfg identity path body) s).1 = .error e ∧
      Refused cfg identity path body (traceE h (Agents.postBroadcast cfg identity path body) s) e ∧
      ∀ c ∈ traceE h (Agents.postBroadcast cfg identity path body) s, c.1.isStorage = false) ∨
    ∃ r visible before calls,
      (runE h (Agents.postBroadcast cfg identity path body) s).1 = .ok r ∧
      traceE h (Agents.postBroadcast cfg identity path body) s = before ++ calls ∧
      Prelude identity (Agents.senderFromIdentity identity) visible before ∧
      Accounts cfg identity path (body.fileParts path) (Agents.senderFromIdentity identity) visible
        calls r := by
  have hlogs := logs_postBroadcast hvis cfg identity path body s
  split at hlogs
  · rename_i r hr
    obtain ⟨visible, before, calls, htrace, hbefore, haccounts⟩ := hlogs
    exact .inr ⟨r, visible, before, calls, hr, htrace, hbefore, haccounts⟩
  · rename_i e he
    exact .inl ⟨e, he, hlogs⟩

/-- The core environment, with a filter that drops what it has already named. -/
def onceEnvironment : Environment :=
  { Environment.core with visibleAgents := fun _ labels => .ok labels.dedup }

/-- A broadcast to the other agent of the small server. -/
theorem broadcast_accounts_for_bob :
    FiltersLabels (exec srvConfig onceEnvironment) ∧
    ∃ r visible before calls,
      (runE (exec srvConfig onceEnvironment)
        (Agents.postBroadcast srvConfig alice "p" (.raw [7])) srvSystem.server).1 = .ok r ∧
      traceE (exec srvConfig onceEnvironment)
        (Agents.postBroadcast srvConfig alice "p" (.raw [7])) srvSystem.server = before ++ calls ∧
      Prelude alice (some "alice:a") visible before ∧
      Accounts srvConfig alice "p" [⟨"p", [7], none⟩] (some "alice:a") visible calls r := by
  have hvis : FiltersLabels (exec srvConfig onceEnvironment) := by
    intro identity labels s visible hvisible
    obtain rfl := Except.ok.inj hvisible
    exact ⟨List.dedup_sublist labels, List.nodup_dedup labels⟩
  refine ⟨hvis, (broadcast_accounts_for_each _ hvis srvConfig alice "p" (.raw [7])
    srvSystem.server).resolve_left ?_⟩
  rintro ⟨e, he, -⟩
  have hok : (runE (exec srvConfig onceEnvironment)
      (Agents.postBroadcast srvConfig alice "p" (.raw [7])) srvSystem.server).1.isOk = true := by
    decide +kernel
  rw [he] at hok
  cases hok

end Cassetta
