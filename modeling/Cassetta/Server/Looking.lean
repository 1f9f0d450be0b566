import Cassetta.Server.Rules

/-!
# Handlers that only look

Most of what a handler does changes neither the disk nor the claim store. This is a property of
its program alone, whatever the answers to its calls, and is put together here for the parts
that the surfaces share.
-/

namespace Cassetta

open Prog

variable {cfg : Config} {env : Environment}

/-! ## Calls that only look -/

/-- A call that changes neither the disk nor a writer. -/
def Call.Looks : Call → Prop
  | .openBundleWrite _ | .writeFile .. | .commit .. | .abort _ | .deleteBundle _ => False
  | _ => True

/-- A call that changes neither the disk nor the claim store. -/
def AnyCall.Looks : AnyCall → Prop
  | .plain c => c.Looks
  | .claim (.get _) | .claim .iterAll => True
  | .claim _ => False

/-- A call that looks changes neither the disk nor the claims. -/
theorem execAny_of_looks {c : AnyCall} (h : c.Looks) (s : Server) :
    (execAny cfg env c s).2.disk = s.disk ∧ (execAny cfg env c s).2.claims = s.claims := by
  cases c with
  | plain c =>
    refine ⟨?_, exec_claims c s⟩
    have hop : c.toOp s.wall = none := by cases c <;> first | rfl | exact h.elim
    rw [execAny, exec_disk, hop]
  | claim c => cases c <;> first | exact ⟨rfl, rfl⟩ | exact h.elim

/-- A handler made of calls that only look. -/
abbrev Handler.Looks {α : Type} (x : Handler α) : Prop := OnlyE Call.Looks x

section Looks

variable {α : Type}

/-- Raising an error of the storage changes nothing. -/
theorem looks_orRaise (r : Except StorageError α) : (orRaise r).Looks := by cases r <;> trivial

/-- Raising an error of a collaborator changes nothing. -/
theorem looks_orCollaborator (r : Except Unit α) :
    (orCollaborator r).Looks := by cases r <;> trivial

/-- The path check changes nothing. -/
theorem looks_validateOr (allowed : Char → Bool) (path : String)
    (refusal : PathValidationError → Exc) : (validateOr allowed path refusal).Looks := by
  unfold validateOr
  split <;> trivial

/-- The access check changes nothing. -/
theorem looks_enforce (identity : Identity) (resource : Resource) (action : Action) (denied : Exc) :
    (enforce identity resource action denied).Looks := by
  refine OnlyE.bind (onlyE_performE trivial) fun answer => ?_
  refine OnlyE.bind (looks_orCollaborator _) fun allowed => ?_
  split <;> trivial

/-- Sending the head of an answer changes nothing. -/
theorem looks_sendHead (values : List String) : (sendHead values).Looks := by
  unfold sendHead
  split <;> trivial

/-- Counting changes nothing. -/
theorem looks_increment (counter : Counter) : (increment counter).Looks :=
  OnlyE.bind (onlyE_performE trivial) fun _ => looks_orCollaborator _

/-- Reading a manifest changes nothing. -/
theorem looks_readMetaOr (path : String) (missing : Exc) : (readMetaOr path missing).Looks := by
  refine OnlyE.bind (onlyE_performE trivial) fun r => ?_
  split <;> trivial

/-- The expiry check changes nothing. -/
theorem looks_isExpiredByMeta (createdAt : Nat) : (isExpiredByMeta cfg createdAt).Looks := by
  unfold isExpiredByMeta
  split
  · trivial
  · exact OnlyE.bind (onlyE_performE trivial) fun _ => trivial

private theorem looks_computeRemainingTtl (createdAt : Nat) :
    (computeRemainingTtl cfg createdAt).Looks := by
  unfold computeRemainingTtl
  split
  · trivial
  · exact OnlyE.bind (onlyE_performE trivial) fun _ => trivial

private theorem looks_peekFreshOr (path : String) (missing : Exc) :
    (peekFreshOr cfg path missing).Looks := by
  refine OnlyE.bind (looks_readMetaOr path missing) fun m => ?_
  refine OnlyE.bind (looks_isExpiredByMeta _) fun expired => ?_
  split <;> trivial

/-- Reading the files of a bundle changes nothing. -/
theorem looks_collectBundleFiles (path : String) (files : List FileRecord) :
    (collectBundleFiles path files).Looks := by
  induction files with
  | nil => trivial
  | cons f rest ih =>
    refine OnlyE.bind (onlyE_performE trivial) fun r => ?_
    refine OnlyE.bind (looks_orRaise r) fun data => ?_
    exact OnlyE.bind ih fun _ => trivial

/-- Listing bundles changes nothing. -/
theorem looks_listBundles (pre : String) (includeOrphans : Bool) :
    (listBundles pre includeOrphans).Looks :=
  OnlyE.bind (onlyE_performE trivial) fun _ => looks_orRaise _

/-- Making the entries of a listing changes nothing. -/
theorem looks_listingEntries (base : String) (paths : List String) :
    (listingEntries cfg base paths).Looks := by
  induction paths with
  | nil => trivial
  | cons path rest ih =>
    refine OnlyE.bind (onlyE_performE trivial) fun r => ?_
    split
    · exact ih
    · trivial
    · refine OnlyE.bind (looks_isExpiredByMeta _) fun expired => ?_
      split
      · exact ih
      · refine OnlyE.bind (looks_computeRemainingTtl _) fun _ => ?_
        exact OnlyE.bind ih fun _ => trivial

/-- Making a reference payload for the store changes nothing. -/
theorem looks_buildReferencePayloadForStore (path : String) (m : BundleMeta) (recipient : String) :
    (buildReferencePayloadForStore cfg path m recipient).Looks := by
  refine OnlyE.bind ?_ fun _ => trivial
  refine OnlyE.bind (onlyE_performE trivial) fun t => ?_
  exact OnlyE.bind (onlyE_performE trivial) fun _ => trivial

/-- Verifying a token changes nothing. -/
theorem looks_verifyToken (token : Token) (refusal : TokenError → Exc) :
    (verifyToken token refusal).Looks := by
  refine OnlyE.bind (onlyE_performE trivial) fun keys => ?_
  refine OnlyE.bind (onlyE_performE trivial) fun t => ?_
  split <;> trivial

/-- The head of a download only looks; what follows is up to the body. -/
theorem Download.looks_downloadFile (req : Download.Request) :
    (Download.downloadFile cfg req).Looks := by
  unfold Download.downloadFile
  split
  · trivial
  refine OnlyE.bind (looks_verifyToken _ _) fun claims => ?_
  split
  iterate 4 trivial
  split
  · trivial
  split
  · trivial
  split
  · trivial
  split
  · trivial
  split
  · trivial
  refine OnlyE.bind (looks_readMetaOr _ _) fun m => ?_
  split
  · trivial
  refine OnlyE.bind (onlyE_performE trivial) fun r => ?_
  split
  · trivial
  · trivial
  · exact OnlyE.bind (looks_sendHead _) fun _ => trivial

/-- The peeks and the listings of the store. -/
def PlainRequest.Looking : PlainRequest → Prop
  | .listFiles .. | .peekFile .. | .peekInbox .. | .mcpList .. | .mcpPeek .. => True
  | _ => False

/-- A request that looks has a handler that looks. -/
theorem PlainRequest.looks {r : PlainRequest} (h : r.Looking) : (r.handler cfg).Looks := by
  cases r with
  | listFiles identity pre =>
    refine OnlyE.bind ?_ fun _ => trivial
    refine OnlyE.bind (looks_enforce _ _ _ _) fun _ => ?_
    exact OnlyE.bind (looks_listBundles _ _) fun _ => looks_listingEntries _ _
  | peekFile identity path =>
    refine OnlyE.bind ?_ fun _ => trivial
    refine OnlyE.bind (looks_validateOr _ _ _) fun _ => ?_
    exact OnlyE.bind (looks_enforce _ _ _ _) fun _ => looks_peekFreshOr _ _
  | peekInbox identity agent path =>
    refine OnlyE.bind ?_ fun _ => trivial
    refine OnlyE.bind (looks_enforce _ _ _ _) fun _ => ?_
    refine OnlyE.bind (looks_peekFreshOr _ _) fun m => ?_
    exact OnlyE.bind (looks_sendHead _) fun _ => trivial
  | mcpList caller pre =>
    refine OnlyE.bind ?_ fun _ => trivial
    refine OnlyE.bind (looks_enforce _ _ _ _) fun _ => ?_
    refine OnlyE.bind (looks_listBundles _ _) fun _ => ?_
    refine OnlyE.bind (looks_listingEntries _ _) fun entries => ?_
    split
    · trivial
    · exact OnlyE.bind (looks_increment _) fun _ => trivial
  | mcpPeek caller path =>
    refine OnlyE.bind ?_ fun _ => trivial
    unfold Mcp.cassettaPeek
    split
    · trivial
    refine OnlyE.bind (looks_enforce _ _ _ _) fun _ => ?_
    refine OnlyE.bind (looks_peekFreshOr _ _) fun m => ?_
    exact OnlyE.bind (looks_increment _) fun _ => trivial
  | _ => exact h.elim

end Looks

end Cassetta
