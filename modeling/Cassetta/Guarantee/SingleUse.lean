import Cassetta.Guarantee.Capacity
import Cassetta.Server.Writing

/-!
# One token, one bundle

No record of spent upload tokens is kept. What stands in the way of a second bundle is the
directory of the first: a writer is opened only where there is none. This module follows the
calls that carry one token through a run, and shows that they commit at most one bundle as long
as nothing else takes that directory away.
-/

namespace Cassetta

open Prog FileTree

variable {cfg : Config} {env : Environment} {s : Server} {token : Token}

/-! ## The calls that carry a token -/

/-- The path a token is bound to. -/
def Token.bundlePath : Token → String
  | .signed claims _ => claims.bundlePath.getD ""
  | .malformed => ""

/-- There is a directory at a bundle path. -/
def Backend.Occupied (b : Backend) (d : Disk) (path : String) : Prop :=
  d.tree.dirAt (b.location path) = true

instance (b : Backend) (d : Disk) (path : String) : Decidable (b.Occupied d path) :=
  inferInstanceAs (Decidable (_ = true))

/-- A system in which the calls that carry one token are followed: the uploads that were begun
with it, and the number of bundles its calls have committed. -/
structure Spending where
  system : System
  own : List Nat := []
  commits : Nat := 0

namespace Spending

/-- An event is a call that carries the token, or goes on with one. -/
def Carries (token : Token) (t : Spending) : Event → Prop
  | .uploadBegin tok _ => tok = some token
  | .uploadEntry k _ | .uploadEnd k _ => k ∈ t.own
  | .plain (.mcpSendInline tok _) => tok = token
  | _ => False

/-- The uploads begun with the token, after an event. -/
def ownAfter (token : Token) (t : Spending) (after : System) : Event → List Nat
  | .uploadBegin tok _ =>
    if tok = some token ∧ t.system.uploads.length < after.uploads.length then
      t.own ++ [t.system.uploads.length]
    else t.own
  | _ => t.own

instance (token : Token) (t : Spending) : ∀ e, Decidable (t.Carries token e)
  | .uploadBegin tok _ => inferInstanceAs (Decidable (tok = some token))
  | .uploadEntry k _ | .uploadEnd k _ => inferInstanceAs (Decidable (k ∈ t.own))
  | .plain (.mcpSendInline tok _) => inferInstanceAs (Decidable (tok = token))
  | .plain (.putFile ..) | .plain (.listFiles ..) | .plain (.peekFile ..)
  | .plain (.deleteFile ..) | .plain (.peekInbox ..) | .plain (.deleteInbox ..)
  | .plain (.broadcast ..) | .plain (.uploads ..) | .plain (.mcpSendInit ..) | .plain (.mcpPut ..)
  | .plain (.mcpDelete ..) | .plain (.mcpList ..) | .plain (.mcpPeek ..)
  | .plain (.mcpBroadcast ..) | .plain .sweep | .plain .ttlCleanup
  | .list _ | .read _ | .pick _ | .download _ | .chunk _ | .disconnect _ | .sweepClaims
  | .rotate _ | .setKeys _ | .tick _ => .isFalse id

/-- The step, with what it does for the token. -/
def step (cfg : Config) (env : Environment) (token : Token) (t : Spending) (e : Event) :
    Spending :=
  let after := t.system.step cfg env e
  { system := after
    own := t.ownAfter token after e
    commits := t.commits + if t.Carries token e then
      after.server.disk.commits.length - t.system.server.disk.commits.length else 0 }

/-- The token has been committed with, or an upload with it is under way. -/
def InUse (t : Spending) : Prop :=
  0 < t.commits ∨ ∃ k ∈ t.own, (t.system.openUpload k).isSome = true

instance (t : Spending) : Decidable t.InUse := inferInstanceAs (Decidable (_ ∨ _))

/-- While the token is in use, an event that does not carry it leaves its directory in place. -/
def Undisturbed (cfg : Config) (env : Environment) (token : Token) (t : Spending) (e : Event) :
    Prop :=
  t.InUse → ¬t.Carries token e →
    cfg.backend.Occupied t.system.server.disk token.bundlePath →
    cfg.backend.Occupied (t.system.step cfg env e).server.disk token.bundlePath

instance (token : Token) (t : Spending) (e : Event) :
    Decidable (t.Undisturbed cfg env token e) := inferInstanceAs (Decidable (_ → _ → _ → _))

end Spending

/-! ## What the calls do to the directory -/

/-- A path that is occupied stays so while directories are kept. -/
theorem Backend.Occupied.mono {b : Backend} {d d' : Disk} {path : String}
    (h : b.Occupied d path) (hkeep : KeepsDirs d.tree d'.tree) : b.Occupied d' path :=
  Tree.dirAt_iff.mpr (hkeep _ (Tree.dirAt_iff.mp h))

/-- A writer is opened only where there is no directory, and makes one. -/
theorem Backend.openBundleWrite_occupies {b : Backend} {now k : Nat} {path : String} {d d' : Disk}
    (h : b.openBundleWrite now path d = (.ok k, d')) :
    ¬b.Occupied d path ∧ b.Occupied d' path ∧ d'.commits = d.commits := by
  have hopened := Working.openBundleWrite h
  rcases Backend.openBundleWrite_cases (b := b) now path d with
    ⟨e, t, heq, -⟩ | ⟨e, heq⟩ | ⟨t, t', -, hgrown, hmk, heq⟩
  · rw [heq] at h
    cases h
  · rw [heq] at h
    cases h
  · obtain ⟨-, hnone, -, -⟩ := Tree.mkdir_ok hmk
    rw [heq] at h
    obtain ⟨-, rfl⟩ := Prod.mk.inj h
    refine ⟨fun hocc => ?_, Tree.dirAt_iff.mpr (Tree.isDir_iff.mp hopened.isDir).2, rfl⟩
    have hdir : t.get (normalize (b.resolve path)) = some .dir :=
      hgrown.get_some (Tree.dirAt_iff.mp hocc)
    rw [hdir] at hnone
    cases hnone

private theorem Backend.keepsDirs_openBundleWrite (b : Backend) (now : Nat) (path : String)
    (d : Disk) :
    KeepsDirs d.tree (b.openBundleWrite now path d).2.tree := by
  rcases Backend.openBundleWrite_cases (b := b) now path d with
    ⟨e, t, heq, hgrown⟩ | ⟨e, heq⟩ | ⟨t, t', -, hgrown, hmk, heq⟩
  · rw [heq]
    exact fun q => hgrown.get_some
  · rw [heq]
    exact fun _ hq => hq
  · rw [heq]
    exact fun q hq => (Tree.grown_of_mkdir hmk).get_some (hgrown.get_some hq)

private theorem Backend.keepsDirs_writeFile (now handle : Nat) (name : String) (data : Bytes)
    (d : Disk) :
    KeepsDirs d.tree (Backend.writeFile now handle name data d).2.tree := by
  rcases Backend.writeFile_cases now handle name data d with
    ⟨e, heq⟩ | ⟨w, -, -, -, ⟨e, t, heq, hgrown⟩ | ⟨t, t', hgrown, hwr, heq⟩⟩
  · rw [heq]
    exact fun _ hq => hq
  · rw [heq]
    exact fun q => hgrown.get_some
  · rw [heq]
    exact fun q hq => keepsDirs_write hwr q (hgrown.get_some hq)

/-- A commit is logged when it goes through. -/
theorem Backend.commit_logged {now handle : Nat} {m : BundleMeta} {d d' : Disk}
    (h : Backend.commit now handle m d = (.ok (), d')) :
    d'.commits.length = d.commits.length + 1 := by
  rcases Backend.commit_cases now handle m d with
    ⟨e, heq⟩ | ⟨w, -, -, ⟨e, t, heq, -⟩ | ⟨t, t', heq, -⟩⟩
  · rw [heq] at h
    cases h
  · rw [heq] at h
    cases h
  · rw [heq] at h
    obtain ⟨-, rfl⟩ := Prod.mk.inj h
    simp

/-- A commit that fails is not. -/
theorem Backend.commit_unlogged {now handle : Nat} {m : BundleMeta} {e : StorageError} {d d' : Disk}
    (h : Backend.commit now handle m d = (.error e, d')) : d'.commits = d.commits := by
  rcases Backend.commit_cases now handle m d with
    ⟨e', heq⟩ | ⟨w, -, -, ⟨e', t, heq, -⟩ | ⟨t, t', heq, -⟩⟩
  · rw [heq] at h
    obtain ⟨-, rfl⟩ := Prod.mk.inj h
    rfl
  · rw [heq] at h
    obtain ⟨-, rfl⟩ := Prod.mk.inj h
    rfl
  · rw [heq] at h
    cases h

private theorem Backend.abort_commits (now handle : Nat) (d : Disk) :
    (Backend.abort now handle d).commits = d.commits := by
  unfold Backend.abort
  split <;> rfl

private theorem Call.Uncommitting.commits_eq {c : Call} (h : c.Uncommitting) (s : Server) :
    (exec cfg env c s).2.disk.commits = s.disk.commits := by
  cases c with
  | commit handle m => exact h.elim
  | openBundleWrite path =>
    show (cfg.backend.openBundleWrite s.wall path s.disk).2.commits = _
    rcases Backend.openBundleWrite_cases (b := cfg.backend) s.wall path s.disk with
      ⟨e, t, heq, -⟩ | ⟨e, heq⟩ | ⟨t, t', -, -, -, heq⟩
    all_goals exact congrArg (fun r => r.2.commits) heq
  | writeFile handle name data =>
    show (Backend.writeFile s.wall handle name data s.disk).2.commits = _
    rcases Backend.writeFile_cases s.wall handle name data s.disk with
      ⟨e, heq⟩ | ⟨w, -, -, -, ⟨e, t, heq, -⟩ | ⟨t, t', -, -, heq⟩⟩
    all_goals exact congrArg (fun r => r.2.commits) heq
  | abort handle => exact Backend.abort_commits s.wall handle s.disk
  | deleteBundle path =>
    exact (Backend.deleteBundle_rest s.wall path s.disk).2.2
  | _ => rfl

private theorem ClaimHandler.Uncommitting.commits_eq {α : Type} {x : ClaimHandler α}
    (h : x.Uncommitting) (s : Server) :
    (runE (execAny cfg env) x s).2.disk.commits = s.disk.commits := by
  refine runE_invariant (I := fun s' => s'.disk.commits = s.disk.commits) ?_ (h.wpE s) rfl
  rintro s' (c | c) hs hc
  · exact (Call.Uncommitting.commits_eq hc s').trans hs
  · show (execClaim c s').2.disk.commits = _
    rw [execClaim_disk, hs]

/-- A commit that goes through is logged once and keeps the directories; one that does not is
not logged. -/
theorem wpE_commit_logs (handle : Nat) (m : BundleMeta) (s : Server) :
    wpE (exec cfg env) (fun _ _ => True) (commit handle m)
      (fun _ s' => KeepsDirs s.disk.tree s'.disk.tree ∧
        s'.disk.commits.length = s.disk.commits.length + 1)
      (fun _ s' => s'.disk.commits = s.disk.commits) s := by
  have hkeep := Backend.keepsDirs_commit s.wall handle m s.disk
  simp only [commit, wpE_bind, wpE_tryCommit, wpE_orRaise, true_and]
  rcases hc : Backend.commit s.wall handle m s.disk with ⟨r, d'⟩
  rw [hc] at hkeep
  cases r with
  | ok u => exact ⟨hkeep, Backend.commit_logged hc⟩
  | error e => exact Backend.commit_unlogged hc

namespace Upload

/-- An upload is begun only where there is no directory; a refused one takes none away. -/
theorem occupies_begin (token : Token) (bundlePath : String) (s : Server) :
    wpE (exec cfg env) (fun _ _ => True) (begin (some token) bundlePath)
      (fun _ s' => ¬cfg.backend.Occupied s.disk token.bundlePath ∧
        cfg.backend.Occupied s'.disk token.bundlePath)
      (fun _ s' => KeepsDirs s.disk.tree s'.disk.tree) s := by
  have hrefl : KeepsDirs s.disk.tree s.disk.tree := fun _ hq => hq
  unfold begin
  refine (wpE_bind _ _ _).mpr (wpE_mono ?_ (fun _ s₁ hdisk => ?_)
    (wpE_verifyToken_disk token mapJwtError s))
  swap
  · rw [hdisk]
    exact hrefl
  rintro claims s₁ ⟨hdisk, key, rfl⟩
  rw [← hdisk] at hrefl ⊢
  split
  · exact hrefl
  split
  · exact hrefl
  split
  · exact hrefl
  simp only [wpE_bind, wpE_openBundleWrite, true_and]
  have hkeep := Backend.keepsDirs_openBundleWrite cfg.backend s₁.wall (claims.bundlePath.getD "")
    s₁.disk
  rcases hopen : cfg.backend.openBundleWrite s₁.wall (claims.bundlePath.getD "") s₁.disk with
    ⟨r, d₁⟩
  rw [hopen] at hkeep
  cases r with
  | ok k =>
    obtain ⟨hfree, hocc, -⟩ := Backend.openBundleWrite_occupies hopen
    exact ⟨hfree, hocc⟩
  | error e =>
    simp only
    split
    · rename_i heq
      cases heq
    all_goals exact hkeep

/-- An entry that is taken keeps the directories. -/
theorem keepsDirs_entry (task : Task) (info : TarEntry) (s : Server) :
    Ensures (exec cfg env) (entry cfg task info)
      (fun _ s' => KeepsDirs s.disk.tree s'.disk.tree) s := by
  refine (wpE_tryCatch _ _).mpr ?_
  split
  · exact ⟨trivial, trivial⟩
  split
  · exact ⟨trivial, trivial⟩
  split
  · exact ⟨trivial, trivial⟩
  split
  · exact ⟨trivial, trivial⟩
  split
  · exact ⟨trivial, trivial⟩
  simp only [writeFile, wpE_bind, wpE_tryWriteFile, wpE_orRaise, wpE_pure, true_and]
  split
  · exact Backend.keepsDirs_writeFile s.wall task.handle info.name info.data s.disk
  · exact ⟨trivial, trivial⟩

/-- The end of an upload commits once and keeps the directories, or commits nothing. -/
theorem commits_finish (task : Task) (end_ : TarEnd) (s : Server) :
    wpE (exec cfg env) (fun _ _ => True) (finish task end_)
      (fun _ s' => KeepsDirs s.disk.tree s'.disk.tree ∧
        s'.disk.commits.length = s.disk.commits.length + 1)
      (fun _ s' => s'.disk.commits = s.disk.commits) s := by
  refine (wpE_tryCatch _ _).mpr ?_
  simp only [wpE_bind, wpE_abort, wpE_throw, true_and]
  cases end_ with
  | tarError => exact Backend.abort_commits s.wall task.handle s.disk
  | broken => exact Backend.abort_commits s.wall task.handle s.disk
  | complete =>
    simp only
    split
    · exact Backend.abort_commits s.wall task.handle s.disk
    · refine (wpE_bind _ _ _).mpr (wpE_now_reading.mpr ⟨trivial, ?_⟩)
      refine wpE_mono (fun _ _ h => h) (fun _ s₁ h => ?_) (wpE_commit_logs _ _ s.timed)
      exact (Backend.abort_commits s₁.wall task.handle s₁.disk).trans h

end Upload

private theorem keepsDirs_writeInlineFiles (handle : Nat) (decoded : List (String × Bytes))
    (files : List FileRecord) (s : Server) :
    wpE (exec cfg env) (fun _ _ => True) (writeInlineFiles handle decoded files)
      (fun _ s' => KeepsDirs s.disk.tree s'.disk.tree ∧ s'.disk.commits = s.disk.commits)
      (fun _ s' => s'.disk.commits = s.disk.commits) s := by
  induction files generalizing s with
  | nil => exact ⟨fun _ hq => hq, rfl⟩
  | cons f rest ih =>
    unfold writeInlineFiles
    split
    · rfl
    rename_i data hfind
    have hkeep := Backend.keepsDirs_writeFile s.wall handle f.name data s.disk
    have hlog : (Backend.writeFile s.wall handle f.name data s.disk).2.commits = s.disk.commits :=
      @Call.Uncommitting.commits_eq cfg env (.writeFile handle f.name data) trivial s
    simp only [writeFile, wpE_bind, wpE_tryWriteFile, wpE_orRaise, true_and]
    split
    · refine wpE_mono (fun _ s₁ h => ⟨hkeep.trans h.1, h.2.trans hlog⟩)
        (fun _ s₁ h => h.trans hlog) (ih _)
    · exact hlog

/-- An inline send commits once, where there was no directory; a refused one commits nothing and
takes no directory away that was there. -/
theorem commits_cassettaSendInline (token : Token) (files : List SendInlineFile) (s : Server) :
    wpE (exec cfg env) (fun _ _ => True) (cassettaSendInline token files)
      (fun _ s' => ¬cfg.backend.Occupied s.disk token.bundlePath ∧
        cfg.backend.Occupied s'.disk token.bundlePath ∧
        s'.disk.commits.length = s.disk.commits.length + 1)
      (fun _ s' => (cfg.backend.Occupied s.disk token.bundlePath →
        cfg.backend.Occupied s'.disk token.bundlePath) ∧ s'.disk.commits = s.disk.commits) s := by
  unfold cassettaSendInline
  refine (wpE_bind _ _ _).mpr (wpE_mono ?_ (fun _ s₁ hdisk => ?_)
    (wpE_verifyToken_disk token _ s))
  swap
  · rw [hdisk]
    exact ⟨id, rfl⟩
  rintro claims s₁ ⟨hdisk, key, rfl⟩
  rw [← hdisk]
  dsimp only
  split
  · exact ⟨id, rfl⟩
  split
  · exact ⟨id, rfl⟩
  split
  · exact ⟨id, rfl⟩
  split
  · rename_i bundlePath bundleId hpath hid
    have hbound : Token.bundlePath (.signed claims key) = bundlePath := by
      rw [Token.bundlePath, hpath, Option.getD_some]
    rw [hbound]
    simp only [wpE_bind, wpE_openBundleWrite, true_and]
    have hkeep := Backend.keepsDirs_openBundleWrite cfg.backend s₁.wall bundlePath s₁.disk
    have hlog : (cfg.backend.openBundleWrite s₁.wall bundlePath s₁.disk).2.commits =
        s₁.disk.commits :=
          @Call.Uncommitting.commits_eq cfg env (.openBundleWrite bundlePath) trivial s₁
    rcases hopen : cfg.backend.openBundleWrite s₁.wall bundlePath s₁.disk with ⟨r, d₁⟩
    rw [hopen] at hkeep hlog
    cases r with
    | error e =>
      simp only
      split
      · exact ⟨fun h => h.mono hkeep, hlog⟩
      · exact ⟨fun h => h.mono hkeep, hlog⟩
      · exact ⟨fun h => h.mono hkeep, hlog⟩
      · rename_i heq
        cases heq
    | ok handle =>
      obtain ⟨hfree, hocc, -⟩ := Backend.openBundleWrite_occupies hopen
      refine (wpE_tryCatch _ _).mpr ?_
      simp only [wpE_bind, wpE_abort, wpE_throw, true_and, wpE_pure]
      have habort : ∀ s' : Server, s'.disk.commits = d₁.commits →
          (cfg.backend.Occupied s₁.disk bundlePath → cfg.backend.Occupied
              (Backend.abort s'.wall handle s'.disk) bundlePath) ∧
            (Backend.abort s'.wall handle s'.disk).commits = s₁.disk.commits := fun s' h' =>
        ⟨fun h => absurd h hfree, (Backend.abort_commits _ _ _).trans (h'.trans hlog)⟩
      refine wpE_mono (fun _ s₂ hwritten => ?_) (fun _ s₂ h => habort s₂ h)
        (keepsDirs_writeInlineFiles _ _ _ (s₁.setDisk d₁))
      simp only [wpE_now_reading, true_and]
      refine wpE_mono (fun _ s₃ hdone => ?_) (fun _ s₃ h => habort s₃ (h.trans hwritten.2))
        (wpE_commit_logs _ _ s₂.timed)
      refine ⟨hfree, (hocc.mono hwritten.1).mono hdone.1, hdone.2.trans ?_⟩
      show s₂.disk.commits.length + 1 = _
      rw [hwritten.2]
      exact congrArg (fun l => l.length + 1) hlog
  · exact ⟨id, rfl⟩

/-! ## The invariant -/

/-- The calls with the token have committed at most one bundle, or have one upload under way,
and while either is so there is a directory at its path. -/
structure SpentOnce (b : Backend) (token : Token) (t : Spending) : Prop where
  bounded : ∀ k ∈ t.own, k < t.system.uploads.length
  once : t.commits ≤ 1
  closed : 0 < t.commits → ∀ k ∈ t.own, ¬(t.system.openUpload k).isSome = true
  alone : ∀ k ∈ t.own, ∀ k' ∈ t.own, (t.system.openUpload k).isSome = true →
    (t.system.openUpload k').isSome = true → k = k'
  occupied : t.InUse → b.Occupied t.system.server.disk token.bundlePath

/-- Uploads under way may end, and new ones come after them. -/
structure GoesOn (sys sys' : System) : Prop where
  length : sys.uploads.length ≤ sys'.uploads.length
  opened : ∀ k < sys.uploads.length, (sys'.openUpload k).isSome = true →
    (sys.openUpload k).isSome = true

namespace SpentOnce

variable {b : Backend} {t t' : Spending}

/-- Nothing is in use where there is no directory. -/
theorem unused (h : SpentOnce b token t)
    (hfree : ¬b.Occupied t.system.server.disk token.bundlePath) :
    t.commits = 0 ∧ ∀ k ∈ t.own, ¬(t.system.openUpload k).isSome = true := by
  constructor
  · by_contra hpos
    exact hfree (h.occupied (.inl (by omega)))
  · intro k hk ho
    exact hfree (h.occupied (.inr ⟨k, hk, ho⟩))

/-- A step that commits nothing for the token and keeps its directory. -/
theorem idle (h : SpentOnce b token t) (hgo : GoesOn t.system t'.system) (hown : t'.own = t.own)
    (hcommits : t'.commits = t.commits)
    (hkeep : t.InUse → b.Occupied t.system.server.disk token.bundlePath →
      b.Occupied t'.system.server.disk token.bundlePath) : SpentOnce b token t' := by
  have hopened : ∀ k ∈ t.own, (t'.system.openUpload k).isSome = true →
      (t.system.openUpload k).isSome = true := fun k hk => hgo.opened k (h.bounded k hk)
  refine ⟨?_, ?_, ?_, ?_, ?_⟩
  · intro k hk
    exact (h.bounded k (hown ▸ hk)).trans_le hgo.length
  · rw [hcommits]
    exact h.once
  · intro hpos k hk ho
    rw [hown] at hk
    rw [hcommits] at hpos
    exact h.closed hpos k hk (hopened k hk ho)
  · intro k hk k' hk' ho ho'
    rw [hown] at hk hk'
    exact h.alone k hk k' hk' (hopened k hk ho) (hopened k' hk' ho')
  · intro huse
    have huse' : t.InUse := by
      rcases huse with hpos | ⟨k, hk, ho⟩
      · exact .inl (hcommits ▸ hpos)
      · rw [hown] at hk
        exact .inr ⟨k, hk, hopened k hk ho⟩
    exact hkeep huse' (h.occupied huse')

/-- A step that ends an upload with the token; it may have committed it, and then keeps its
directory. -/
theorem ended (h : SpentOnce b token t) (hgo : GoesOn t.system t'.system) (hown : t'.own = t.own)
    {k n : Nat} (hk : k ∈ t.own) (hbefore : (t.system.openUpload k).isSome = true)
    (hafter : ¬(t'.system.openUpload k).isSome = true) (hcommits : t'.commits = t.commits + n)
    (hn : n ≤ 1) (hkeep : 0 < n → b.Occupied t.system.server.disk token.bundlePath →
      b.Occupied t'.system.server.disk token.bundlePath) : SpentOnce b token t' := by
  have hnone : t.commits = 0 := by
    by_contra hpos
    exact h.closed (by omega) k hk hbefore
  have hclosed : ∀ k' ∈ t.own, ¬(t'.system.openUpload k').isSome = true := by
    intro k' hk' ho
    have hsame := h.alone k hk k' hk' hbefore (hgo.opened k' (h.bounded k' hk') ho)
    exact hafter (hsame ▸ ho)
  refine ⟨?_, ?_, ?_, ?_, ?_⟩
  · intro k' hk'
    exact (h.bounded k' (hown ▸ hk')).trans_le hgo.length
  · omega
  · intro _ k' hk'
    exact hclosed k' (hown ▸ hk')
  · intro k' hk' _ _ ho
    exact absurd ho (hclosed k' (hown ▸ hk'))
  · rintro (hpos | ⟨k', hk', ho⟩)
    · exact hkeep (by omega) (h.occupied (.inr ⟨k, hk, hbefore⟩))
    · exact absurd ho (hclosed k' (hown ▸ hk'))

/-- A step that commits at once for the token, where there was no directory. -/
theorem sent (h : SpentOnce b token t) (hgo : GoesOn t.system t'.system) (hown : t'.own = t.own)
    (hcommits : t'.commits = t.commits + 1)
    (hfree : ¬b.Occupied t.system.server.disk token.bundlePath)
    (hocc : b.Occupied t'.system.server.disk token.bundlePath) : SpentOnce b token t' := by
  obtain ⟨hnone, hclosed⟩ := h.unused hfree
  have hclosed' : ∀ k ∈ t'.own, ¬(t'.system.openUpload k).isSome = true := by
    intro k hk ho
    rw [hown] at hk
    exact hclosed k hk (hgo.opened k (h.bounded k hk) ho)
  refine ⟨?_, ?_, fun _ => hclosed', ?_, fun _ => hocc⟩
  · intro k hk
    exact (h.bounded k (hown ▸ hk)).trans_le hgo.length
  · omega
  · intro k hk _ _ ho
    exact absurd ho (hclosed' k hk)

/-- A step that begins an upload with the token, where there was no directory. -/
theorem begun (h : SpentOnce b token t) (hgo : GoesOn t.system t'.system)
    (hown : t'.own = t.own ++ [t.system.uploads.length])
    (hlen : t.system.uploads.length < t'.system.uploads.length)
    (hcommits : t'.commits = t.commits)
    (hfree : ¬b.Occupied t.system.server.disk token.bundlePath)
    (hocc : b.Occupied t'.system.server.disk token.bundlePath) : SpentOnce b token t' := by
  obtain ⟨hnone, hclosed⟩ := h.unused hfree
  have hnew : ∀ k ∈ t'.own, (t'.system.openUpload k).isSome = true →
      k = t.system.uploads.length := by
    intro k hk ho
    rw [hown, List.mem_append, List.mem_singleton] at hk
    rcases hk with hk | hk
    · exact absurd (hgo.opened k (h.bounded k hk) ho) (hclosed k hk)
    · exact hk
  refine ⟨?_, ?_, ?_, ?_, fun _ => hocc⟩
  · intro k hk
    rw [hown, List.mem_append, List.mem_singleton] at hk
    rcases hk with hk | rfl
    · exact (h.bounded k hk).trans hlen
    · exact hlen
  · omega
  · intro hpos
    omega
  · intro k hk k' hk' ho ho'
    rw [hnew k hk ho, hnew k' hk' ho']

end SpentOnce

/-! ## Steps -/

private theorem System.goesOn (cfg : Config) (env : Environment) (sys : System) (e : Event) :
    GoesOn sys (sys.step cfg env e) := by
  have hset : ∀ (j : Nat) (o : Option Upload.Task), (o.isSome = true →
      (sys.openUpload j).isSome = true) → ∀ k < sys.uploads.length,
      ((sys.uploads.set j o)[k]?).join.isSome = true → (sys.openUpload k).isSome = true := by
    intro j o ho k hk hsome
    by_cases hjk : j = k
    · subst hjk
      rw [List.getElem?_set_self hk] at hsome
      exact ho hsome
    · rwa [List.getElem?_set_ne hjk] at hsome
  rcases hrun : runE (execAny cfg env) (e.program cfg sys) sys.server with ⟨r, s'⟩
  have huploads : (sys.step cfg env e).uploads = sys.uploadsAfter e r := by
    simp only [System.step, hrun]
  constructor
  · rw [huploads]
    unfold System.uploadsAfter
    split <;> simp
  · intro k hk ho
    rw [System.openUpload, huploads] at ho
    unfold System.uploadsAfter at ho
    split at ho
    · rwa [List.getElem?_append_left hk] at ho
    · rename_i j info task
      refine hset j _ (fun _ => ?_) k hk ho
      cases hj : sys.openUpload j with
      | some task => rfl
      | none =>
        simp only [Event.program, hj] at hrun
        cases hrun
    · exact hset _ none (by simp) k hk ho
    · exact hset _ none (by simp) k hk ho
    · exact ho

section Steps

variable {t : Spending} {e : Event} {r : Except Exc Reply} {s' : Server}

private theorem Spending.step_disk (token : Token)
    (hrun : runE (execAny cfg env) (e.program cfg t.system) t.system.server = (r, s')) :
    (t.step cfg env token e).system.server.disk = s'.disk := by
  simp only [Spending.step, System.step, hrun, Event.outside_disk]

private theorem Spending.step_uploads (token : Token)
    (hrun : runE (execAny cfg env) (e.program cfg t.system) t.system.server = (r, s')) :
    (t.step cfg env token e).system.uploads = t.system.uploadsAfter e r := by
  simp only [Spending.step, System.step, hrun]

/-- A step of a token counts the commits that it makes. -/
theorem Spending.step_commits
    (hrun : runE (execAny cfg env) (e.program cfg t.system) t.system.server = (r, s'))
    (hc : t.Carries token e) {n : Nat}
    (hlog : s'.disk.commits.length = t.system.server.disk.commits.length + n) :
    (t.step cfg env token e).commits = t.commits + n := by
  have hdisk : (t.system.step cfg env e).server.disk = s'.disk := by
    simp only [System.step, hrun, Event.outside_disk]
  simp only [Spending.step, if_pos hc, hdisk, hlog]
  omega

private theorem SpentOnce.step_uploadBegin (h : SpentOnce cfg.backend token t) (path : String) :
    SpentOnce cfg.backend token (t.step cfg env token (.uploadBegin (some token) path)) := by
  have hspec : wpE (execAny cfg env) (fun _ _ => True)
      (Event.program cfg t.system (.uploadBegin (some token) path))
      (fun r s' => (∃ task, r = .upload task) ∧
        ¬cfg.backend.Occupied t.system.server.disk token.bundlePath ∧
        cfg.backend.Occupied s'.disk token.bundlePath)
      (fun _ s' => KeepsDirs t.system.server.disk.tree s'.disk.tree) t.system.server := by
    refine (wpE_bind _ _ _).mpr (wpE_plain.mpr ?_)
    exact wpE_mono (fun task _ hocc => ⟨⟨task, rfl⟩, hocc⟩) (fun _ _ hkeep => hkeep)
      (Upload.occupies_begin token path t.system.server)
  have hlog : (runE (execAny cfg env) (Event.program cfg t.system (.uploadBegin (some token) path))
      t.system.server).2.disk.commits = t.system.server.disk.commits :=
    ClaimHandler.Uncommitting.commits_eq (OnlyE.bind
      (Upload.uncommitting_begin (some token) path).plain fun _ => onlyE_pure _) _
  have hgo := System.goesOn cfg env t.system (.uploadBegin (some token) path)
  rcases hrun : runE (execAny cfg env) (Event.program cfg t.system (.uploadBegin (some token) path))
    t.system.server with ⟨r, s'⟩
  rw [hrun] at hlog
  have hdisk := Spending.step_disk token hrun
  have huploads := Spending.step_uploads token hrun
  have hcommits : (t.step cfg env token (.uploadBegin (some token) path)).commits = t.commits :=
    Spending.step_commits (n := 0) hrun rfl (congrArg List.length hlog)
  cases r with
  | error e =>
    refine h.idle hgo (if_neg ?_) hcommits fun _ hocc => ?_
    · rintro ⟨-, hlt⟩
      change _ <
        (t.step cfg env token (.uploadBegin (some token) path)).system.uploads.length at hlt
      rw [huploads] at hlt
      exact lt_irrefl _ hlt
    · rw [hdisk]
      exact hocc.mono (wpE_error hspec hrun)
  | ok reply =>
    obtain ⟨⟨task, rfl⟩, hfree, hocc⟩ := wpE_ok hspec hrun
    have hlen : t.system.uploads.length <
        (t.system.step cfg env (.uploadBegin (some token) path)).uploads.length := by
      show _ < (t.step cfg env token (.uploadBegin (some token) path)).system.uploads.length
      rw [huploads]
      simp [System.uploadsAfter]
    exact h.begun hgo (if_pos ⟨rfl, hlen⟩) hlen hcommits hfree (by rw [hdisk]; exact hocc)

/-- The number of an upload that has ended. -/
theorem not_open_of_ended {sys : System} {k : Nat} {uploads : List (Option Upload.Task)}
    (h : sys.uploads = uploads.set k none) : ¬(sys.openUpload k).isSome = true := by
  rw [System.openUpload, h]
  by_cases hk : k < uploads.length
  · simp [List.getElem?_set_self hk]
  · have hnone : (uploads.set k none)[k]? = none :=
      List.getElem?_eq_none (by rw [List.length_set]; exact not_lt.mp hk)
    simp [hnone]

private theorem SpentOnce.step_uploadEntry (h : SpentOnce cfg.backend token t) {k : Nat}
    (hk : k ∈ t.own)
    (info : Upload.TarEntry) :
    SpentOnce cfg.backend token (t.step cfg env token (.uploadEntry k info)) := by
  have hgo := System.goesOn cfg env t.system (.uploadEntry k info)
  rcases hrun : runE (execAny cfg env) (Event.program cfg t.system (.uploadEntry k info))
    t.system.server with ⟨r, s'⟩
  have hdisk := Spending.step_disk token hrun
  have huploads := Spending.step_uploads token hrun
  cases hopen : t.system.openUpload k with
  | none =>
    have hdone : runE (execAny cfg env) (Event.program cfg t.system (.uploadEntry k info))
        t.system.server = (.ok .done, t.system.server) := by
      simp only [Event.program, hopen]
      rfl
    rw [hdone] at hrun
    obtain ⟨rfl, rfl⟩ := Prod.mk.inj hrun
    refine h.idle hgo rfl (Spending.step_commits (n := 0) hdone hk rfl) fun _ hocc => ?_
    rw [hdisk]
    exact hocc
  | some task =>
    have hspec : Ensures (execAny cfg env) (Event.program cfg t.system (.uploadEntry k info))
        (fun _ s' => KeepsDirs t.system.server.disk.tree s'.disk.tree) t.system.server := by
      simp only [Ensures, Event.program, hopen]
      refine (wpE_bind _ _ _).mpr (wpE_plain.mpr ?_)
      exact Upload.keepsDirs_entry task info t.system.server
    have hlog : (runE (execAny cfg env) (Event.program cfg t.system (.uploadEntry k info))
        t.system.server).2.disk.commits = t.system.server.disk.commits := by
      refine ClaimHandler.Uncommitting.commits_eq ?_ _
      simp only [Event.program, hopen]
      exact OnlyE.bind (Upload.uncommitting_entry task info).plain fun _ => onlyE_pure _
    rw [hrun] at hlog
    have hcommits : (t.step cfg env token (.uploadEntry k info)).commits = t.commits :=
      Spending.step_commits (n := 0) hrun hk (congrArg List.length hlog)
    cases r with
    | ok reply =>
      refine h.idle hgo rfl hcommits fun _ hocc => ?_
      rw [hdisk]
      exact hocc.mono (wpE_ok hspec hrun)
    | error e =>
      exact h.ended (n := 0) hgo rfl hk (by rw [hopen]; rfl) (not_open_of_ended huploads) hcommits
        (by omega) (by omega)

private theorem SpentOnce.step_uploadEnd (h : SpentOnce cfg.backend token t) {k : Nat}
    (hk : k ∈ t.own)
    (end_ : Upload.TarEnd) :
    SpentOnce cfg.backend token (t.step cfg env token (.uploadEnd k end_)) := by
  have hgo := System.goesOn cfg env t.system (.uploadEnd k end_)
  rcases hrun : runE (execAny cfg env) (Event.program cfg t.system (.uploadEnd k end_))
    t.system.server with ⟨r, s'⟩
  have hdisk := Spending.step_disk token hrun
  have huploads := Spending.step_uploads token hrun
  cases hopen : t.system.openUpload k with
  | none =>
    have hdone : runE (execAny cfg env) (Event.program cfg t.system (.uploadEnd k end_))
        t.system.server = (.ok .done, t.system.server) := by
      simp only [Event.program, hopen]
      rfl
    rw [hdone] at hrun
    obtain ⟨rfl, rfl⟩ := Prod.mk.inj hrun
    refine h.idle hgo rfl (Spending.step_commits (n := 0) hdone hk rfl) fun _ hocc => ?_
    rw [hdisk]
    exact hocc
  | some task =>
    have hspec : wpE (execAny cfg env) (fun _ _ => True)
        (Event.program cfg t.system (.uploadEnd k end_))
        (fun _ s' => KeepsDirs t.system.server.disk.tree s'.disk.tree ∧
          s'.disk.commits.length = t.system.server.disk.commits.length + 1)
        (fun _ s' => s'.disk.commits = t.system.server.disk.commits) t.system.server := by
      simp only [Event.program, hopen]
      refine (wpE_bind _ _ _).mpr (wpE_plain.mpr ?_)
      exact Upload.commits_finish task end_ t.system.server
    have hbefore : (t.system.openUpload k).isSome = true := by rw [hopen]; rfl
    cases r with
    | ok reply =>
      obtain ⟨hkeep, hlog⟩ := wpE_ok hspec hrun
      refine h.ended hgo rfl hk hbefore (not_open_of_ended huploads)
        (Spending.step_commits hrun hk hlog) le_rfl fun _ hocc => ?_
      rw [hdisk]
      exact hocc.mono hkeep
    | error e =>
      exact h.ended (n := 0) hgo rfl hk hbefore (not_open_of_ended huploads)
        (Spending.step_commits hrun hk (congrArg List.length (wpE_error hspec hrun))) (by omega)
        (by omega)

private theorem SpentOnce.step_sendInline (h : SpentOnce cfg.backend token t)
    (files : List SendInlineFile) :
    SpentOnce cfg.backend token (t.step cfg env token (.plain (.mcpSendInline token files))) := by
  have hgo := System.goesOn cfg env t.system (.plain (.mcpSendInline token files))
  have hspec : wpE (execAny cfg env) (fun _ _ => True)
      (Event.program cfg t.system (.plain (.mcpSendInline token files)))
      (fun _ s' => ¬cfg.backend.Occupied t.system.server.disk token.bundlePath ∧
        cfg.backend.Occupied s'.disk token.bundlePath ∧
        s'.disk.commits.length = t.system.server.disk.commits.length + 1)
      (fun _ s' => (cfg.backend.Occupied t.system.server.disk token.bundlePath →
        cfg.backend.Occupied s'.disk token.bundlePath) ∧
        s'.disk.commits = t.system.server.disk.commits) t.system.server := by
    refine (wpE_bind _ _ _).mpr (wpE_plain.mpr ((wpE_bind _ _ _).mpr ?_))
    exact commits_cassettaSendInline token files t.system.server
  rcases hrun : runE (execAny cfg env)
    (Event.program cfg t.system (.plain (.mcpSendInline token files))) t.system.server with ⟨r, s'⟩
  have hdisk := Spending.step_disk token hrun
  cases r with
  | ok reply =>
    obtain ⟨hfree, hocc, hlog⟩ := wpE_ok hspec hrun
    exact h.sent hgo rfl (Spending.step_commits hrun rfl hlog) hfree (by rw [hdisk]; exact hocc)
  | error e =>
    obtain ⟨hocc, hlog⟩ := wpE_error hspec hrun
    refine h.idle hgo rfl (Spending.step_commits (n := 0) hrun rfl (congrArg List.length hlog))
      fun _ hbefore => ?_
    rw [hdisk]
    exact hocc hbefore

/-- A step that leaves the directory of a token in use to the calls that carry it. -/
theorem SpentOnce.step (h : SpentOnce cfg.backend token t) (he : t.Undisturbed cfg env token e) :
    SpentOnce cfg.backend token (t.step cfg env token e) := by
  by_cases hc : t.Carries token e
  · cases e with
    | uploadBegin tok path =>
      obtain rfl : tok = some token := hc
      exact h.step_uploadBegin path
    | uploadEntry k info => exact h.step_uploadEntry hc info
    | uploadEnd k end_ => exact h.step_uploadEnd hc end_
    | plain req =>
      cases req with
      | mcpSendInline tok files =>
        obtain rfl : tok = token := hc
        exact h.step_sendInline files
      | _ => exact hc.elim
    | _ => exact hc.elim
  · refine h.idle (System.goesOn cfg env t.system e) ?_ ?_ fun huse => he huse hc
    · show t.ownAfter token (t.system.step cfg env e) e = t.own
      cases e with
      | uploadBegin tok path => exact if_neg fun hand => hc hand.1
      | _ => rfl
    · simp only [Spending.step, if_neg hc, Nat.add_zero]

end Steps

/-- In every run that leaves the directory of a token in use to the calls that carry it, these
calls commit at most one bundle. -/
theorem commits_le_one (cfg : Config) (env : Environment) (token : Token) (sys : System)
    {events : List Event}
    (h :
    Runs.Guarded (Spending.step cfg env token) (Spending.Undisturbed cfg env token) ⟨sys, [], 0⟩
      events) :
    (Runs.run (Spending.step cfg env token) ⟨sys, [], 0⟩ events).commits ≤ 1 := by
  have hstart : SpentOnce cfg.backend token ⟨sys, [], 0⟩ := by
    refine ⟨by simp, by simp, by simp, by simp, ?_⟩
    rintro (hpos | ⟨k, hk, -⟩)
    · exact absurd hpos (lt_irrefl 0)
    · cases hk
  exact (h.invariant (I := SpentOnce cfg.backend token) (fun _ _ hs he => hs.step he) hstart).once

/-! ## On a small server -/

/-- The token `alice` gets for one file in the inbox of `bob`. -/
def smallToken : Token := (smallSession ["a"]).token

/-- An upload of that file, under a number. -/
def smallUpload (k : Nat) : List Event :=
  [.uploadBegin (some smallToken) "inbox/bob:b/p", .uploadEntry k ⟨"a", true, 1, [1]⟩,
    .uploadEnd k .complete]

/-- An upload that brings the wrong file, a second one that is committed, and a third. -/
def retriedUploads : List Event :=
  .plain (.uploads alice "bob:b" "p" (smallManifest ["a"])) ::
    .uploadBegin (some smallToken) "inbox/bob:b/p" :: .uploadEntry 0 ⟨"b", true, 1, [1]⟩ ::
    (smallUpload 1 ++ smallUpload 2)

/-- Of the retried uploads one is committed. -/
theorem commits_le_one_retried :
    (smallInit ["a"]).1 = .ok (smallSession ["a"]) ∧
      (Runs.run (Spending.step srvConfig .core smallToken) ⟨srvSystem, [], 0⟩
        retriedUploads).commits = 1 ∧
      (Runs.run (Spending.step srvConfig .core smallToken) ⟨srvSystem, [], 0⟩
        retriedUploads).commits ≤ 1 := by
  have hguard : Runs.Guarded (Spending.step srvConfig .core smallToken)
      (Spending.Undisturbed srvConfig .core smallToken) ⟨srvSystem, [], 0⟩ retriedUploads := by
    decide +kernel
  exact ⟨by decide +kernel, by decide +kernel,
    commits_le_one srvConfig .core smallToken srvSystem hguard⟩

/-- Once `bob` has deleted the bundle, the same token commits another. -/
theorem commits_twice :
    (smallInit ["a"]).1 = .ok (smallSession ["a"]) ∧
      (Runs.run (Spending.step srvConfig .core smallToken) ⟨srvSystem, [], 0⟩
        (.plain (.uploads alice "bob:b" "p" (smallManifest ["a"])) ::
          (smallUpload 0 ++ .plain (.deleteInbox bob "bob:b" "p") :: smallUpload 1))).commits =
          2 := by
  decide +kernel

end Cassetta
