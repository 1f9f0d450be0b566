import Cassetta.Guarantee.Claiming

/-!
# One live pick for each bundle

A pick leaves a claim in the store, and a second pick of the same path is refused for as long
as the claim is there. The claim outlives the token: it is released when its age reaches the
token's lifetime, and it was written after the token was signed. What it does not cover is a
second spelling of the path, since claims are keyed by the string.
-/

namespace Cassetta

open FileTree Prog

variable {cfg : Config} {env : Environment} {sys : System}

/-! ## The property -/

/-- Of two tokens that picks have handed out for one committed bundle, one has expired. -/
def NotBoth (now : Nat) (t t' : Handed) : Prop :=
  t.picked = true → t'.picked = true → ∀ m n, t.found = some (.manifest m n) →
    t'.found = some (.manifest m n) → t.Expired now ∨ t'.Expired now

instance (now : Nat) (t t' : Handed) : Decidable (NotBoth now t t') :=
  match h : t.found with
  | some (.manifest m n) => decidable_of_iff
      (t.picked = true → t'.picked = true → t'.found = some (.manifest m n) →
        t.Expired now ∨ t'.Expired now) (by simp [NotBoth, h, and_imp])
  | some (.raw _) => .isTrue (by simp [NotBoth, h])
  | none => .isTrue (by simp [NotBoth, h])

/-- No committed bundle has two picks in force. -/
def PickedOnce (sys : System) : Prop := sys.handed.Pairwise (NotBoth sys.server.wall)

/-! ## The condition on each pick -/

/-- A path a pick may be after has no step up, and no claim is held on the same location
under another spelling. -/
def PickClear (cfg : Config) (sys : System) : Event → Prop
  | .pick r => ∀ p ∈ r.targets cfg sys.server.disk, Step.up ∉ cfg.backend.resolve p ∧
      ∀ c ∈ sys.server.claims.sidecars,
        cfg.backend.location c.bundlePath = cfg.backend.location p → c.bundlePath = p
  | _ => True

instance (cfg : Config) (sys : System) : ∀ e, Decidable (PickClear cfg sys e)
  | .pick r => inferInstanceAs (Decidable (∀ p ∈ r.targets cfg sys.server.disk, _))
  | .plain _ | .list _ | .read _ | .download _ | .chunk _ | .disconnect _ | .uploadBegin .. |
    .uploadEntry .. | .uploadEnd .. | .sweepClaims | .rotate _ | .setKeys _ | .tick _ =>
    .isTrue trivial

/-! ## The invariant -/

/-- As long as a picked bundle is in place and its token in force, the claim is held. -/
def HeldOn (cfg : Config) (handed : List Handed) (s : Server) : Prop :=
  ∀ t ∈ handed, t.picked = true → ∀ m n, t.found = some (.manifest m n) →
    s.disk.tree.fileAt (t.manifestLoc cfg.backend) = some (.manifest m n) →
    ¬t.Expired s.wall → ∃ c ∈ s.claims.sidecars, t.claims.jti = some c.jti

/-- A picked token names a path without a step up, and the bundle it was handed out for was
committed there. -/
def PlacedOn (cfg : Config) (handed : List Handed) (d : Disk) : Prop :=
  ∀ t ∈ handed, t.picked = true →
    Step.up ∉ cfg.backend.resolve (t.claims.bundlePath.getD "") ∧
      ∀ m n, t.found = some (.manifest m n) →
        ∃ c, d.commits[n]? = some c ∧ c.loc ++ [bundleManifest] = t.manifestLoc cfg.backend

structure Single (cfg : Config) (sys : System) : Prop where
  known : Known cfg sys
  numbered : Numbered sys.server.disk
  placed : PlacedOn cfg sys.handed sys.server.disk
  held : HeldOn cfg sys.handed sys.server
  once : PickedOnce sys

/-- A delete at a path without a step up leaves no manifest there. -/
theorem Backend.deleteBundle_manifest {b : Backend} {path : String}
    (h : Step.up ∉ b.resolve path) (now : Nat) (d : Disk) :
    (b.deleteBundle now path d).2.tree.fileAt (b.location path ++ [bundleManifest]) = none := by
  rw [deleteBundle_fileAt]
  split
  · rfl
  · rename_i hnot
    refine Option.eq_none_iff_forall_ne_some.mpr fun blob hblob => hnot ⟨?_, List.prefix_append _ _⟩
    have hdir := Tree.get_dropLast (Tree.fileAt_eq_some_iff.mp hblob)
    rw [List.dropLast_concat] at hdir
    rw [eq_spell_normalize h]
    exact Tree.isDir_spell.mpr hdir

/-- A claim goes only when the bundle of its token is gone or the token has expired. -/
theorem Single.released {e : Event} {s : Server} {jti : Id} (h : Single cfg sys)
    (huse : ClaimUse cfg sys e s (.claim (.delete jti))) {t : Handed} (ht : t ∈ sys.handed)
    (hpicked : t.picked = true) (hj : t.claims.jti = some jti) :
    s.disk.tree.fileAt (t.manifestLoc cfg.backend) = none ∨ t.Expired s.wall := by
  rcases huse with ⟨k, o, -, ho, rfl, now, d, hd⟩ | ⟨-, c, hc, rfl, hold⟩
  · left
    obtain ⟨t', ht', htj', htp'⟩ :=
      h.known.streams o (List.mem_of_getElem? (Option.join_eq_some_iff.mp ho))
    obtain rfl := h.known.own t ht t' ht' (hj.trans htj'.symm)
    have hup := (h.placed t ht hpicked).1
    rw [htp', Option.getD_some] at hup
    rw [Handed.manifestLoc, htp', Option.getD_some, hd]
    exact Backend.deleteBundle_manifest hup now d
  · right
    obtain ⟨-, exp, hexp, hle⟩ := h.known.paired t ht c hc hj
    intro e he
    obtain rfl := Option.some.inj (hexp.symm.trans he)
    exact hle.trans hold

/-- What the calls of an event keep. -/
structure SingleOn (cfg : Config) (sys : System) (s : Server) : Prop where
  numbered : Numbered s.disk
  commits : sys.server.disk.commits <+: s.disk.commits
  held : HeldOn cfg sys.handed s

/-- A call keeps the claims single. -/
theorem SingleOn.execAny {e : Event} (h : Single cfg sys) (s : Server) (c : AnyCall)
    (hs : SingleOn cfg sys s) (huse : ClaimUse cfg sys e s c) :
    SingleOn cfg sys (execAny cfg env c s).2 := by
  cases c with
  | plain c =>
    refine ⟨hs.numbered.exec c, hs.commits.trans (exec_commits c s), ?_⟩
    intro t ht hpicked m n hfound hblob hexp
    rw [Cassetta.execAny, exec_claims]
    have hexp' : ¬t.Expired s.wall := fun he => hexp (he.mono (exec_wall_le c s))
    rcases exec_fileAt hblob with hold | hput
    · exact hs.held t ht hpicked m n hfound hold hexp'
    · obtain ⟨k, hk, -⟩ := (h.placed t ht hpicked).2 m n hfound
      have hlt := (List.getElem?_eq_some_iff.mp (getElem?_of_extends hs.commits hk)).1
      unfold Call.puts at hput
      split at hput
      · exact absurd (BackendOp.puts_manifest hput) hlt.ne
      · cases hput
  | claim c =>
    have hdisk := execClaim_disk c s
    have hwall := execClaim_wall c s
    refine ⟨by rw [Cassetta.execAny, hdisk]; exact hs.numbered,
      by rw [Cassetta.execAny, hdisk]; exact hs.commits, ?_⟩
    intro t ht hpicked m n hfound hblob hexp
    rw [Cassetta.execAny, hdisk] at hblob
    rw [Cassetta.execAny, hwall] at hexp
    obtain ⟨k, hk, hj⟩ := hs.held t ht hpicked m n hfound hblob hexp
    cases c with
    | issue k' =>
      change ∃ c ∈ (s.claims.issue k').2.sidecars, t.claims.jti = some c.jti
      rcases ClaimStore.issue_cases k' s.claims with heq | ⟨-, -, heq⟩
      · rw [heq]
        exact ⟨k, hk, hj⟩
      · rw [heq]
        exact ⟨k, List.mem_append_left _ hk, hj⟩
    | get jti => exact ⟨k, hk, hj⟩
    | iterAll => exact ⟨k, hk, hj⟩
    | markFetched jti name =>
      obtain ⟨k', hk', hjti⟩ := ClaimStore.jti_mem_markFetched hk jti name
      exact ⟨k', hk', hjti ▸ hj⟩
    | delete jti =>
      by_cases hjk : k.jti = jti
      · subst hjk
        rcases h.released huse ht hpicked hj with hgone | hexp'
        · rw [hgone] at hblob
          cases hblob
        · exact absurd hexp' hexp
      · exact ⟨k, ClaimStore.mem_delete.mpr ⟨hk, hjk⟩, hj⟩

/-! ## One event -/

/-- A token that was claimed for has a claim of its own on a bundle without one. -/
theorem Claimed.issued {s s' : Server} {path : String} {claims : Claims}
    (h : Claimed cfg s s' path claims) :
    s.claims.locked path = false ∧ ∃ c ∈ s'.claims.sidecars, claims.jti = some c.jti := by
  obtain ⟨m, recipient, iat, jti, createdAt, rfl, -, -, hissue⟩ := h
  rcases ClaimStore.issue_cases ⟨jti, path, m.bundleId, recipient, createdAt, []⟩ s.claims with
    heq | ⟨hfree, -, heq⟩
  · rw [hissue] at heq
    cases heq
  · rw [hissue] at heq
    rw [(Prod.mk.inj heq).2]
    exact ⟨hfree, _, List.mem_append_right _ (List.mem_singleton_self _), rfl⟩

/-- A pick that goes through finds no earlier token of its bundle in force. -/
theorem Single.picked {s' : Server} {r : PickRequest} {path : String} {t t' : Handed}
    (h : Single cfg sys) (hclear : PickClear cfg sys (.pick r))
    (hpath : path ∈ r.targets cfg sys.server.disk)
    (hnew : HandedOut cfg sys.server s' (.pick r) path t')
    (hfree : sys.server.claims.locked path = false) (ht : t ∈ sys.handed) :
    NotBoth s'.wall t t' := by
  intro hpicked _ m n hfound hfound'
  left
  by_contra hexp
  have hexp' : ¬t.Expired sys.server.wall := fun he => hexp (he.mono hnew.signed.wall)
  obtain ⟨c, hc, hloc⟩ := (h.placed t ht hpicked).2 m n hfound
  rw [hnew.found, Backend.manifestBlob, hnew.signed.disk] at hfound'
  obtain ⟨c', hc', hloc'⟩ := h.numbered _ _ _ hfound'
  obtain rfl := Option.some.inj (hc.symm.trans hc')
  rw [hloc'] at hloc
  obtain ⟨k, hk, hj⟩ := h.held t ht hpicked m n hfound (hloc ▸ hfound') hexp'
  have hkp := (h.known.paired t ht k hk hj).1
  rw [Handed.manifestLoc, hkp, Option.getD_some] at hloc
  have heq := (hclear path hpath).2 k hk (List.append_cancel_right hloc).symm
  have hlocked := ClaimStore.mem_locks_iff.mpr ⟨k.jti, h.known.sound.held k hk⟩
  rw [heq, hfree] at hlocked
  cases hlocked

/-- An event whose pick meets the condition leaves one token in force for each bundle. -/
theorem Single.step (sys : System) (e : Event) (h : Single cfg sys)
    (hg : sys.Genuine e ∧ PickClear cfg sys e) : Single cfg (sys.step cfg env e) := by
  obtain ⟨hnum, hcommits, hheld⟩ : SingleOn cfg sys (sys.step cfg env e).server := by
    refine System.step_server (SingleOn.execAny h) (fun s hs => ?_) (sys.usesClaims e)
      ⟨h.numbered, List.prefix_refl _, h.held⟩
    refine ⟨?_, ?_, fun t ht hpicked m n hfound hblob hexp => ?_⟩
    · rw [Event.outside_disk]
      exact hs.numbered
    · rw [Event.outside_disk]
      exact hs.commits
    · rw [Event.outside_claims]
      rw [Event.outside_disk] at hblob
      exact hs.held t ht hpicked m n hfound hblob fun he => hexp (he.mono (e.le_outside_wall s))
  have hwall : sys.server.wall ≤ (sys.step cfg env e).server.wall :=
    System.step_server (I := fun s => sys.server.wall ≤ s.wall)
      (fun s c hs _ => hs.trans (execAny_wall_le c s)) (fun s hs => hs.trans (e.le_outside_wall s))
      (sys.usesClaims e) le_rfl
  refine ⟨h.known.step hg.1, hnum, ?_, ?_, ?_⟩
  · intro t ht hpicked
    rcases System.step_handed ht with hold | ⟨path, hnew⟩
    · refine ⟨(h.placed t hold hpicked).1, fun m n hfound => ?_⟩
      obtain ⟨c, hc, hloc⟩ := (h.placed t hold hpicked).2 m n hfound
      exact ⟨c, getElem?_of_extends hcommits hc, hloc⟩
    · obtain ⟨r, rfl, hpath, -⟩ := hnew.claimed hpicked
      rw [Handed.manifestLoc, hnew.signed.bundlePath, Option.getD_some]
      refine ⟨(hg.2 path hpath).1, fun m n hfound => ?_⟩
      rw [hnew.found] at hfound
      obtain ⟨c, hc, hloc⟩ := hnum _ _ _ hfound
      exact ⟨c, hc, by rw [hloc]⟩
  · intro t ht hpicked m n hfound hblob hexp
    rcases System.step_handed ht with hold | ⟨path, hnew⟩
    · exact hheld t hold hpicked m n hfound hblob hexp
    · obtain ⟨r, rfl, -, hclaimed⟩ := hnew.claimed hpicked
      exact hclaimed.issued.2
  · refine List.pairwise_append.mpr ⟨h.once.imp fun hb hp hp' m n hf hf' => ?_, ?_, ?_⟩
    · exact (hb hp hp' m n hf hf').imp (·.mono hwall) (·.mono hwall)
    · rcases e.hands_cases cfg _ _ with hnil | ⟨u, hu⟩
      · rw [hnil]
        exact List.Pairwise.nil
      · rw [hu]
        exact List.pairwise_singleton _ _
    · intro t ht t' ht' hp hp'
      obtain ⟨path, hnew⟩ := System.handedOut ht'
      obtain ⟨r, rfl, hpath, hclaimed⟩ := hnew.claimed hp'
      exact h.picked hg.2 hpath hnew hclaimed.issued.1 ht hp hp'

/-! ## Runs -/

/-- A server that has handed out nothing and holds no claims. -/
theorem single_boot (hnum : Numbered sys.server.disk) (hclaims : sys.server.claims = {})
    (hhanded : sys.handed = []) (hstreams : sys.streams = []) : Single cfg sys := by
  refine ⟨⟨?_, ?_, ?_, ?_, ?_, ?_⟩, hnum, ?_, ?_, ?_⟩ <;>
    simp [hclaims, hhanded, hstreams, PlacedOn, HeldOn, PickedOnce]
  exact ClaimStore.sound_empty

/-- In every run in which no path is picked with a step up in it, or under a second spelling
while a claim is held on its location, every committed bundle has at most one pick in force. -/
theorem run_pickedOnce (cfg : Config) (env : Environment) {sys : System}
    (hnum : Numbered sys.server.disk) (hclaims : sys.server.claims = {})
    (hhanded : sys.handed = []) (hstreams : sys.streams = []) (events : List Event)
    (hg : Runs.Guarded (System.step cfg env)
      (fun sys e => sys.Genuine e ∧ PickClear cfg sys e) sys events) :
    PickedOnce (sys.run cfg env events) :=
  (hg.invariant Single.step (single_boot hnum hclaims hhanded hstreams)).once

/-- A pick, a second one that is refused, and a third after the first token has expired and
its claim was swept. -/
theorem run_pickedOnce_again :
    PickedOnce (srvSystem.run srvConfig .core
      [.plain (.broadcast alice "p" (.raw [1])), .pick (.rest bob "bob:b" "p"),
        .pick (.rest bob "bob:b" "p"), .tick 300000000, .sweepClaims,
        .pick (.rest bob "bob:b" "p")]) ∧
    (srvSystem.run srvConfig .core
      [.plain (.broadcast alice "p" (.raw [1])), .pick (.rest bob "bob:b" "p"),
        .pick (.rest bob "bob:b" "p"), .tick 300000000, .sweepClaims,
        .pick (.rest bob "bob:b" "p")]).handed.length = 2 := by
  refine ⟨run_pickedOnce srvConfig .core ?_ rfl rfl rfl _ (by decide +kernel), by decide +kernel⟩
  intro l m n hf
  change srvTree.fileAt _ = _ at hf
  rw [srvTree_fileAt] at hf
  cases hf

/-- Two picks of one bundle under two spellings of its path. -/
theorem run_not_pickedOnce :
    ¬PickedOnce (srvSystem.run srvConfig .core
      [.plain (.broadcast alice "p" (.raw [1])), .pick (.rest bob "bob:b" "p"),
        .pick (.mcp ⟨some bob, some "bob:b"⟩ "./p")]) := by
  unfold PickedOnce
  decide +kernel

end Cassetta
