import Mathlib
import Cassetta.Guarantee.Cleanup

/-!
# The contract of the claim sweep

`sweep_claims` at one instant, for claims whose creation times are exact numbers or do not parse.
What a pass leaves is described without its order: the claims that are young, and the tree
without the inbox bundles of the old claims that were fetched in full.
-/

namespace Cassetta

open FileTree Prog

/-! ## The pass -/

/-- The instant of a pass, the lifetime of claims, and what `_iso_to_epoch` makes of the
`created_at` of a claim; none is a `ValueError`. -/
structure SweepClock where
  now : ℚ
  ttl : ℤ
  epoch : ClaimRecord → Option ℚ

namespace SweepClock

/-- `age < ttl_s`. -/
def young (k : SweepClock) (claim : ClaimRecord) : Bool :=
  (k.epoch claim).any fun created => k.now - created < k.ttl

end SweepClock

namespace Background

/-- What `sweep_claims` does with a claim that is old enough. -/
def sweepExpired (claim : ClaimRecord) : ClaimHandler Unit := do
  match ← plain (readBundleMeta claim.bundlePath) with
  | .error .fileNotFound => deleteClaim claim.jti
  | .error _ => pure ()
  | .ok m =>
    if m.files ≠ [] ∧ m.files.all (fun f => f.name ∈ claim.filesFetched) ∧
        startsWith claim.bundlePath "inbox/" then do
      let _ ← plain (deleteBundle claim.bundlePath)
      deleteClaim claim.jti
    else deleteClaim claim.jti

/-- What `sweep_claims` does with one claim. -/
def sweepOne (k : SweepClock) (claim : ClaimRecord) : ClaimHandler Unit :=
  match k.epoch claim with
  | none => deleteClaim claim.jti
  | some created => if k.now - created < k.ttl then pure () else sweepExpired claim

/-- The loop of `sweep_claims` over the claims in the order they were listed. -/
def sweepListed (k : SweepClock) : List ClaimRecord → ClaimHandler Unit
  | [] => pure ()
  | claim :: rest => do
    sweepOne k claim
    sweepListed k rest

end Background

/-- The clock of a server: microseconds, and creation times that parse. -/
def Config.sweepClock (cfg : Config) (t : Nat) : SweepClock :=
  ⟨t / 1000000, cfg.limits.downloadClaimTtl, fun claim => some (claim.createdAt / 1000000)⟩

private theorem Config.sweepClock_lt (cfg : Config) (t created : Nat) :
    ((t : ℚ) / 1000000 - created / 1000000 < ((cfg.limits.downloadClaimTtl : ℤ) : ℚ)) ↔
      t < created + secondsToMicros cfg.limits.downloadClaimTtl := by
  rw [← sub_div, div_lt_iff₀ (by norm_num), sub_lt_iff_lt_add', secondsToMicros]
  exact_mod_cast Iff.rfl

/-- The sweep of the server is this pass on its own clock. -/
theorem Background.sweepEach_eq (cfg : Config) (t : Nat) (claims : List ClaimRecord) :
    Background.sweepEach cfg t claims = Background.sweepListed (cfg.sweepClock t) claims := by
  induction claims with
  | nil => rfl
  | cons claim rest ih =>
    have hone : Background.sweepClaim cfg t claim =
        Background.sweepOne (cfg.sweepClock t) claim := by
      unfold Background.sweepClaim Background.sweepOne
      simp only [Config.sweepClock, cfg.sweepClock_lt]
      rfl
    rw [Background.sweepEach, Background.sweepListed, ih, hone]

/-! ## One claim -/

/-- The claim is old and all of its inbox bundle has been fetched. -/
def Fetched (k : SweepClock) (claim : ClaimRecord) (m : BundleMeta) : Prop :=
  (k.epoch claim).isSome = true ∧ k.young claim = false ∧
    startsWith claim.bundlePath "inbox/" = true ∧ m.files ≠ [] ∧
      ∀ f ∈ m.files, f.name ∈ claim.filesFetched

instance (k : SweepClock) (claim : ClaimRecord) (m : BundleMeta) : Decidable (Fetched k claim m) :=
  inferInstanceAs (Decidable (_ ∧ _ ∧ _ ∧ _ ∧ _))

/-- The server after one claim of a pass. -/
def sweepStep (cfg : Config) (k : SweepClock) (s : Server) (claim : ClaimRecord) : Server :=
  if k.young claim = true then s
  else
    let s' := if (cfg.backend.readBundleMeta s.disk.tree claim.bundlePath).any (Fetched k claim)
      then s.setDisk (cfg.backend.deleteBundle s.wall claim.bundlePath s.disk).2 else s
    s'.setClaims (s'.claims.delete claim.jti)

section Pass

variable {cfg : Config} {env : Environment} {k : SweepClock}

private theorem runE_sweepOne (claim : ClaimRecord) (s : Server) :
    runE (execAny cfg env) (Background.sweepOne k claim) s =
      (.ok (), sweepStep cfg k s claim) := by
  unfold Background.sweepOne sweepStep SweepClock.young
  cases hepoch : k.epoch claim with
  | none =>
    have hnot : (cfg.backend.readBundleMeta s.disk.tree claim.bundlePath).any
        (Fetched k claim) = false := by
      cases cfg.backend.readBundleMeta s.disk.tree claim.bundlePath <;> simp [Fetched, hepoch]
    simp only [hnot]
    rfl
  | some created =>
    dsimp only
    simp only [Option.any_some, decide_eq_true_eq]
    split
    · rfl
    · next hold =>
      have hyoung : k.young claim = false := by simp [SweepClock.young, hepoch, hold]
      have hread := (@runE_execAny_plain cfg _ env (readBundleMeta claim.bundlePath) s).trans
        (runE_readBundleMeta_plain claim.bundlePath s)
      rw [Background.sweepExpired, runE_bind_ok hread]
      cases cfg.backend.readBundleMeta s.disk.tree claim.bundlePath with
      | none => rfl
      | some m =>
        have hiff : Fetched k claim m ↔ m.files ≠ [] ∧
            m.files.all (fun f => f.name ∈ claim.filesFetched) = true ∧
              startsWith claim.bundlePath "inbox/" = true := by
          simp only [Fetched, hepoch, hyoung, Option.isSome_some, true_and, List.all_eq_true,
            decide_eq_true_eq]
          tauto
        simp only [Option.any_some, decide_eq_true_eq, hiff]
        split <;> rfl

private theorem runE_sweepListed (claims : List ClaimRecord) (s : Server) :
    runE (execAny cfg env) (Background.sweepListed k claims) s =
      (.ok (), claims.foldl (sweepStep cfg k) s) := by
  induction claims generalizing s with
  | nil => rfl
  | cons claim rest ih =>
    rw [Background.sweepListed, runE_bind_ok (runE_sweepOne claim s), ih, List.foldl_cons]

/-! ## The claims that are left -/

namespace ClaimStore

/-- A sidecar is found under its `jti`. -/
theorem get_of_mem {cs : ClaimStore} (h : (cs.sidecars.map (·.jti)).Nodup) {c : ClaimRecord}
    (hc : c ∈ cs.sidecars) : cs.get c.jti = some c := by
  unfold get
  cases hf : cs.sidecars.find? (·.jti = c.jti) with
  | none => simpa using List.find?_eq_none.mp hf c hc
  | some c' =>
    have hjti : c'.jti = c.jti := by simpa using List.find?_some hf
    rw [List.inj_on_of_nodup_map h (List.mem_of_find?_eq_some hf) hc hjti]

/-- The store without some of its claims and the locks of their paths. -/
def without (cs : ClaimStore) (old : List ClaimRecord) : ClaimStore :=
  { sidecars := cs.sidecars.filter (· ∉ old)
    locks := cs.locks.filter fun l => ∀ c ∈ old, l.1 ≠ c.bundlePath }

private theorem delete_without {cs : ClaimStore} (h : (cs.sidecars.map (·.jti)).Nodup)
    {c : ClaimRecord}
    (hc : c ∈ cs.sidecars) (old : List ClaimRecord) :
    (cs.delete c.jti).without old = cs.without (c :: old) := by
  have hsame : ∀ x ∈ cs.sidecars, x.jti = c.jti ↔ x = c := fun x hx =>
    ⟨List.inj_on_of_nodup_map h hx hc, congrArg _⟩
  unfold without delete
  rw [get_of_mem h hc]
  dsimp only
  rw [List.filter_filter, List.filter_filter]
  congr 1
  · refine List.filter_congr fun x hx => ?_
    simp [hsame x hx, Bool.and_comm]
  · refine List.filter_congr fun l _ => ?_
    simp [Bool.and_comm]

/-- Deletes one after the other. -/
theorem foldl_delete {cs : ClaimStore} (h : (cs.sidecars.map (·.jti)).Nodup)
    {old : List ClaimRecord} (hold : (old.map (·.jti)).Nodup) (hsub : ∀ c ∈ old, c ∈ cs.sidecars) :
    old.foldl (fun cs c => cs.delete c.jti) cs = cs.without old := by
  induction old generalizing cs with
  | nil =>
    have hside : cs.sidecars.filter (· ∉ []) = cs.sidecars := by simp
    have hlocks : (cs.locks.filter fun l => ∀ c ∈ ([] : List ClaimRecord), l.1 ≠ c.bundlePath) =
        cs.locks := by simp
    rw [List.foldl_nil, without, hside, hlocks]
  | cons c rest ih =>
    rw [List.map_cons, List.nodup_cons] at hold
    rw [List.foldl_cons, ih, delete_without h (hsub c (.head _))]
    · exact h.sublist (List.filter_sublist.map _)
    · exact hold.2
    · intro x hx
      refine mem_delete.mpr ⟨hsub x (.tail _ hx), fun hjti => ?_⟩
      exact hold.1 (List.mem_map.mpr ⟨x, hx, hjti⟩)

end ClaimStore

private theorem sweepStep_claims (s : Server) (claim : ClaimRecord) :
    (sweepStep cfg k s claim).claims =
      if k.young claim = true then s.claims else s.claims.delete claim.jti := by
  unfold sweepStep
  split
  · rfl
  · dsimp only
    split <;> rfl

private theorem foldl_sweepStep_claims (order : List ClaimRecord) (s : Server) :
    (order.foldl (sweepStep cfg k) s).claims =
      (order.filter fun c => !k.young c).foldl (fun cs c => cs.delete c.jti) s.claims := by
  induction order generalizing s with
  | nil => rfl
  | cons claim rest ih =>
    rw [List.foldl_cons, ih, sweepStep_claims]
    cases hyoung : k.young claim with
    | true =>
      rw [List.filter_cons_of_neg (by simp [hyoung])]
      rfl
    | false =>
      rw [List.filter_cons_of_pos (by simp [hyoung])]
      rfl

/-! ## The bundles that are left -/

/-- Claims on different bundles, whose paths are in their one spelling, and committed bundles none
of which reaches into another. -/
structure SweepReady (cfg : Config) (s : Server) : Prop where
  jtis : (s.claims.sidecars.map (·.jti)).Nodup
  paths : (s.claims.sidecars.map (·.bundlePath)).Nodup
  normal : ∀ c ∈ s.claims.sidecars, Canonical c.bundlePath
  apart : ∀ loc m loc' m', cfg.backend.metaAt s.disk.tree loc = some m →
    cfg.backend.metaAt s.disk.tree loc' = some m' → loc ≠ loc' → ¬Reaches s.disk.tree loc loc' m'

/-- A path in normal form is spelled by its location. -/
theorem Backend.resolve_canonical (b : Backend) {path : String} (h : Canonical path) :
    b.resolve path = spell (b.location path) ∧ b.location path = b.dataLoc ++ segments path := by
  have hres : b.resolve path = spell (b.dataLoc ++ segments path) := by
    rw [resolve, joinPath, relative_of_canonical h, steps_of_canonical h, dataRoot_eq,
      spell_append]
    rfl
  have hloc : b.location path = b.dataLoc ++ segments path := by
    rw [location, hres, normalize_spell]
  exact ⟨by rw [hres, hloc], hloc⟩

/-- A location whose bundle an old claim has fetched in full. -/
def FetchedAt (cfg : Config) (k : SweepClock) (claims : List ClaimRecord) (loc : List String)
    (m : BundleMeta) : Prop :=
  ∃ c ∈ claims, cfg.backend.location c.bundlePath = loc ∧ Fetched k c m

instance (claims : List ClaimRecord) (loc : List String) (m : BundleMeta) :
    Decidable (FetchedAt cfg k claims loc m) := inferInstanceAs (Decidable (∃ c ∈ claims, _ ∧ _))

/-- The condition on which a pass removes a directory. -/
def removes (cfg : Config) (k : SweepClock) (claims : List ClaimRecord) (t : DataTree)
    (loc : List String) : Bool :=
  (cfg.backend.metaAt t loc).any fun m => FetchedAt cfg k claims loc m

private theorem steady_removes (cfg : Config) (k : SweepClock) (claims : List ClaimRecord) :
    Tree.Steady (removes cfg k claims) :=
  cfg.backend.steady_metaAt fun loc m => FetchedAt cfg k claims loc m

/-- Paths in normal form that differ lead to different places. -/
theorem location_inj {claims : List ClaimRecord} (hpaths : (claims.map (·.bundlePath)).Nodup)
    (hnormal : ∀ c ∈ claims, Canonical c.bundlePath) {c c' : ClaimRecord} (hc : c ∈ claims)
    (hc' : c' ∈ claims)
    (h : cfg.backend.location c.bundlePath = cfg.backend.location c'.bundlePath) : c = c' := by
  rw [(cfg.backend.resolve_canonical (hnormal c hc)).2,
    (cfg.backend.resolve_canonical (hnormal c' hc')).2, List.append_cancel_left_eq] at h
  exact List.inj_on_of_nodup_map hpaths hc hc' (segments_injective h)

/-- Where only one claim leads, the condition is its own. -/
theorem fetchedAt_iff {claims : List ClaimRecord} (hpaths : (claims.map (·.bundlePath)).Nodup)
    (hnormal : ∀ c ∈ claims, Canonical c.bundlePath) {c : ClaimRecord} (hc : c ∈ claims)
    {m : BundleMeta} :
    FetchedAt cfg k claims (cfg.backend.location c.bundlePath) m ↔ Fetched k c m := by
  constructor
  · rintro ⟨c', hc', hloc, hf⟩
    rwa [location_inj hpaths hnormal hc' hc hloc] at hf
  · exact fun hf => ⟨c, hc, rfl, hf⟩

private theorem sweepStep_tree {claims : List ClaimRecord}
    (hpaths : (claims.map (·.bundlePath)).Nodup)
    (hnormal : ∀ c ∈ claims, Canonical c.bundlePath) {c : ClaimRecord} (hc : c ∈ claims)
    (s : Server) :
    (sweepStep cfg k s c).disk.tree = Tree.removeIf (removes cfg k claims) s.disk.tree
      (cfg.backend.location c.bundlePath) := by
  obtain ⟨hres, hloc⟩ := cfg.backend.resolve_canonical (hnormal c hc)
  have hne : cfg.backend.location c.bundlePath ≠ [] := by
    rw [hloc]
    exact List.append_ne_nil_of_right_ne_nil _ (segments_ne_nil _)
  have hcond : removes cfg k claims s.disk.tree (cfg.backend.location c.bundlePath) =
      (cfg.backend.readBundleMeta s.disk.tree c.bundlePath).any (Fetched k c) := by
    rw [removes, Backend.readBundleMeta_eq hres]
    simp only [fetchedAt_iff hpaths hnormal hc]
  have hyoung : k.young c = true →
      (cfg.backend.readBundleMeta s.disk.tree c.bundlePath).any (Fetched k c) = false := by
    intro hyoung
    cases cfg.backend.readBundleMeta s.disk.tree c.bundlePath <;> simp [Fetched, hyoung]
  unfold sweepStep Tree.removeIf
  rw [hcond]
  split
  · next h =>
    rw [hyoung h]
    rfl
  · split
    · next hany =>
      have hdir : s.disk.tree.dirAt (cfg.backend.location c.bundlePath) = true := by
        rw [← hcond] at hany
        exact Tree.dirAt_iff.mpr ((steady_removes cfg k claims).dir hany)
      exact (Backend.deleteBundle_tree hres hne).trans (if_pos hdir)
    · rfl

private theorem foldl_sweepStep_tree {claims : List ClaimRecord}
    (hpaths : (claims.map (·.bundlePath)).Nodup) (hnormal : ∀ c ∈ claims, Canonical c.bundlePath)
    {order : List ClaimRecord} (hsub : ∀ c ∈ order, c ∈ claims) (s : Server) :
    (order.foldl (sweepStep cfg k) s).disk.tree = Tree.prune (removes cfg k claims)
      (order.map fun c => cfg.backend.location c.bundlePath) s.disk.tree := by
  induction order generalizing s with
  | nil => rfl
  | cons c rest ih =>
    rw [List.foldl_cons, ih fun x hx => hsub x (.tail _ hx),
      sweepStep_tree hpaths hnormal (hsub c (.head _))]
    rfl

/-! ## One pass -/

/-- The server after a pass that lists the claims in this order. -/
def sweepPass (cfg : Config) (env : Environment) (k : SweepClock) (order : List ClaimRecord)
    (s : Server) : Server :=
  (runE (execAny cfg env) (Background.sweepListed k order) s).2

private theorem sweepPass_eq (order : List ClaimRecord) (s : Server) :
    sweepPass cfg env k order s = order.foldl (sweepStep cfg k) s := by
  rw [sweepPass, runE_sweepListed]

/-- What a pass leaves of the claims. -/
theorem sweepPass_claims {s : Server} (h : SweepReady cfg s) {order : List ClaimRecord}
    (horder : order.Perm s.claims.sidecars) :
    (sweepPass cfg env k order s).claims =
      { sidecars := s.claims.sidecars.filter k.young
        locks := s.claims.locks.filter fun l =>
          ∀ c ∈ s.claims.sidecars, k.young c = false → l.1 ≠ c.bundlePath } := by
  have hsub : ∀ c ∈ order.filter (fun c => !k.young c), c ∈ s.claims.sidecars := fun c hc =>
    horder.mem_iff.mp (List.mem_filter.mp hc).1
  have hnodup : ((order.filter fun c => !k.young c).map (·.jti)).Nodup :=
    ((horder.map _).nodup_iff.mpr h.jtis).sublist (List.filter_sublist.map _)
  have hmem : ∀ c, c ∈ order.filter (fun c => !k.young c) ↔
      c ∈ s.claims.sidecars ∧ k.young c = false := by
    intro c
    rw [List.mem_filter, horder.mem_iff, Bool.not_eq_true']
  rw [sweepPass_eq, foldl_sweepStep_claims, ClaimStore.foldl_delete h.jtis hnodup hsub,
    ClaimStore.without]
  congr 1
  · refine List.filter_congr fun c hc => ?_
    simp [hmem, hc]
  · refine List.filter_congr fun l _ => ?_
    simp only [hmem, and_imp]

/-- What a pass leaves of the tree. -/
theorem sweepPass_pruned {s : Server} (h : SweepReady cfg s) {order : List ClaimRecord}
    (horder : order.Perm s.claims.sidecars) :
    Pruned s.disk.tree (sweepPass cfg env k order s).disk.tree (fun dir =>
      ∃ m, cfg.backend.metaAt s.disk.tree dir = some m ∧
        FetchedAt cfg k s.claims.sidecars dir m) := by
  rw [sweepPass_eq, foldl_sweepStep_tree h.paths h.normal fun c hc => horder.mem_iff.mp hc]
  refine (pruned_prune (steady_removes ..) ?_ s.disk.tree).congr fun dir => ?_
  · intro loc hloc
    obtain ⟨c, hc, rfl⟩ := List.mem_map.mp hloc
    rw [(cfg.backend.resolve_canonical (h.normal c (horder.mem_iff.mp hc))).2]
    exact List.append_ne_nil_of_right_ne_nil _ (segments_ne_nil _)
  · simp only [removes, Option.any_eq_true, decide_eq_true_eq]
    constructor
    · rintro ⟨-, m, hm, hf⟩
      exact ⟨m, hm, hf⟩
    · rintro ⟨m, hm, c, hc, hloc, hf⟩
      refine ⟨?_, m, hm, c, hc, hloc, hf⟩
      rw [← hloc]
      exact List.mem_map_of_mem (horder.mem_iff.mpr hc)

/-- A pass over young claims changes nothing. -/
theorem foldl_sweepStep_young {order : List ClaimRecord} (h : ∀ c ∈ order, k.young c = true)
    (s : Server) : order.foldl (sweepStep cfg k) s = s := by
  induction order with
  | nil => rfl
  | cons c rest ih =>
    rw [List.foldl_cons, sweepStep, if_pos (h c (.head _))]
    exact ih fun x hx => h x (.tail _ hx)

/-- Two prunings by the same directories leave the same tree. -/
theorem Pruned.unique {t t₁ t₂ : DataTree} {D : List String → Prop} (h₁ : Pruned t t₁ D)
    (h₂ : Pruned t t₂ D) (q : List String) : t₁.get q = t₂.get q := by
  by_cases hq : q = []
  · subst hq
    simp
  · rcases h₁.2 q hq with ⟨⟨dir, hD, hp⟩, hnone⟩ | ⟨hno, hsame⟩
    · rcases h₂.2 q hq with ⟨-, hnone₂⟩ | ⟨hno₂, -⟩
      · rw [hnone, hnone₂]
      · exact absurd hp (hno₂ dir hD)
    · rcases h₂.2 q hq with ⟨⟨dir, hD, hp⟩, -⟩ | ⟨-, hsame₂⟩
      · exact absurd hp (hno dir hD)
      · rw [hsame, hsame₂]

/-- The bundle of a claim goes when the claim is old and has fetched all of it, and only then. -/
theorem sweepPass_gone_iff {s : Server} (h : SweepReady cfg s) {order : List ClaimRecord}
    (horder : order.Perm s.claims.sidecars) {c : ClaimRecord} (hc : c ∈ s.claims.sidecars)
    {m : BundleMeta}
    (hm : cfg.backend.metaAt s.disk.tree (cfg.backend.location c.bundlePath) = some m) :
    (sweepPass cfg env k order s).disk.tree.get (cfg.backend.location c.bundlePath) = none ↔
      Fetched k c m := by
  have hne : cfg.backend.location c.bundlePath ≠ [] := by
    rw [(cfg.backend.resolve_canonical (h.normal c hc)).2]
    exact List.append_ne_nil_of_right_ne_nil _ (segments_ne_nil _)
  rw [← fetchedAt_iff h.paths h.normal hc]
  rcases
    (@sweepPass_pruned cfg env k s h order horder).2 _ hne with ⟨⟨dir, ⟨m', hm', hf⟩, hp⟩, hnone⟩ |
    ⟨hno, hsame⟩
  · refine ⟨fun _ => ?_, fun _ => hnone⟩
    by_cases hdir : dir = cfg.backend.location c.bundlePath
    · subst hdir
      rw [hm'] at hm
      cases hm
      exact hf
    · exact absurd (.inl hp) (h.apart dir m' _ m hm' hm hdir)
  · constructor
    · intro hnone
      rw [hsame, Backend.dir_of_metaAt hm] at hnone
      cases hnone
    · intro hf
      exact absurd (List.prefix_refl _) (hno _ ⟨m, hm, hf⟩)

/-- A bundle that no old claim has fetched in full is as it was. -/
theorem sweepPass_keeps {s : Server} (h : SweepReady cfg s) {order : List ClaimRecord}
    (horder : order.Perm s.claims.sidecars) {loc : List String} {m : BundleMeta}
    (hm : cfg.backend.metaAt s.disk.tree loc = some m)
    (hnot : ¬FetchedAt cfg k s.claims.sidecars loc m) :
    cfg.backend.KeepsBundle s.disk.tree (sweepPass cfg env k order s).disk.tree loc m := by
  refine ((sweepPass_pruned h horder).without.keeps_iff hm).mpr ?_
  rintro dir ⟨m', hm', hf⟩
  by_cases hdir : dir = loc
  · subst hdir
    rw [hm'] at hm
    cases hm
    exact absurd hf hnot
  · exact h.apart dir m' loc m hm' hm hdir

/-- One pass of the claim sweep, in any order: it comes to its end, keeps the young claims and
drops the others with their locks, deletes the bundle of a claim exactly when the claim is old,
parses, and has fetched all of a non-empty inbox bundle, and leaves all else of the tree and every
other bundle as it was. Another order leaves the same claims and the same tree, and a second pass
at the same instant changes nothing. -/
theorem sweepClaims_contract (cfg : Config) (env : Environment) (k : SweepClock) {s : Server}
    (h : SweepReady cfg s) {order : List ClaimRecord} (horder : order.Perm s.claims.sidecars) :
    let s' := sweepPass cfg env k order s
    (runE (execAny cfg env) (Background.sweepListed k order) s).1 = .ok () ∧
    s'.claims =
      { sidecars := s.claims.sidecars.filter k.young
        locks := s.claims.locks.filter fun l =>
          ∀ c ∈ s.claims.sidecars, k.young c = false → l.1 ≠ c.bundlePath } ∧
    (∀ c ∈ s.claims.sidecars, k.young c = true → c ∈ s'.claims.sidecars ∧
      ∀ m, cfg.backend.metaAt s.disk.tree (cfg.backend.location c.bundlePath) = some m →
        cfg.backend.KeepsBundle s.disk.tree s'.disk.tree (cfg.backend.location c.bundlePath) m) ∧
    (∀ c ∈ s.claims.sidecars, ∀ m,
      cfg.backend.metaAt s.disk.tree (cfg.backend.location c.bundlePath) = some m →
      (s'.disk.tree.get (cfg.backend.location c.bundlePath) = none ↔ Fetched k c m)) ∧
    (∀ loc m, cfg.backend.metaAt s.disk.tree loc = some m →
      (∀ c ∈ s.claims.sidecars, cfg.backend.location c.bundlePath = loc → ¬Fetched k c m) →
      cfg.backend.KeepsBundle s.disk.tree s'.disk.tree loc m) ∧
    Pruned s.disk.tree s'.disk.tree (fun dir => ∃ m, cfg.backend.metaAt s.disk.tree dir = some m ∧
      ∃ c ∈ s.claims.sidecars, cfg.backend.location c.bundlePath = dir ∧ Fetched k c m) ∧
    (∀ order' : List ClaimRecord, order'.Perm s.claims.sidecars →
      (sweepPass cfg env k order' s).claims = s'.claims ∧
        ∀ q, (sweepPass cfg env k order' s).disk.tree.get q = s'.disk.tree.get q) ∧
    ∀ order' : List ClaimRecord, order'.Perm s'.claims.sidecars →
      sweepPass cfg env k order' s' = s' := by
  intro s'
  have hclaims : s'.claims = _ := sweepPass_claims h horder
  refine ⟨by rw [runE_sweepListed], hclaims, fun c hc hyoung => ⟨?_, fun m hm =>
    sweepPass_keeps h horder hm fun hf => ?_⟩, fun c hc m hm => sweepPass_gone_iff h horder hc hm,
    fun loc m hm hnot => sweepPass_keeps h horder hm ?_, sweepPass_pruned h horder,
    fun order' horder' => ⟨?_, ?_⟩, fun order' horder' => ?_⟩
  · rw [hclaims]
    exact List.mem_filter.mpr ⟨hc, hyoung⟩
  · have hold := ((fetchedAt_iff h.paths h.normal hc).mp hf).2.1
    rw [hyoung] at hold
    cases hold
  · rintro ⟨c, hc, hloc, hf⟩
    exact hnot c hc hloc hf
  · exact (sweepPass_claims h horder').trans hclaims.symm
  · exact (sweepPass_pruned h horder').unique (sweepPass_pruned h horder)
  · refine (sweepPass_eq order' s').trans (foldl_sweepStep_young (fun c hc => ?_) s')
    have hmem := horder'.mem_iff.mp hc
    rw [hclaims] at hmem
    exact (List.mem_filter.mp hmem).2

/-! ### Claims that come to different ends -/

/-- A bundle in the inbox of `bob` is opened, filled and committed. -/
def inboxWrite (handle : Nat) (path : String) (names : List String) : List BackendOp :=
  .openBundleWrite 0 path :: names.map (.writeFile 0 handle · [1]) ++
    [.commit 0 handle (smallMeta names)]

/-- Four inbox bundles with a claim on each: fetched in full, fetched in part, claimed a moment
ago, and claimed at a time that does not parse. -/
def fetchedServer : Server :=
  { srvSystem.server with
    disk := Runs.run srvBackend.step (Disk.init srvTree)
      (inboxWrite 0 "inbox/bob:b/p" ["a"] ++ inboxWrite 1 "inbox/bob:b/q" ["a", "b"] ++
        inboxWrite 2 "inbox/bob:b/r" ["a"] ++ inboxWrite 3 "inbox/bob:b/u" ["a"])
    claims :=
      { sidecars :=
          [⟨1, "inbox/bob:b/p", 7, "bob:b", 5000000, ["a"]⟩,
            ⟨2, "inbox/bob:b/q", 7, "bob:b", 5000000, ["a"]⟩,
            ⟨3, "inbox/bob:b/r", 7, "bob:b", 600000000, ["a"]⟩,
            ⟨4, "inbox/bob:b/u", 7, "bob:b", 5000000, ["a"]⟩]
        locks := [("inbox/bob:b/p", 1), ("inbox/bob:b/q", 2), ("inbox/bob:b/r", 3),
          ("inbox/bob:b/u", 4)] } }

/-- Ten minutes later; the `created_at` of the fourth claim is no time. -/
def tenMinutes : SweepClock :=
  ⟨605, 600, fun claim => if claim.jti = 4 then none else some (claim.createdAt / 1000000)⟩

private theorem fetchedServer_ready : SweepReady srvConfig fetchedServer := by
  refine ⟨by decide, by decide, by decide, fun loc m loc' m' hm hm' hne => ?_⟩
  have hall : ∀ e ∈ fetchedServer.disk.tree.entries, e.1.getLast? = some bundleManifest →
      ∀ e' ∈ fetchedServer.disk.tree.entries, e'.1.getLast? = some bundleManifest →
      e.1.dropLast ≠ e'.1.dropLast →
      ∀ m' ∈ (srvConfig.backend.metaAt fetchedServer.disk.tree e'.1.dropLast).toList,
        ¬Reaches fetchedServer.disk.tree e.1.dropLast e'.1.dropLast m' := by decide +kernel
  have hentry : ∀ loc m, srvConfig.backend.metaAt fetchedServer.disk.tree loc = some m →
      ∃ n, (loc ++ [bundleManifest], n) ∈ fetchedServer.disk.tree.entries := by
    intro loc m hm
    obtain ⟨blob, hget, -⟩ := Backend.metaAt_some hm
    exact ⟨_, (Tree.get_eq_some_iff (by simp)).mp hget⟩
  obtain ⟨n, hn⟩ := hentry loc m hm
  obtain ⟨n', hn'⟩ := hentry loc' m' hm'
  simpa [hm'] using hall _ hn (by simp) _ hn' (by simp) (by simpa using hne)

/-- The claim fetched in full goes with its bundle, the two other old ones go without theirs, and
the young one stays. -/
theorem sweepClaims_contract_fetched :
    (sweepPass srvConfig .core tenMinutes fetchedServer.claims.sidecars fetchedServer).claims =
        { sidecars := [⟨3, "inbox/bob:b/r", 7, "bob:b", 600000000, ["a"]⟩]
          locks := [("inbox/bob:b/r", 3)] } ∧
      (sweepPass srvConfig .core tenMinutes fetchedServer.claims.sidecars
        fetchedServer).disk.tree.get ["srv", "data", "inbox", "bob:b", "p"] = none ∧
      srvBackend.KeepsBundle fetchedServer.disk.tree
        (sweepPass srvConfig .core tenMinutes fetchedServer.claims.sidecars
          fetchedServer).disk.tree ["srv", "data", "inbox", "bob:b", "q"] (smallMeta ["a", "b"]) ∧
      srvBackend.KeepsBundle fetchedServer.disk.tree
        (sweepPass srvConfig .core tenMinutes fetchedServer.claims.sidecars
          fetchedServer).disk.tree ["srv", "data", "inbox", "bob:b", "r"] (smallMeta ["a"]) ∧
      srvBackend.KeepsBundle fetchedServer.disk.tree
        (sweepPass srvConfig .core tenMinutes fetchedServer.claims.sidecars
          fetchedServer).disk.tree ["srv", "data", "inbox", "bob:b", "u"] (smallMeta ["a"]) := by
  obtain ⟨-, hclaims, hyoung, hgone, hrest, -⟩ := sweepClaims_contract srvConfig .core tenMinutes
    fetchedServer_ready (List.Perm.refl fetchedServer.claims.sidecars)
  refine ⟨hclaims.trans (by decide +kernel), ?_, ?_, ?_, ?_⟩
  · exact (hgone ⟨1, "inbox/bob:b/p", 7, "bob:b", 5000000, ["a"]⟩ (.head _) (smallMeta ["a"])
      (by decide +kernel)).mpr (by decide +kernel)
  · exact hrest _ _ (by decide +kernel) (by decide +kernel)
  · exact (hyoung ⟨3, "inbox/bob:b/r", 7, "bob:b", 600000000, ["a"]⟩ (by decide +kernel)
      (by decide +kernel)).2 (smallMeta ["a"]) (by decide +kernel)
  · exact hrest _ _ (by decide +kernel) (by decide +kernel)

end Pass

end Cassetta
