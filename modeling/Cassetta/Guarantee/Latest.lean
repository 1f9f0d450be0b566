import Mathlib
import Cassetta.Guarantee.ListPick

/-!
# The latest bundle and the head of the listing

A pick of `latest` goes through an inbox with a comparison of its own. It finds the newest bundle
that is not past its time, whether there is a claim on it or not, while the listing leaves out
what has been claimed. Neither comes to its end past a manifest that cannot be read. This module
puts the two next to each other at one instant.
-/

namespace Cassetta

open Prog FileTree

/-! ## The first of the greatest -/

section Greatest

variable {α β γ : Type} [LinearOrder β] {f : α → β}

/-- The head of a stable descending sort is the first of the greatest. -/
theorem head?_insertionSort (f : α → β) (l : List α) :
    (l.insertionSort fun a c => f c ≤ f a).head? = l.argmax f := by
  induction l with
  | nil => rfl
  | cons a l ih =>
    rw [List.argmax_cons, ← ih, List.insertionSort_cons]
    cases l.insertionSort fun a c => f c ≤ f a with
    | nil => rfl
    | cons b l =>
      by_cases h : f b ≤ f a
      · simp [List.orderedInsert, h, not_lt.mpr h]
      · simp [List.orderedInsert, h, not_le.mp h]

/-- Leaving out others does not change it. -/
theorem argmax_filter {p : α → Prop} [DecidablePred p] {l : List α} {x : α}
    (h : l.argmax f = some x) (hx : p x) : (l.filter p).argmax f = some x := by
  induction l generalizing x with
  | nil => cases h
  | cons a l ih =>
    rw [List.argmax_cons] at h
    cases hl : l.argmax f with
    | none =>
      obtain rfl := List.argmax_eq_none.mp hl
      rw [hl] at h
      obtain rfl := Option.some.inj h
      simp [hx]
    | some c =>
      rw [hl] at h
      dsimp only at h
      split at h
      · rename_i hlt
        obtain rfl := Option.some.inj h
        have hrest := ih hl hx
        by_cases ha : p a
        · rw [List.filter_cons_of_pos (by simpa using ha), List.argmax_cons, hrest]
          exact if_pos hlt
        · rw [List.filter_cons_of_neg (by simpa using ha)]
          exact hrest
      · rename_i hge
        obtain rfl := Option.some.inj h
        rw [List.filter_cons_of_pos (by simpa using hx), List.argmax_cons]
        cases hrest : (l.filter p).argmax f with
        | none => rfl
        | some d =>
          have hmem := (List.mem_filter.mp (List.argmax_mem hrest)).1
          have hle := List.le_of_mem_argmax hmem hl
          exact if_neg fun hlt => hge (hlt.trans_le hle)

private theorem argmax_map (g : γ → α) (l : List γ) :
    (l.map g).argmax f = (l.argmax fun x => f (g x)).map g := by
  induction l with
  | nil => rfl
  | cons a l ih =>
    rw [List.map_cons, List.argmax_cons, List.argmax_cons, ih]
    cases l.argmax fun x => f (g x) with
    | none => rfl
    | some c =>
      dsimp only [Option.map_some]
      split <;> rfl

/-- Of two that stand first, the greater one decides, and the first if they are equal. -/
theorem argmax_cons_cons (a b : α) (l : List α) :
    (a :: b :: l).argmax f = ((if f a < f b then b else a) :: l).argmax f := by
  simp only [List.argmax, List.foldl_cons, List.argAux]
  split <;> rfl

end Greatest

variable {cfg : Config} {env : Environment} {g : Garble cfg.backend} {s s₀ s' : Server}
  {agent : String}

/-! ## The newest bundle -/

/-- The bundle at a path, when its time is not up. -/
def freshAt (cfg : Config) (s : Server) (path : String) : Option (String × BundleMeta) :=
  (cfg.backend.readBundleMeta s.disk.tree path).bind fun m =>
    if PastTtl cfg m.createdAt s.wall then none else some (path, m)

/-- The bundles of an inbox that are not past their time, in the order of the walk. -/
def freshBundles (cfg : Config) (s : Server) (agent : String) : List (String × BundleMeta) :=
  match cfg.backend.listBundles s.disk (inboxPath agent "") false with
  | .ok refs => (refs.map (·.path)).filterMap (freshAt cfg s)
  | .error _ => []

/-- When a bundle was made. -/
def bornAt (x : String × BundleMeta) : Nat := x.2.createdAt

/-- The one that was made last; of several that were made at once, the first. -/
def newest (cfg : Config) (s : Server) (agent : String) : Option (String × BundleMeta) :=
  (freshBundles cfg s agent).argmax bornAt

private theorem freshAt_eq_some_iff {path : String} {x : String × BundleMeta} :
    freshAt cfg s path = some x ↔ Fresh cfg s path x.2 ∧ path = x.1 := by
  rw [freshAt, Option.bind_eq_some_iff, Fresh]
  constructor
  · rintro ⟨m, hread, hm⟩
    split at hm
    · cases hm
    · rename_i hfresh
      cases hm
      exact ⟨⟨hread, hfresh⟩, rfl⟩
  · rintro ⟨⟨hread, hfresh⟩, rfl⟩
    exact ⟨x.2, hread, if_neg hfresh⟩

private theorem shown_eq_map (base path : String) :
    shown cfg s base path = (freshAt cfg s path).map fun x => (removePrefix x.1 base, x.2) := by
  rw [shown, freshAt, Option.map_bind]
  congr 1
  funext m
  simp only [Function.comp_apply]
  split <;> rfl

/-- The loop of a pick of the latest bundle finds the first of the newest. -/
theorem instant_newestBundle (h : Instant s₀ s) (best : Option (String × BundleMeta))
    (paths : List String) :
    Returns (exec cfg env) (newestBundle cfg best paths)
      (fun found s' => Instant s₀ s' ∧
        found = (best.toList ++ paths.filterMap (freshAt cfg s₀)).argmax bornAt) s := by
  induction paths generalizing best s with
  | nil => exact ⟨h, by cases best <;> rfl⟩
  | cons path rest ih =>
    have hskip : freshAt cfg s₀ path = none → ∀ {s₁ : Server}, Instant s₀ s₁ →
        Returns (exec cfg env) (newestBundle cfg best rest)
          (fun found s' => Instant s₀ s' ∧
            found = (best.toList ++ (path :: rest).filterMap (freshAt cfg s₀)).argmax bornAt)
          s₁ := by
      intro hnone s₁ h₁
      rw [List.filterMap_cons_none hnone]
      exact ih h₁ best
    unfold newestBundle
    refine (wpE_bind _ _ _).mpr (wpE_readBundleMeta.mpr ⟨trivial, ?_⟩)
    rw [h.disk]
    cases hread : cfg.backend.readBundleMeta s₀.disk.tree path with
    | none => exact hskip (by rw [freshAt, hread]; rfl) h
    | some m =>
      refine (wpE_bind _ _ _).mpr (wpE_mono (fun expired s₁ hexp => ?_) (fun _ _ hfalse => hfalse)
        (instant_isExpiredByMeta h m.createdAt))
      split
      · rename_i hpast
        refine hskip ?_ hexp.1
        rw [freshAt, hread]
        exact if_pos (hexp.2.mp hpast)
      · rename_i hfresh
        have hfound : freshAt cfg s₀ path = some (path, m) :=
          freshAt_eq_some_iff.mpr ⟨⟨hread, fun hpast => hfresh (hexp.2.mpr hpast)⟩, rfl⟩
        rw [List.filterMap_cons_some hfound]
        cases best with
        | none => exact ih hexp.1 (some (path, m))
        | some b =>
          have hstep := @argmax_cons_cons _ _ _ bornAt b (path, m)
            (rest.filterMap (freshAt cfg s₀))
          simp only [Option.toList_some, List.singleton_append, hstep]
          by_cases hlt : b.2.createdAt < m.createdAt
          · have hlt' : bornAt b < bornAt (path, m) := hlt
            rw [if_pos hlt']
            simp only [hlt, if_true]
            exact ih hexp.1 (some (path, m))
          · have hlt' : ¬bornAt b < bornAt (path, m) := hlt
            rw [if_neg hlt']
            simp only [hlt, if_false]
            exact ih hexp.1 (some b)

section Walk

variable {refs : List Backend.BundleRef}
  (hrefs : cfg.backend.listBundles s₀.disk (inboxPath agent "") false = .ok refs)
include hrefs

/-- A pick of `latest` goes on with the newest bundle. -/
theorem runE_resolvePick_latest (h : Instant s₀ s) (noFiles missing : Exc) :
    ∃ s₁, Instant s₀ s₁ ∧
      runE (exec cfg env) (Inbox.resolvePick cfg agent "latest" noFiles missing) s =
        (match newest cfg s₀ agent with
          | some found => .ok found
          | none => .error noFiles, s₁) := by
  have hlist : runE (exec cfg env) (listBundles (inboxPath agent "") false) s = (.ok refs, s) := by
    rw [runE_listBundles, h.disk, hrefs]
  obtain ⟨found, s₁, hrun, h₁, hfound⟩ :=
    returns_iff_run.mp (@instant_newestBundle cfg env s s₀ h none (refs.map (·.path)))
  have hnewest : newest cfg s₀ agent = found := by
    rw [newest, freshBundles, hrefs, hfound]
    rfl
  refine ⟨s₁, h₁, ?_⟩
  rw [Inbox.resolvePick, if_pos rfl, runE_bind_ok hlist, runE_bind_ok hrun, hnewest]
  cases found <;> rfl

/-- The head of a listing is the first of the newest that no young sidecar hides. -/
theorem instant_listing_head [DecidablePred (ActiveClaim cfg s₀)] (h : Instant s₀ s) :
    Returns (execAny cfg env) (Inbox.listing cfg agent "")
      (fun entries _ => entries.head?.map (fun e => (e.path, e.bundle)) =
        (((freshBundles cfg s₀ agent).filter fun x => ¬ActiveClaim cfg s₀ x.1).argmax bornAt).map
          fun x => (removePrefix x.1 (inboxPath agent ""), x.2)) s := by
  unfold Inbox.listing
  refine (wpE_bind _ _ _).mpr (wpE_mono (fun hidden s₁ hhidden => ?_) (fun _ _ hfalse => hfalse)
    (instant_hiddenPaths h))
  have hlist : runE (exec cfg env) (listBundles (inboxPath agent "") false) s₁ =
      (.ok refs, s₁) := by
    rw [runE_listBundles, hhidden.1.disk, hrefs]
  refine (wpE_bind _ _ _).mpr (wpE_plain.mpr (returns_iff_run.mpr ⟨refs, s₁, hlist, ?_⟩))
  refine (wpE_bind _ _ _).mpr (wpE_plain.mpr ?_)
  refine wpE_mono (fun entries s₂ hentries => ?_) (fun _ _ hfalse => hfalse)
    (instant_shown hhidden.1 (inboxPath agent "") ((refs.map (·.path)).filter (· ∉ hidden)))
  have hfilter : ((refs.map (·.path)).filter (· ∉ hidden)).filterMap (freshAt cfg s₀) =
      (freshBundles cfg s₀ agent).filter fun x => ¬ActiveClaim cfg s₀ x.1 := by
    rw [freshBundles, hrefs]
    dsimp only
    rw [List.filter_filterMap, List.filterMap_filter]
    congr 1
    funext path
    cases hfresh : freshAt cfg s₀ path with
    | none => simp
    | some x =>
      obtain rfl := (freshAt_eq_some_iff.mp hfresh).2
      by_cases hactive : ActiveClaim cfg s₀ x.1
      · simp [Option.filter, (hhidden.2 x.1).mpr hactive, hactive]
      · simp [Option.filter, mt (hhidden.2 x.1).mp hactive, hactive]
  have hmap : ((refs.map (·.path)).filter (· ∉ hidden)).filterMap
      (shown cfg s₀ (inboxPath agent "")) =
      ((freshBundles cfg s₀ agent).filter fun x => ¬ActiveClaim cfg s₀ x.1).map
        fun x => (removePrefix x.1 (inboxPath agent ""), x.2) := by
    rw [← hfilter, List.map_filterMap]
    congr 1
    funext path
    exact shown_eq_map _ _
  have hsorted := argmax_map (f := bornAt) (fun e : ListingEntry => (e.path, e.bundle)) entries
  show (newestFirst entries).head?.map _ = _
  rw [newestFirst, head?_insertionSort (fun e : ListingEntry => e.bundle.createdAt)]
  refine hsorted.symm.trans ?_
  rw [hentries.2, hmap, argmax_map]
  rfl

end Walk

/-- A fresh bundle lies where the walk comes to it. -/
theorem visited_of_fresh (hagent : FileName agent) (hnamed : Named s.disk.tree)
    {x : String × BundleMeta} (hx : x ∈ freshBundles cfg s agent) :
    ∃ y, Backend.Visited s.disk.tree (cfg.backend.inboxLoc agent) y ∧
      x.1 = inboxPath agent (listedPath y) ∧
      cfg.backend.resolve x.1 = spell (cfg.backend.inboxLoc agent ++ y) ∧
      cfg.backend.metaAt s.disk.tree (cfg.backend.inboxLoc agent ++ y) = some x.2 := by
  have hloc : cfg.backend.location (inboxPath agent "") = cfg.backend.inboxLoc agent := by
    rw [Backend.location, resolve_inbox hagent, normalize_spell]
  rw [freshBundles] at hx
  split at hx
  · rename_i refs hrefs
    obtain ⟨path, hpath, hfresh⟩ := List.mem_filterMap.mp hx
    obtain ⟨ref, href, rfl⟩ := List.mem_map.mp hpath
    obtain ⟨⟨hread, -⟩, hx1⟩ := freshAt_eq_some_iff.mp hfresh
    obtain ⟨-, y, hv, hp, -⟩ := (Backend.mem_listBundles_iff hrefs).mp href
    rw [hloc] at hv
    rw [relPosix_inbox hagent hv.1] at hp
    have hnames : ∀ k ∈ y, FileName k := fun k hk =>
      hnamed _ _ hv.2.1 k (List.mem_append_right _ hk)
    have hspell := @resolve_inboxPath agent cfg.backend hagent y hv.1 hnames
    rw [← hp, hx1] at hspell
    refine ⟨y, hv, hx1.symm.trans hp, hspell, ?_⟩
    rw [← Backend.readBundleMeta_eq hspell, ← hx1]
    exact hread
  · cases hx

/-- No bundle the walk comes to lies in another. -/
theorem eq_of_visited {base x y : List String} {m : BundleMeta}
    (hm : cfg.backend.metaAt s.disk.tree (base ++ x) = some m) (hx : x ≠ [])
    (hy : Backend.Visited s.disk.tree base y) (hp : x <+: y) : y = x := by
  by_contra hne
  obtain ⟨blob, hblob, -⟩ := Backend.metaAt_some hm
  have hfile : bundleManifest ∈ Backend.fileNames s.disk.tree (base ++ x) :=
    Backend.mem_fileNames.mpr ⟨blob, Tree.fileAt_eq_some_iff.mpr hblob⟩
  rw [hy.2.2 x hx ⟨hp, hne⟩] at hfile
  cases hfile

/-! ## What a pick does with the bundle it has found -/

/-- The bundle at a path has been handed out: it is gone, or there is a claim on it. -/
def Taken (cfg : Config) (path : String) (s : Server) : Envelope → Prop
  | .inline .. => cfg.backend.readBundleMeta s.disk.tree path = none
  | .reference _ => HasClaim s path

instance (cfg : Config) (path : String) (s : Server) : ∀ e, Decidable (Taken cfg path s e)
  | .inline .. => inferInstanceAs (Decidable (_ = _))
  | .reference _ => inferInstanceAs (Decidable (∃ c ∈ s.claims.sidecars, _))

section Consuming

variable {path : String} {m : BundleMeta} {missing : Exc}

/-- By reference it claims the bundle, or says that there is none. -/
theorem spec_consume_reference
    (hmode : evaluateDownload cfg.limits m.totalSize = .reference) :
    wpE (execAny cfg env) (fun _ _ => True) (Inbox.consume cfg agent path m missing)
      (fun envelope s' => envelope.manifest = m ∧ Taken cfg path s' envelope)
      (fun e _ => e = missing) s := by
  rw [Inbox.consume, hmode]
  refine (wpE_bind _ _ _).mpr ((wpE_tryCatch _ _).mpr ?_)
  unfold buildReferencePayloadForInbox
  refine (wpE_bind _ _ _).mpr (wpE_plain.mpr ?_)
  refine (wpE_bind _ _ _).mpr (wpE_now_reading.mpr ⟨trivial, ?_⟩)
  refine (wpE_bind _ _ _).mpr (wpE_newId.mpr ⟨trivial, ?_⟩)
  simp only [wpE_pure, if_true]
  refine (wpE_bind _ _ _).mpr (wpE_plain.mpr (wpE_now_reading.mpr ⟨trivial, ?_⟩))
  refine (wpE_bind _ _ _).mpr (wpE_issueClaim.mpr ⟨trivial, ?_⟩)
  rcases ClaimStore.issue_cases _ _ with hissue | ⟨-, -, hissue⟩
  · rw [hissue]
    exact (wpE_throw _).mpr rfl
  · rw [hissue]
    exact ⟨rfl, _, List.mem_append_right _ (List.mem_singleton_self _), rfl⟩

private theorem spec_collectBundleFiles (files : List FileRecord) :
    wpE (exec cfg env) (fun _ _ => True) (collectBundleFiles path files) (fun _ s' => s' = s)
      (fun e _ => ∃ why, e = .storage why) s := by
  induction files with
  | nil => rfl
  | cons f rest ih =>
    refine (wpE_bind _ _ _).mpr (wpE_openBundleFileRead.mpr ⟨trivial, ?_⟩)
    refine (wpE_bind _ _ _).mpr (wpE_orRaise.mpr ?_)
    cases cfg.backend.openBundleFileRead s.disk.tree path f.name with
    | none => exact ⟨_, rfl⟩
    | some data =>
      exact (wpE_bind _ _ _).mpr (wpE_mono (fun _ _ hs => hs) (fun _ _ he => he) ih)

/-- Inline it removes the bundle, or a file cannot be read. -/
theorem spec_consume_inline (hmode : evaluateDownload cfg.limits m.totalSize = .inline)
    {loc : List String} (hspell : cfg.backend.resolve path = spell loc) (hne : loc ≠ []) :
    wpE (execAny cfg env) (fun _ _ => True) (Inbox.consume cfg agent path m missing)
      (fun envelope s' => (∃ files, envelope = .inline m files) ∧
        s'.disk.tree = if s.disk.tree.dirAt loc = true then s.disk.tree.remove loc
          else s.disk.tree)
      (fun e _ => ∃ why, e = .storage why) s := by
  rw [Inbox.consume, hmode]
  refine (wpE_bind _ _ _).mpr (wpE_plain.mpr (wpE_mono ?_ (fun _ _ he => he)
    (spec_collectBundleFiles m.files)))
  intro payloads s₁ hs₁
  subst s₁
  refine (wpE_bind _ _ _).mpr (wpE_plain.mpr ((wpE_iff_run _).mpr ⟨wpE_trivial _, ?_⟩))
  rw [runE_deleteQuiet_spelled hspell hne s]
  exact ⟨⟨_, rfl⟩, Backend.deleteBundle_tree hspell hne⟩

/-- A pick gets the bundle it has found, and takes it, where it can be had. -/
theorem returns_consume_iff (h : Instant s₀ s) (hs : Standing s₀) {loc : List String}
    (hspell : cfg.backend.resolve path = spell loc) (hne : loc ≠ []) :
    Returns (execAny cfg env) (Inbox.consume cfg agent path m missing)
        (fun envelope s' => envelope.manifest = m ∧ Taken cfg path s' envelope) s ↔
      Obtainable cfg s₀ path m := by
  rw [← @instant_consume cfg env s agent s₀ h hs path loc hspell hne m missing]
  constructor
  · exact wpE_mono (fun _ _ hpost => hpost.1) (fun _ _ hfalse => hfalse)
  · intro hreturns
    obtain ⟨envelope, s', hrun, hm⟩ := returns_iff_run.mp hreturns
    refine returns_iff_run.mpr ⟨envelope, s', hrun, hm, ?_⟩
    cases hmode : evaluateDownload cfg.limits m.totalSize with
    | reference => exact (wpE_ok (spec_consume_reference hmode) hrun).2
    | inline =>
      obtain ⟨⟨files, rfl⟩, htree⟩ := wpE_ok (spec_consume_inline hmode hspell hne) hrun
      show cfg.backend.readBundleMeta s'.disk.tree path = none
      rw [Backend.readBundleMeta_eq hspell, htree]
      split
      · have hgone : (s.disk.tree.remove loc).get (loc ++ [bundleManifest]) = none := by
          rw [Tree.get_remove _ _ (by simp), if_pos (List.prefix_append _ _)]
        rw [Backend.metaAt, Tree.fileAt, hgone]
        rfl
      · rename_i hdir
        cases hmeta : cfg.backend.metaAt s.disk.tree loc with
        | none => rfl
        | some m' => exact absurd (Tree.dirAt_iff.mpr (Backend.dir_of_metaAt hmeta)) hdir

end Consuming

/-! ## The property and the condition -/

namespace Reader

/-- What a pick says of an empty inbox. -/
def noFiles : Reader → Exc
  | .rest _ => .http 404 "No files in inbox"
  | .mcp _ => .value "No files in inbox"

/-- What a pick says of a path where there is nothing to be had. -/
def missing (path : String) : Reader → Exc
  | .rest _ => httpNotFound path
  | .mcp _ => valueNotFound path

/-- What a pick does with an envelope: over REST it goes out with a head. -/
def deliver (agent path : String) (envelope : Envelope) : Reader → ClaimHandler Envelope
  | .rest _ => do
    plain (sendHead [envelope.manifest.sender.getD "", removePrefix path (inboxPath agent "")])
    pure envelope
  | .mcp _ => pure envelope

/-- What goes into that head can stand there. -/
def Sends (agent path : String) (m : BundleMeta) : Reader → Prop
  | .rest _ => headValue (m.sender.getD "") = true ∧
      headValue (removePrefix path (inboxPath agent "")) = true
  | .mcp _ => True

section Properties

variable (h : (c : AnyCall) → Server → c.Answer × Server) (cfg : Config) (s : Server)
  (agent : String) (r : Reader)

/-- A pick of `latest` gets the bundle that is given and takes it, or finds none. -/
def PicksLatest : Option (String × BundleMeta) → Prop
  | some (path, m) => Returns h (r.pick cfg agent "latest")
      (fun envelope s' => envelope.manifest = m ∧ Taken cfg path s' envelope) s
  | none => wpE h (fun _ _ => True) (r.pick cfg agent "latest")
      (fun _ _ => False) (fun e _ => e = r.noFiles ∨ e = r.missing "latest") s

instance : ∀ x, Decidable (r.PicksLatest h cfg s agent x)
  | some (_, _) => inferInstanceAs (Decidable (wpE ..))
  | none => inferInstanceAs (Decidable (wpE ..))

/-- A pick of `latest` follows the listing of the same instant: it gets the head, and finds
nothing when the listing is empty. -/
def FollowsListing : Prop :=
  Returns h ((r.list agent).handler cfg) (fun entries _ =>
    r.PicksLatest h cfg s agent
      (entries.head?.map fun e => (inboxPath agent e.path, e.bundle))) s

instance : Decidable (r.FollowsListing h cfg s agent) := inferInstanceAs (Decidable (wpE ..))

end Properties

end Reader

/-- Every manifest of an inbox that the walk comes to can be read. -/
def InboxReadable (cfg : Config) (g : Garble cfg.backend) (s : Server) (agent : String) : Prop :=
  ∀ x, Backend.Visited s.disk.tree (cfg.backend.inboxLoc agent) x →
    cfg.backend.garbledAt g s.disk.tree (cfg.backend.inboxLoc agent ++ x) = false

/-- When a pick of `latest` follows the listing, in terms of the newest bundle of an inbox that is
not past its time. -/
structure LatestSound (cfg : Config) (s : Server) (r : Reader) (agent : String) : Prop where
  /-- One that is listed can be sent and can be had. -/
  listed : ∀ path m, newest cfg s agent = some (path, m) → ¬ActiveClaim cfg s path →
    r.Sends agent path m ∧ Obtainable cfg s path m
  /-- One that is hidden goes by reference, and hidden is all the rest. -/
  hidden : ∀ path m, newest cfg s agent = some (path, m) → ActiveClaim cfg s path →
    evaluateDownload cfg.limits m.totalSize = .reference ∧
      ∀ x ∈ freshBundles cfg s agent, ActiveClaim cfg s x.1

namespace Reader

variable {r : Reader}

/-- What is sent is the envelope, or a head that the server refuses. -/
theorem runE_deliver (agent path : String) (envelope : Envelope) (s : Server) :
    ∃ res, runE (execAny cfg env) (r.deliver agent path envelope) s = (res, s) ∧
      (res = .ok envelope ∨ res = .error (.value "Invalid HTTP header value.") ∧
        ∃ identity, r = .rest identity) := by
  cases r with
  | mcp caller => exact ⟨.ok envelope, rfl, .inl rfl⟩
  | rest identity =>
    by_cases hheads : headValue (envelope.manifest.sender.getD "") = true ∧
        headValue (removePrefix path (inboxPath agent "")) = true
    · refine ⟨.ok envelope, ?_, .inl rfl⟩
      have hall : [envelope.manifest.sender.getD "", removePrefix path (inboxPath agent "")].all
          headValue = true := by
        simpa using hheads
      rw [deliver, sendHead, if_pos hall]
      rfl
    · refine ⟨.error (.value "Invalid HTTP header value."), ?_, .inr ⟨rfl, identity, rfl⟩⟩
      have hall : ¬[envelope.manifest.sender.getD "", removePrefix path (inboxPath agent "")].all
          headValue = true := by
        simpa using hheads
      rw [deliver, sendHead, if_neg hall]
      rfl

/-- A pick gets the bundle it has found, and takes it, where it can be had and be sent. -/
theorem returns_deliver_iff (h : Instant s₀ s) (hs : Standing s₀) {path : String} {m : BundleMeta}
    {missing : Exc} {loc : List String} (hspell : cfg.backend.resolve path = spell loc)
    (hne : loc ≠ []) :
    Returns (execAny cfg env) (Inbox.consume cfg agent path m missing >>= fun envelope =>
        r.deliver agent path envelope)
        (fun envelope s' => envelope.manifest = m ∧ Taken cfg path s' envelope) s ↔
      r.Sends agent path m ∧ Obtainable cfg s₀ path m := by
  rw [← @returns_consume_iff cfg env s s₀ agent path m missing h hs loc hspell hne,
    ← returns_and_left]
  refine (wpE_bind _ _ _).trans (returns_congr fun envelope s' => ?_)
  cases r with
  | mcp caller => exact (and_iff_right trivial).symm
  | rest identity =>
    simp only [deliver, wpE_pure, wpE_bind, wpE_plain, wpE_sendHead, List.all_cons, List.all_nil,
      Bool.and_true, Bool.and_eq_true]
    constructor
    · rintro ⟨hsent, hrefused⟩
      by_cases hheads : headValue (envelope.manifest.sender.getD "") = true ∧
        headValue (removePrefix path (inboxPath agent "")) = true
      · obtain ⟨rfl, htaken⟩ := hsent hheads
        exact ⟨hheads, rfl, htaken⟩
      · exact (hrefused hheads).elim
    · rintro ⟨hheads, rfl, htaken⟩
      exact ⟨fun _ => ⟨rfl, htaken⟩, fun hno => hno hheads⟩

/-- A pick of `latest` hands on what it has found. -/
theorem runE_pickLatest (hauth : r.Authorised env agent) (hne : agent ≠ "")
    (hstill : s.lag = fun _ => 0) {refs : List Backend.BundleRef}
    (hrefs : cfg.backend.listBundles s.disk (inboxPath agent "") false = .ok refs) :
    ∃ s₁, Instant s s₁ ∧ runE (execAny cfg env) (r.pick cfg agent "latest") s =
      match newest cfg s agent with
      | some (path, m) =>
        runE (execAny cfg env) (Inbox.consume cfg agent path m (r.missing "latest") >>=
          fun envelope => r.deliver agent path envelope) s₁
      | none => (.error r.noFiles, s₁) := by
  have hasked := (Instant.refl hstill).ask (.inbox agent)
  obtain ⟨s₁, h₁, hresolve⟩ :=
    @runE_resolvePick_latest cfg env _ s agent refs hrefs hasked r.noFiles (r.missing "latest")
  refine ⟨s₁, h₁, ?_⟩
  have hfind := (@runE_execAny_plain cfg _ env _ _).trans hresolve
  cases r with
  | rest identity =>
    have hparam : innerParam "latest" = some "latest" := by decide
    have henforce := (@runE_execAny_plain cfg _ env _ s).trans
      (runE_enforce_ok hauth.2 httpForbidden s)
    simp only [noFiles, missing] at hfind ⊢
    rw [pick, Inbox.postPick, hparam, routed_some, runE_bind, Inbox.pickInboxFile,
      runE_bind_ok henforce, runE_bind, hfind]
    cases newest cfg s agent with
    | none => rfl
    | some found =>
      dsimp only
      rw [runE_bind, runE_bind]
      rcases runE (execAny cfg env) (Inbox.consume cfg agent found.1 found.2
        (httpNotFound "latest")) s₁ with ⟨e | envelope, s₂⟩ <;> rfl
  | mcp caller =>
    obtain ⟨htarget, -, hcheck, hcount⟩ := hauth
    show runE (execAny cfg env) (Mcp.cassettaPick cfg caller "latest") s = _
    have henforce := (@runE_execAny_plain cfg _ env _ s).trans
      (runE_enforce_ok hcheck valueForbidden s)
    have hvalidate := @runE_execAny_plain cfg _ env (Mcp.validatePickPath cfg "latest")
      { s with asked := .inbox agent :: s.asked }
    simp only [noFiles, missing] at hfind ⊢
    rw [Mcp.cassettaPick, htarget, if_neg hne, Mcp.enforceMcp, runE_bind_ok henforce,
      runE_bind_ok hvalidate, runE_bind, hfind]
    cases newest cfg s agent with
    | none => rfl
    | some found =>
      dsimp only
      rw [runE_bind, runE_bind]
      rcases runE (execAny cfg env) (Inbox.consume cfg agent found.1 found.2
        (valueNotFound "latest")) s₁ with ⟨e | envelope, s₂⟩
      · rfl
      · have hincrement := (@runE_execAny_plain cfg _ env _ s₂).trans
          (runE_increment (hcount (Mcp.operation "cassetta.inbox.operations" "pick")) s₂)
        exact runE_bind_ok hincrement

/-- Where manifests may be unreadable, a pick of `latest` comes to its end when the walk can read
all of them. -/
theorem endsIf_pickLatest (hauth : r.Authorised env agent) (hagent : FileName agent)
    (hnamed : Named s.disk.tree) :
    EndsIf (execAnyReading cfg env g) (execAny cfg env) (InboxReadable cfg g s agent)
      (r.pick cfg agent "latest") s := by
  have hbelow : cfg.backend.dataRoot <+: cfg.backend.resolve (inboxPath agent "") := by
    rw [resolve_inbox hagent, Backend.inboxLoc, spell_append, ← Backend.dataRoot_eq]
    exact List.prefix_append _ _
  obtain ⟨refs, hrefs⟩ := Backend.listBundles_ok hbelow s.disk false
  have hwalk : InboxReadable cfg g s agent ↔ ∀ path ∈ refs.map (·.path),
      cfg.backend.garbled g s.disk.tree path = false := by
    have hiff := readable_inbox_iff (g := g) hagent hnamed hrefs fun _ => True
    simp only [true_imp_iff] at hiff
    rw [InboxReadable, ← hiff, List.forall_mem_map]
  have hlist : runE (exec cfg env) (listBundles (inboxPath agent "") false)
      { s with asked := .inbox agent :: s.asked } =
        (.ok refs, { s with asked := .inbox agent :: s.asked }) := by
    rw [runE_listBundles, hrefs]
  have hresolve : ∀ noFiles missing, EndsIf (execAnyReading cfg env g) (execAny cfg env)
      (InboxReadable cfg g s agent) (plain (Inbox.resolvePick cfg agent "latest" noFiles missing))
      { s with asked := .inbox agent :: s.asked } := by
    intro noFiles missing
    rw [hwalk, Inbox.resolvePick, if_pos rfl]
    refine EndsIf.plain (EndsIf.bind_left
      ((runE_reading_readless (readless_listBundles _ _)).trans hlist) hlist ?_)
    refine EndsIf.bind_right (endsIf_newestBundle (s := { s with asked := .inbox agent :: s.asked })
      none (refs.map (·.path))) fun found s' => ?_
    cases found <;> rfl
  have hagentne : agent ≠ "" := by
    rintro rfl
    exact absurd hagent (by decide)
  cases r with
  | rest identity =>
    have hparam : innerParam "latest" = some "latest" := by decide
    have henf := @runE_enforce_ok cfg _ _ _ _ hauth.2 httpForbidden s
    rw [pick, Inbox.postPick, hparam, routed_some, Inbox.pickInboxFile]
    refine EndsIf.bind_right ?_ fun sent s' => runE_anyReading_readless
      (OnlyE.bind (readless_plain (readless_sendHead _)) fun _ => trivial)
    refine EndsIf.bind_left (runE_anyReading_plain.trans
      ((runE_reading_readless (readless_enforce _ _ _ _)).trans henf))
      ((runE_execAny_plain _ _ _).trans henf) ?_
    refine EndsIf.bind_right (hresolve _ _) fun found s' => runE_anyReading_readless ?_
    exact OnlyE.bind (Inbox.readless_consume _ _ _ _) fun _ => trivial
  | mcp caller =>
    obtain ⟨htarget, -, hcheck, -⟩ := hauth
    have henf := @runE_enforce_ok cfg _ _ _ _ hcheck valueForbidden s
    show EndsIf _ _ _ (Mcp.cassettaPick cfg caller "latest") s
    rw [Mcp.cassettaPick, htarget, if_neg hagentne]
    refine EndsIf.bind_left (runE_anyReading_plain.trans
      ((runE_reading_readless (readless_enforce _ _ _ _)).trans henf))
      ((runE_execAny_plain _ _ _).trans henf) ?_
    have hvalidate : ∀ {h : (c : AnyCall) → Server → c.Answer × Server} (s' : Server),
        runE h (plain (Mcp.validatePickPath cfg "latest")) s' = (.ok (), s') := fun _ => rfl
    refine EndsIf.bind_left (hvalidate _) (hvalidate _) ?_
    refine EndsIf.bind_right (hresolve _ _) fun found s' => runE_anyReading_readless ?_
    refine OnlyE.bind (Inbox.readless_consume _ _ _ _) fun _ => ?_
    exact OnlyE.bind (readless_plain (readless_increment _)) fun _ => trivial

/-- A pick of `latest` does with the head of a listing what it does where all can be read, if it
can. -/
theorem picksLatest_reading {x : Option (String × BundleMeta)}
    (h : EndsIf (execAnyReading cfg env g) (execAny cfg env) (InboxReadable cfg g s agent)
      (r.pick cfg agent "latest") s) :
    r.PicksLatest (execAnyReading cfg env g) cfg s agent x ↔
      InboxReadable cfg g s agent ∧ r.PicksLatest (execAny cfg env) cfg s agent x := by
  cases x with
  | some found => exact h.returns_iff _
  | none =>
    refine (wpE_iff_run _).trans ?_
    by_cases hread : InboxReadable cfg g s agent
    · rw [h.same hread, and_iff_right (wpE_trivial _), and_iff_right hread]
      refine Iff.trans ?_ (wpE_iff_run _).symm
      rw [and_iff_right (wpE_trivial _)]
    · obtain ⟨why, s', hrun⟩ := h.raises hread
      rw [hrun]
      refine iff_of_false ?_ fun hboth => hread hboth.1
      rintro ⟨-, hfound | hfound⟩
      · cases r <;> cases hfound
      · cases r <;> cases hfound

/-- A run of a pick decides what it does with the head of a listing. -/
theorem picksLatest_of_run {e : Exc} (h : (runE (execAny cfg env)
    (r.pick cfg agent "latest") s).1 = .error e) {x : Option (String × BundleMeta)} :
    r.PicksLatest (execAny cfg env) cfg s agent x ↔ x = none ∧
      (e = r.noFiles ∨ e = r.missing "latest") := by
  rcases hrun : runE (execAny cfg env) (r.pick cfg agent "latest") s with ⟨res, s'⟩
  rw [hrun] at h
  obtain rfl : res = .error e := h
  cases x with
  | none =>
    refine (wpE_iff_run _).trans ?_
    rw [hrun]
    simp [wpE_trivial]
  | some x =>
    refine returns_iff_run.trans ?_
    rw [hrun]
    simp

/-- A bundle that has been handed out to a pick of `latest`, found in inline mode and hidden, is
not the head of the listing. -/
theorem not_picksLatest_hidden_inline (hagent : FileName agent) (hnamed : Named s.disk.tree)
    {path : String} {m : BundleMeta} {s₁ : Server} (h₁ : Instant s s₁)
    (hrun : runE (execAny cfg env) (r.pick cfg agent "latest") s =
      runE (execAny cfg env) (Inbox.consume cfg agent path m (r.missing "latest") >>=
        fun envelope => r.deliver agent path envelope) s₁)
    (hmem : (path, m) ∈ freshBundles cfg s agent)
    (hmode : evaluateDownload cfg.limits m.totalSize = .inline)
    {x : Option (String × BundleMeta)}
    (hx : ∀ y, x = some y → y ∈ freshBundles cfg s agent ∧ y.1 ≠ path) :
    ¬r.PicksLatest (execAny cfg env) cfg s agent x := by
  obtain ⟨loc, hv, hpath, hspell, hm⟩ := visited_of_fresh hagent hnamed hmem
  have hspec := @spec_consume_inline cfg env s₁ agent path m (r.missing "latest") hmode _ hspell
    (by simp [hv.1])
  rcases hres : runE (execAny cfg env) (Inbox.consume cfg agent path m (r.missing "latest")) s₁
    with ⟨e | envelope, s'⟩
  · obtain ⟨why, rfl⟩ := wpE_error hspec hres
    rw [picksLatest_of_run (by rw [hrun, runE_bind, hres])]
    rintro ⟨-, hfound | hfound⟩
    · cases r <;> cases hfound
    · cases r <;> cases hfound
  · obtain ⟨⟨files, rfl⟩, htree⟩ := wpE_ok hspec hres
    obtain ⟨res, hsent, hcases⟩ := @runE_deliver cfg env r agent path (.inline m files) s'
    have hpicked := hrun.trans ((runE_bind_ok hres).trans hsent)
    rcases hcases with rfl | ⟨rfl, identity, rfl⟩
    swap
    · rw [picksLatest_of_run (by rw [hpicked])]
      rintro ⟨-, hfound | hfound⟩ <;> cases hfound
    cases x with
    | none =>
      intro hnone
      exact wpE_ok hnone hpicked
    | some y =>
      obtain ⟨hy, hne⟩ := hx y rfl
      intro hpick
      obtain ⟨-, htaken⟩ := wpE_ok hpick hpicked
      obtain ⟨yloc, hyv, hypath, hyspell, hym⟩ := visited_of_fresh hagent hnamed hy
      have hout : ¬cfg.backend.inboxLoc agent ++ loc <+: cfg.backend.inboxLoc agent ++ yloc := by
        rw [List.prefix_append_right_inj]
        intro hp
        obtain rfl := eq_of_visited hm hv.1 hyv hp
        exact hne (hypath.trans hpath.symm)
      have hkept : cfg.backend.metaAt s'.disk.tree (cfg.backend.inboxLoc agent ++ yloc) =
          some y.2 := by
        rw [htree, h₁.disk]
        split
        · have hfar := mt (prefix_manifest_iff (Backend.dir_of_metaAt hm) hym).mp hout
          rw [Backend.metaAt, Tree.fileAt, Tree.get_remove _ _ (by simp), if_neg hfar]
          exact hym
        · exact hym
      rw [Taken, Backend.readBundleMeta_eq hyspell, hkept] at htaken
      cases htaken

end Reader

private theorem runE_hidden_missing {s₁ : Server} {f : Envelope → ClaimHandler Envelope}
    (h₁ : Instant s s₁) (hs : Standing s) {loc : List String}
    (hspell : cfg.backend.resolve path = spell loc) (hne : loc ≠ [])
    (hmode : evaluateDownload cfg.limits m.totalSize = .reference)
    (hactive : ActiveClaim cfg s path) :
    (runE (execAny cfg env) (Inbox.consume cfg agent path m missing >>= f) s₁).1 =
      .error missing := by
  have hspec := @spec_consume_reference cfg env s₁ agent path m missing hmode
  rcases hres : runE (execAny cfg env) (Inbox.consume cfg agent path m missing) s₁ with
    ⟨e | envelope, s'⟩
  · rw [runE_bind, hres]
    exact congrArg Except.error (wpE_error hspec hres)
  · have hgot := (@returns_consume_iff cfg env s₁ s agent path m missing h₁ hs loc hspell hne).mp
      (returns_iff_run.mpr ⟨_, _, hres, wpE_ok hspec hres⟩)
    rw [obtainable_of_reference hmode] at hgot
    exact absurd hactive.hasClaim hgot

private theorem Reader.followsListing_iff_picksShown {r : Reader}
    [DecidablePred (ActiveClaim cfg s)] (hs : Standing s) (hstill : s.lag = fun _ => 0)
    (hagent : FileName agent) (hne : agent ≠ "") (hauth : r.Authorised env agent)
    (hrefs : cfg.backend.listBundles s.disk (inboxPath agent "") false = .ok refs) :
    r.FollowsListing (execAny cfg env) cfg s agent ↔ r.PicksLatest (execAny cfg env) cfg s agent
      (((freshBundles cfg s agent).filter fun x => ¬ActiveClaim cfg s x.1).argmax bornAt) := by
  have hasked := (Instant.refl hstill).ask (.inbox agent)
  rw [Reader.FollowsListing, Reader.returns_list_iff hauth hne]
  refine returns_iff_of (wpE_mono (fun entries _ hhead => ?_) (fun _ _ hfalse => hfalse)
    (instant_listing_head hrefs hasked))
  have hback := congrArg (Option.map fun x => (inboxPath agent x.1, x.2)) hhead
  rw [Option.map_map, Option.map_map] at hback
  have hentry : entries.head?.map (fun e => (inboxPath agent e.path, e.bundle)) =
      ((freshBundles cfg s agent).filter fun x => ¬ActiveClaim cfg s x.1).argmax bornAt := by
    refine hback.trans ?_
    cases hx : ((freshBundles cfg s agent).filter
        fun x => ¬ActiveClaim cfg s x.1).argmax bornAt with
    | none => rfl
    | some x =>
      obtain ⟨y, -, hpath, -⟩ := visited_of_fresh hagent hs.named.tree
        (List.mem_filter.mp (List.argmax_mem hx)).1
      refine congrArg some (Prod.ext ?_ rfl)
      show inboxPath agent (removePrefix x.1 (inboxPath agent "")) = x.1
      rw [hpath, removePrefix_inboxPath]
  rw [hentry]

/-- Where every manifest can be read, a pick of `latest` follows the listing exactly when the newest
bundle that is not past its time, if it is listed, can be had, and if it is hidden, is claimed like
all the rest. -/
theorem Reader.followsListing_iff {r : Reader} (hs : Standing s) (hstill : s.lag = fun _ => 0)
    (hagent : FileName agent) (hauth : r.Authorised env agent) :
    r.FollowsListing (execAny cfg env) cfg s agent ↔ LatestSound cfg s r agent := by
  classical
  have hagentne : agent ≠ "" := by
    rintro rfl
    exact absurd hagent (by decide)
  have hbelow : cfg.backend.dataRoot <+: cfg.backend.resolve (inboxPath agent "") := by
    rw [resolve_inbox hagent, Backend.inboxLoc, spell_append, ← Backend.dataRoot_eq]
    exact List.prefix_append _ _
  obtain ⟨refs, hrefs⟩ := Backend.listBundles_ok hbelow s.disk false
  obtain ⟨s₁, h₁, hrun⟩ := Reader.runE_pickLatest hauth hagentne hstill hrefs
  rw [Reader.followsListing_iff_picksShown hs hstill hagent hagentne hauth hrefs]
  cases hnew : newest cfg s agent with
  | none =>
    rw [hnew] at hrun
    have hnil : freshBundles cfg s agent = [] := List.argmax_eq_none.mp hnew
    rw [hnil, Reader.picksLatest_of_run (by rw [hrun])]
    refine iff_of_true ⟨rfl, .inl rfl⟩ ⟨fun path m h => ?_, fun path m h => ?_⟩
    · rw [hnew] at h
      cases h
    · rw [hnew] at h
      cases h
  | some found =>
    obtain ⟨path, m⟩ := found
    rw [hnew] at hrun
    have hmem : (path, m) ∈ freshBundles cfg s agent := List.argmax_mem hnew
    have hsame : ∀ path' m', newest cfg s agent = some (path', m') → path' = path ∧ m' = m := by
      intro path' m' h
      rw [hnew] at h
      cases h
      exact ⟨rfl, rfl⟩
    obtain ⟨loc, hv, -, hspell, -⟩ := visited_of_fresh hagent hs.named.tree hmem
    have hdeliver := @Reader.returns_deliver_iff cfg env s₁ s agent r h₁ hs path m
      (r.missing "latest") _ hspell (by simp [hv.1])
    by_cases hactive : ActiveClaim cfg s path
    · cases hmode : evaluateDownload cfg.limits m.totalSize with
      | reference =>
        have hmissing := @runE_hidden_missing cfg env s agent path m (r.missing "latest") s₁
          (fun envelope => r.deliver agent path envelope) h₁ hs _ hspell (by simp [hv.1]) hmode
          hactive
        rw [Reader.picksLatest_of_run ((congrArg Prod.fst hrun).trans hmissing),
          List.argmax_eq_none, List.filter_eq_nil_iff]
        constructor
        · rintro ⟨hall, -⟩
          refine ⟨fun path' m' h hno => ?_, fun path' m' h _ => ?_⟩
          · obtain ⟨rfl, rfl⟩ := hsame path' m' h
            exact absurd hactive hno
          · obtain ⟨rfl, rfl⟩ := hsame path' m' h
            exact ⟨hmode, fun x hx => by simpa using hall x hx⟩
        · intro hsound
          refine ⟨fun x hx => ?_, .inr rfl⟩
          simpa using (hsound.hidden path m hnew hactive).2 x hx
      | inline =>
        apply iff_of_false
        · apply Reader.not_picksLatest_hidden_inline hagent hs.named.tree h₁ hrun hmem hmode
          intro y hy
          obtain ⟨hyfresh, hyshown⟩ := List.mem_filter.mp (List.argmax_mem hy)
          refine ⟨hyfresh, ?_⟩
          rintro rfl
          simp [hactive] at hyshown
        · intro hsound
          have href := (hsound.hidden path m hnew hactive).1
          rw [hmode] at href
          cases href
    · have hhead := @argmax_filter _ _ _ bornAt (fun x => ¬ActiveClaim cfg s x.1) _
        (freshBundles cfg s agent) (path, m) hnew hactive
      have hpick : r.PicksLatest (execAny cfg env) cfg s agent (some (path, m)) ↔
          r.Sends agent path m ∧ Obtainable cfg s path m := by
        refine Iff.trans ?_ hdeliver
        rw [Reader.PicksLatest, returns_iff_run, returns_iff_run, hrun]
      rw [hhead, hpick]
      constructor
      · intro hobtain
        refine ⟨fun path' m' h _ => ?_, fun path' m' h hclaimed => ?_⟩
        · obtain ⟨rfl, rfl⟩ := hsame path' m' h
          exact hobtain
        · obtain ⟨rfl, rfl⟩ := hsame path' m' h
          exact absurd hclaimed hactive
      · exact fun hsound => hsound.listed path m hnew hactive

/-- In every state a run can reach, for every inbox and every reader who may list it and pick from
it: a pick of `latest` follows the listing of that instant exactly when every manifest there can be
read and the newest bundle that is not past its time, if it is listed, can be had and be sent, and
if it is hidden, is claimed like all the rest. -/
theorem latest_follows_iff (cfg : Config) (env : Environment) (g : Garble cfg.backend)
    (hroot : ∀ k ∈ cfg.backend.root, FileName k) (sys : System) (hstart : Standing sys.server)
    (events : List Event) (r : Reader) (agent : String) (hagent : FileName agent)
    (hauth : r.Authorised env agent) :
    let s := (sys.run cfg env events).server.frozen
    r.FollowsListing (execAnyReading cfg env g) cfg s agent ↔
      InboxReadable cfg g s agent ∧ LatestSound cfg s r agent := by
  intro s
  have hs : Standing s := (hstart.run hroot events).frozen
  have hends := @Reader.endsIf_list cfg env g s agent r hauth hagent hs.named.tree rfl
  have hpick := @Reader.endsIf_pickLatest cfg env g s agent r hauth hagent hs.named.tree
  have hsound := @Reader.followsListing_iff cfg env s agent r hs rfl hagent hauth
  have hlisting : InboxReadable cfg g s agent → ListingReadable cfg g s agent :=
    fun h x hv _ => h x hv
  rw [← hsound, Reader.FollowsListing, hends.returns_iff, Reader.FollowsListing]
  simp only [Reader.picksLatest_reading hpick]
  rw [returns_and_left]
  exact ⟨fun h => h.2, fun h => ⟨hlisting h.1, h⟩⟩

/-! ## On a small server -/

/-- `alice` broadcasts the file `p` and, a second later, the file `q`. -/
def twoBroadcasts : List Event :=
  [.plain (.broadcast alice "p" (.raw [1])), .tick 1000000,
    .plain (.broadcast alice "q" (.raw [2]))]

/-- The server after these and what `bob` has picked since. -/
def latestServer (picks : List Event) : Server :=
  (srvSystem.run srvConfig .core (twoBroadcasts ++ picks)).server.frozen

/-- An inbox without claims. -/
theorem latest_follows_unclaimed :
    (Reader.rest bob).FollowsListing
      (execAnyReading srvConfig .core srvGarble) srvConfig (latestServer []) "bob:b" ∧
      LatestSound srvConfig (latestServer []) (.rest bob) "bob:b" := by
  have hfollows : (Reader.rest bob).FollowsListing
      (execAnyReading srvConfig .core srvGarble) srvConfig (latestServer []) "bob:b" := by
    decide +kernel
  have hboth := (latest_follows_iff srvConfig .core srvGarble (by decide) srvSystem
    standing_srvSystem _ (.rest bob) "bob:b" (by decide) ⟨by decide, by decide⟩).mp hfollows
  exact ⟨hfollows, hboth.2⟩

/-- Once the newer one is picked the listing has the older one at its head, and a pick of `latest`
still comes to the newer one, and says that there is nothing. -/
theorem latest_finds_claimed :
    (Reader.rest bob).Authorised .core "bob:b" ∧
      Returns (execAnyReading srvConfig .core srvGarble)
        (((Reader.rest bob).list "bob:b").handler srvConfig)
        (fun entries _ => entries.map (·.path) = ["p"])
        (latestServer [.pick (.rest bob "bob:b" "q")]) ∧
      (Reader.rest bob).PicksLatest (execAnyReading srvConfig .core srvGarble) srvConfig
        (latestServer [.pick (.rest bob "bob:b" "q")]) "bob:b" none ∧
      ¬(Reader.rest bob).FollowsListing (execAnyReading srvConfig .core srvGarble) srvConfig
        (latestServer [.pick (.rest bob "bob:b" "q")]) "bob:b" := by
  exact ⟨⟨by decide, by decide⟩, by decide +kernel, by decide +kernel, by decide +kernel⟩

end Cassetta
