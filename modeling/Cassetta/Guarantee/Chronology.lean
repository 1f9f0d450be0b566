import Cassetta.Core.Calendar
import Cassetta.Guarantee.TwoPhase
import Cassetta.Surface.Inbox

/-!
# Creation times as texts

Manifests keep `created_at` as the ISO text of the moment a bundle was made, and the server
compares these texts: a listing sorts by them and a pick of the latest bundle keeps the greatest.
Both come out as they would on the moments themselves.
-/

namespace Cassetta

open Prog FileTree Calendar

/-- The first instant of 1970, from which moments count. -/
def epoch : Nat := 719163 * 86400000000

/-- A moment that `datetime` has a value for. -/
def Datable (moment : Nat) : Prop := epoch + moment < supInstant

instance (moment : Nat) : Decidable (Datable moment) := inferInstanceAs (Decidable (_ < _))

private theorem Datable.instant_mem {moment : Nat} (h : Datable moment) :
    minInstant ≤ epoch + moment ∧ epoch + moment < supInstant :=
  ⟨Nat.le_add_right_of_le (by decide), h⟩

/-- `datetime.now(UTC).isoformat()` at a moment; nothing once the calendar has ended. -/
def createdAtIso (moment : Nat) : String :=
  if h : Datable moment then (DateTime.ofInstant (epoch + moment) h.instant_mem).isoformat else ""

private theorem createdAtIso_of_datable {moment : Nat} (h : Datable moment) :
    createdAtIso moment = (DateTime.ofInstant (epoch + moment) h.instant_mem).isoformat :=
  dif_pos h

/-- The texts of two moments compare as the moments do. -/
theorem cmp_createdAtIso {a b : Nat} (ha : Datable a) (hb : Datable b) :
    cmp (createdAtIso a) (createdAtIso b) = cmp a b := by
  rw [createdAtIso_of_datable ha, createdAtIso_of_datable hb, DateTime.cmp_isoformat,
    DateTime.instant_ofInstant, DateTime.instant_ofInstant]
  exact cmp_add_left epoch a b

private theorem createdAtIso_lt_iff {a b : Nat} (ha : Datable a) (hb : Datable b) :
    createdAtIso a < createdAtIso b ↔ a < b :=
  lt_iff_lt_of_cmp_eq_cmp (cmp_createdAtIso ha hb)

private theorem createdAtIso_le_iff {a b : Nat} (ha : Datable a) (hb : Datable b) :
    createdAtIso a ≤ createdAtIso b ↔ a ≤ b :=
  le_iff_le_of_cmp_eq_cmp (cmp_createdAtIso ha hb)

/-- A text is never empty, so it is greater than the `""` a pick starts from. -/
theorem empty_lt_createdAtIso {a : Nat} (ha : Datable a) : "" < createdAtIso a := by
  rw [createdAtIso_of_datable ha]
  exact DateTime.empty_lt_isoformat _

/-! ## The listing -/

/-- `entries.sort(key=lambda f: str(f["created_at"]), reverse=True)`. -/
def newestFirstByIso (entries : List ListingEntry) : List ListingEntry :=
  entries.insertionSort fun a c => createdAtIso c.bundle.createdAt ≤ createdAtIso a.bundle.createdAt

/-- Two orders that agree on a list sort it alike. -/
theorem insertionSort_congr {α : Type*} {r r' : α → α → Prop} [DecidableRel r] [DecidableRel r']
    {l : List α} (h : ∀ a ∈ l, ∀ b ∈ l, r a b ↔ r' a b) :
    l.insertionSort r = l.insertionSort r' := by
  have hmap := List.map_insertionSort r r' id l h
  rwa [List.map_id, List.map_id] at hmap

private theorem newestFirstByIso_eq {entries : List ListingEntry}
    (h : ∀ e ∈ entries, Datable e.bundle.createdAt) :
    newestFirstByIso entries = newestFirst entries := by
  apply insertionSort_congr
  intro a ha c hc
  exact createdAtIso_le_iff (h c hc) (h a ha)

/-! ## The latest bundle -/

/-- The loop of a pick of the latest bundle, with `newest_time` and the newest one so far. -/
def newestBundleByIso (cfg : Config) : String → Option (String × BundleMeta) → List String →
    Handler (Option (String × BundleMeta))
  | _, best, [] => pure best
  | newestTime, best, path :: rest => do
    match ← readBundleMeta path with
    | .error .fileNotFound => newestBundleByIso cfg newestTime best rest
    | .error e => throw (.storage e)
    | .ok m => do
      let expired ← isExpiredByMeta cfg m.createdAt
      if expired then newestBundleByIso cfg newestTime best rest
      else if newestTime < createdAtIso m.createdAt then
        newestBundleByIso cfg (createdAtIso m.createdAt) (some (path, m)) rest
      else newestBundleByIso cfg newestTime best rest

/-- `newest_time` is the text of the newest one so far, if there is one. -/
def Noted : String → Option (String × BundleMeta) → Prop
  | newestTime, none => newestTime = ""
  | newestTime, some (_, m) => newestTime = createdAtIso m.createdAt ∧ Datable m.createdAt

variable {cfg : Config} {env : Environment}

private theorem runE_newestBundleByIso {paths : List String} {newestTime : String}
    {best : Option (String × BundleMeta)} {s : Server} (hnoted : Noted newestTime best)
    (hpaths : ∀ path ∈ paths, ∀ m, cfg.backend.readBundleMeta s.disk.tree path = some m →
      Datable m.createdAt) :
    runE (exec cfg env) (newestBundleByIso cfg newestTime best paths) s =
      runE (exec cfg env) (newestBundle cfg best paths) s := by
  induction paths generalizing newestTime best s with
  | nil => rfl
  | cons path rest ih =>
    have hrest : ∀ p ∈ rest, ∀ m, cfg.backend.readBundleMeta s.disk.tree p = some m →
        Datable m.createdAt := fun p hp => hpaths p (List.mem_cons_of_mem _ hp)
    rw [newestBundleByIso, newestBundle]
    cases hread : cfg.backend.readBundleMeta s.disk.tree path with
    | none =>
      have hrun :
        runE (exec cfg env) (readBundleMeta path) s = (.ok (.error .fileNotFound), s) := by
        rw [runE_readBundleMeta_plain, hread]
      rw [runE_bind_ok hrun, runE_bind_ok hrun]
      exact ih hnoted hrest
    | some m =>
      have hrun : runE (exec cfg env) (readBundleMeta path) s = (.ok (.ok m), s) := by
        rw [runE_readBundleMeta_plain, hread]
      have hm : Datable m.createdAt := hpaths path (by simp) m hread
      rw [runE_bind_ok hrun, runE_bind_ok hrun, runE_bind, runE_bind]
      have hlater : Ensures (exec cfg env) (isExpiredByMeta cfg m.createdAt) _ s :=
        ensures_isExpiredByMeta m.createdAt
      rcases hexpired : runE (exec cfg env) (isExpiredByMeta cfg m.createdAt) s with
        ⟨e | expired, s₁⟩
      · rfl
      have hdisk : s₁.disk = s.disk := (wpE_ok hlater hexpired).disk
      rw [← hdisk] at hrest
      cases expired with
      | true => exact ih hnoted hrest
      | false =>
        cases best with
        | none =>
          have hlt : newestTime < createdAtIso m.createdAt := hnoted ▸ empty_lt_createdAtIso hm
          simp only [Bool.false_eq_true, if_false, if_pos hlt]
          exact ih ⟨rfl, hm⟩ hrest
        | some found =>
          obtain ⟨rfl, hfound⟩ := hnoted
          have hiff := createdAtIso_lt_iff hfound hm
          by_cases hlt : found.2.createdAt < m.createdAt
          · simp only [Bool.false_eq_true, if_false, if_pos hlt, if_pos (hiff.mpr hlt)]
            exact ih ⟨rfl, hm⟩ hrest
          · simp only [Bool.false_eq_true, if_false, if_neg hlt, if_neg (mt hiff.mp hlt)]
            exact ih ⟨rfl, hfound⟩ hrest

/-- Comparing ISO texts is comparing times: for any two times, in the sort of a listing and in
the choice of the latest bundle. -/
theorem iso_order (cfg : Config) (env : Environment) :
    (∀ a b : DateTime, cmp a.isoformat b.isoformat = cmp a.instant b.instant) ∧
      (∀ entries : List ListingEntry, (∀ e ∈ entries, Datable e.bundle.createdAt) →
        newestFirstByIso entries = newestFirst entries) ∧
      ∀ (paths : List String) (s : Server),
        (∀ path ∈ paths, ∀ m, cfg.backend.readBundleMeta s.disk.tree path = some m →
          Datable m.createdAt) →
        runE (exec cfg env) (newestBundleByIso cfg "" none paths) s =
          runE (exec cfg env) (newestBundle cfg none paths) s := by
  refine ⟨DateTime.cmp_isoformat, fun entries h => newestFirstByIso_eq h, fun paths s h => ?_⟩
  exact runE_newestBundleByIso rfl h

/-! ## On a small server -/

/-- A manifest made some microseconds into 1970. -/
def madeAt (moment : Nat) : BundleMeta := { smallMeta ["p"] with createdAt := moment }

/-- The server with two bundles, the second made half a second after the first. -/
def datedServer : Server :=
  { srvSystem.server with
    disk := Runs.run srvBackend.step (Disk.init srvTree)
      [.openBundleWrite 0 "inbox/bob:b/p", .writeFile 0 0 "p" [1], .commit 0 0 (madeAt 1000000),
        .openBundleWrite 0 "inbox/bob:b/q", .writeFile 0 1 "p" [1],
        .commit 0 1 (madeAt 1500000)] }

/-- Two bundles half a second apart. -/
theorem iso_order_small :
    newestFirstByIso [⟨"p", madeAt 1000000, none⟩, ⟨"q", madeAt 1500000, none⟩] =
        newestFirst [⟨"p", madeAt 1000000, none⟩, ⟨"q", madeAt 1500000, none⟩] ∧
      runE (exec srvConfig .core)
          (newestBundleByIso srvConfig "" none ["inbox/bob:b/p", "inbox/bob:b/q"]) datedServer =
        runE (exec srvConfig .core)
          (newestBundle srvConfig none ["inbox/bob:b/p", "inbox/bob:b/q"]) datedServer := by
  have horder := iso_order srvConfig .core
  have hp : srvConfig.backend.readBundleMeta datedServer.disk.tree "inbox/bob:b/p" =
      some (madeAt 1000000) := by decide +kernel
  have hq : srvConfig.backend.readBundleMeta datedServer.disk.tree "inbox/bob:b/q" =
      some (madeAt 1500000) := by decide +kernel
  constructor
  · apply horder.2.1
    intro e he
    rcases List.mem_pair.mp he with rfl | rfl <;> decide
  · apply horder.2.2
    intro path hpath m hm
    rcases List.mem_pair.mp hpath with rfl | rfl
    · obtain rfl : madeAt 1000000 = m := Option.some.inj (hp.symm.trans hm)
      decide
    · obtain rfl : madeAt 1500000 = m := Option.some.inj (hq.symm.trans hm)
      decide

end Cassetta
