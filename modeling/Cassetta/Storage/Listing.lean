import Mathlib
import Cassetta.Storage.PrefixFree

/-!
# What a listing shows

`list_bundles` answers with path strings, and its callers hand them back to the backend. In a
tree whose entries have names a directory can hold, each string leads back to the directory it
was made from. A directory is shown when it holds a file and no directory on the way to it
does.
-/

namespace Cassetta

open FileTree

/-! ## Names -/

/-- What an entry of a directory can be called: one component that is no `.` and no `..`. An
operating system takes it where it has at most 255 bytes and no NUL. -/
def FileName (k : String) : Prop := component k = some (.into k) ∧ '/' ∉ k.toList

instance (k : String) : Decidable (FileName k) := inferInstanceAs (Decidable (_ ∧ _))

/-- Every step of a path into something names it as a directory entry. -/
def Proper (path : List (Step String)) : Prop := ∀ k, .into k ∈ path → FileName k

/-- Every entry of the tree has a proper name. -/
def Named (t : DataTree) : Prop := ∀ q n, t.get q = some n → ∀ k ∈ q, FileName k

/-- A tree is named if each of its entries is. -/
theorem named_of_entries {t : DataTree} (h : ∀ e ∈ t.entries, ∀ k ∈ e.1, FileName k) :
    Named t := by
  intro q n hq k hk
  by_cases hnil : q = []
  · subst hnil
    cases hk
  · exact h _ ((Tree.get_eq_some_iff hnil).mp hq) k hk

/-- A name without a slash is one segment. -/
theorem segments_of_not_mem {k : String} (h : '/' ∉ k.toList) : segments k = [k] := by
  rw [segments, List.splitOn_eq_singleton h]
  simp

private theorem not_mem_of_mem_splitOn {l w : List Char} (h : w ∈ l.splitOn '/') : '/' ∉ w := by
  induction l generalizing w with
  | nil =>
    obtain rfl : w = [] := by simpa using h
    simp
  | cons c l ih =>
    rw [List.splitOn_cons_eq_if_modifyHead] at h
    split at h
    · rcases List.mem_cons.mp h with rfl | h
      · simp
      · exact ih h
    · rename_i hc
      obtain ⟨v, vs, hv⟩ := List.exists_cons_of_ne_nil (List.splitOn_ne_nil '/' l)
      rw [hv, List.modifyHead_cons] at h
      rcases List.mem_cons.mp h with rfl | h
      · have hv' := ih (w := v) (by simp [hv])
        simp only [List.mem_cons, not_or]
        exact ⟨fun he => hc (by simp [← he]), hv'⟩
      · exact ih (by simp [hv, h])

/-- A segment has no slash in it. -/
theorem slash_not_mem_of_mem_segments {s seg : String} (h : seg ∈ segments s) :
    '/' ∉ seg.toList := by
  obtain ⟨w, hw, rfl⟩ := List.mem_map.mp h
  rw [String.toList_ofList]
  exact not_mem_of_mem_splitOn hw

/-- The steps of a key are proper. -/
theorem proper_steps (s : String) : Proper (steps s) := by
  intro k hk
  obtain ⟨seg, hseg, hc⟩ := List.mem_filterMap.mp hk
  have hc' := hc
  unfold component at hc'
  split at hc'
  · cases hc'
  · split at hc'
    · cases hc'
    · obtain rfl := Step.into.inj (Option.some.inj hc')
      exact ⟨hc, slash_not_mem_of_mem_segments hseg⟩

/-- Two proper paths make a proper one. -/
theorem Proper.append {p q : List (Step String)} (hp : Proper p) (hq : Proper q) :
    Proper (p ++ q) := fun k hk => (List.mem_append.mp hk).elim (hp k) (hq k)

/-- Some steps of a proper path are proper. -/
theorem Proper.of_sublist {p q : List (Step String)} (hq : Proper q) (h : ∀ s ∈ p, s ∈ q) :
    Proper p := fun k hk => hq k (h _ hk)

/-- The path that spells out names of files is proper. -/
theorem proper_spell {loc : List String} (h : ∀ k ∈ loc, FileName k) : Proper (spell loc) := by
  intro k hk
  obtain ⟨k', hk', he⟩ := List.mem_map.mp hk
  cases he
  exact h k hk'

/-- A key makes a proper path from a proper one. -/
theorem proper_joinPath {base : List (Step String)} (h : Proper base) (key : String) :
    Proper (joinPath base key) := by
  unfold joinPath
  split
  · exact proper_steps key
  · exact h.append (proper_steps key)

/-- A component of the place a path leads to is one the path goes into. -/
theorem mem_normalizeFrom {start : List String} {path : List (Step String)} {k : String}
    (h : k ∈ normalizeFrom start path) : k ∈ start ∨ .into k ∈ path := by
  induction path generalizing start with
  | nil => exact .inl h
  | cons s rest ih =>
    rcases ih h with hs | hr
    · cases s with
      | into k' =>
        rcases List.mem_append.mp hs with hs | hs
        · exact .inl hs
        · obtain rfl := List.mem_singleton.mp hs
          exact .inr List.mem_cons_self
      | up => exact .inl (List.dropLast_subset _ hs)
    · exact .inr (List.mem_cons_of_mem _ hr)

/-- A proper path leads to names of files. -/
theorem Proper.normalize {path : List (Step String)} (h : Proper path) :
    ∀ k ∈ normalize path, FileName k := fun k hk =>
  h k ((mem_normalizeFrom hk).resolve_left (by simp))

/-! ## Names stay proper -/

/-- A tree that grows along a proper path stays named. -/
theorem Named.grown {t t' : DataTree} (h : Named t) {path : List (Step String)}
    (hp : Proper path) (hg : Tree.Grown path t t') : Named t' := by
  intro q n hq
  rcases hg q with he | ⟨-, -, pre, hpre, rfl⟩
  · exact h q n (he ▸ hq)
  · exact (hp.of_sublist fun s hs => hpre.subset hs).normalize

private theorem Named.of_new {t t' : DataTree} (h : Named t) {path : List (Step String)}
    (hp : Proper path) (hget : ∀ q n, t'.get q = some n → t.get q = some n ∨ q = normalize path) :
    Named t' := by
  intro q n hq
  rcases hget q n hq with ho | rfl
  · exact h q n ho
  · exact hp.normalize

/-- A write at a proper path keeps a tree named. -/
theorem Named.write {t t' : DataTree} (h : Named t) {path : List (Step String)} (hp : Proper path)
    {c : Blob} (hw : t.write path c = .ok t') : Named t' := by
  obtain ⟨-, -, -, hget⟩ := Tree.write_ok hw
  refine h.of_new hp fun q n hq => ?_
  rw [hget] at hq
  split at hq
  · exact .inr ‹_›
  · exact .inl hq

/-- A rename to a proper path keeps a tree named. -/
theorem Named.rename {t t' : DataTree} (h : Named t) {src dst : List (Step String)}
    (hp : Proper dst) (hne : normalize src ≠ normalize dst) (hr : t.rename src dst = .ok t') :
    Named t' := by
  obtain ⟨c, -, -, hget⟩ := Tree.rename_ok hr hne
  refine h.of_new hp fun q n hq => ?_
  rw [hget] at hq
  split at hq
  · exact .inr ‹_›
  · split at hq
    · cases hq
    · exact .inl hq

/-- What a removal leaves was there. -/
theorem get_of_rmtree {t : DataTree} {path : List (Step String)} {q : List String}
    {n : Node Blob} (h : (t.rmtree path).2.get q = some n) : t.get q = some n := by
  by_cases hq : q = []
  · subst hq
    simpa using h
  unfold Tree.rmtree at h
  split at h
  · exact h
  · exact h
  · split at h
    · simp only [Tree.get_clear _ _ hq] at h
      split at h
      · cases h
      · exact h
    · simp only [Tree.get_remove _ _ hq] at h
      split at h
      · cases h
      · exact h

/-- A removal keeps a tree named. -/
theorem Named.rmtree {t : DataTree} (h : Named t) (path : List (Step String)) :
    Named (t.rmtree path).2 := fun q n hq => h q n (get_of_rmtree hq)

namespace Backend

variable {b : Backend}

/-- The data root is proper. -/
theorem proper_dataRoot (hroot : ∀ k ∈ b.root, FileName k) : Proper b.dataRoot := by
  refine proper_spell fun k hk => ?_
  rcases List.mem_append.mp hk with hk | hk
  · exact hroot k hk
  · obtain rfl := List.mem_singleton.mp hk
    decide

/-- A key resolves to a proper path. -/
theorem proper_resolve (hroot : ∀ k ∈ b.root, FileName k) (key : String) :
    Proper (b.resolve key) := proper_joinPath (proper_dataRoot hroot) key

/-! ## From a path to its string and back -/

/-- The string of a step. -/
def stepName : Step String → String
  | .into k => k
  | .up => ".."

/-- A string that begins with a name is relative. -/
theorem isAbsolute_append {k rest : String} (hne : k ≠ "") (h : '/' ∉ k.toList) :
    isAbsolute (k ++ rest) = false := by
  obtain ⟨c, cs, hk⟩ := List.exists_cons_of_ne_nil fun he => hne (String.toList_eq_nil_iff.mp he)
  rw [hk] at h
  have hc : ('/' == c) = false := by
    rw [beq_eq_false_iff_ne]
    rintro rfl
    exact h List.mem_cons_self
  have hl : (k ++ rest).toList = c :: (cs ++ rest.toList) := by simp [hk]
  rw [isAbsolute, startsWith, hl]
  simp [List.isPrefixOf, hc]

private theorem stepName_reads {s : Step String} (h : ∀ k, s = .into k → FileName k) :
    stepName s ≠ "" ∧ '/' ∉ (stepName s).toList ∧ steps (stepName s) = [s] := by
  have hs : component (stepName s) = some s ∧ '/' ∉ (stepName s).toList := by
    cases s with
    | into k => exact h k rfl
    | up => exact ⟨by decide, by decide⟩
  refine ⟨fun he => ?_, hs.2, by simp [steps, segments_of_not_mem hs.2, hs.1]⟩
  have hc := hs.1
  rw [he] at hc
  cases hc

/-- Proper components that are joined with slashes are read back as they were. -/
theorem steps_intercalate {rel : List (Step String)} (hne : rel ≠ []) (h : Proper rel) :
    steps ("/".intercalate (rel.map stepName)) = rel ∧
      isAbsolute ("/".intercalate (rel.map stepName)) = false := by
  induction rel with
  | nil => exact absurd rfl hne
  | cons s rest ih =>
    obtain ⟨hempty, hslash, hs⟩ := stepName_reads fun k hk => h k (hk ▸ List.mem_cons_self)
    by_cases hrest : rest = []
    · subst hrest
      have habs : isAbsolute (stepName s ++ "") = false := isAbsolute_append hempty hslash
      simpa using ⟨hs, by simpa using habs⟩
    · obtain ⟨ih₁, -⟩ := ih hrest (h.of_sublist fun s' hs' => List.mem_cons_of_mem _ hs')
      rw [List.map_cons, String.intercalate_cons_of_ne_nil (by simpa using hrest)]
      refine ⟨by rw [steps_append_slash, hs, ih₁]; rfl, ?_⟩
      rw [String.append_assoc]
      exact isAbsolute_append hempty hslash

/-- The string of a path below the data root leads back to it. -/
theorem resolve_relPosix {rel : List (Step String)} (hne : rel ≠ []) (h : Proper rel) :
    b.resolve (b.relPosix (b.dataRoot ++ rel)) = b.dataRoot ++ rel := by
  have hrel : b.relPosix (b.dataRoot ++ rel) = "/".intercalate (rel.map stepName) := by
    unfold relPosix
    rw [List.drop_left]
    cases rel with
    | nil => exact absurd rfl hne
    | cons s rest => rfl
  obtain ⟨hs, habs⟩ := steps_intercalate hne h
  rw [hrel, resolve, joinPath, habs, hs]
  rfl

/-! ## The walk -/

/-- A directory below a base that the walk comes to: no directory between them holds a file. -/
def Visited (t : DataTree) (base x : List String) : Prop :=
  x ≠ [] ∧ t.get (base ++ x) = some .dir ∧
    ∀ y, y ≠ [] → StrictlyInside y x → fileNames t (base ++ y) = []

/-- What the walk says of a directory it comes to. -/
def Sighted (d : Disk) (orphans : Bool) (loc : List String) (r : BundleRef) : Prop :=
  r.mtime = d.mtime loc ∧
    (bundleManifest ∈ fileNames d.tree loc ∧ r.hasMeta = true ∨
      bundleManifest ∉ fileNames d.tree loc ∧ fileNames d.tree loc ≠ [] ∧ orphans = true ∧
        r.hasMeta = false)

private theorem visited_cons {t : DataTree} {base x : List String} {k : String} (hx : x ≠ []) :
    Visited t base (k :: x) ↔ t.get (base ++ [k]) = some .dir ∧ fileNames t (base ++ [k]) = [] ∧
      Visited t (base ++ [k]) x := by
  have happ : ∀ y, base ++ [k] ++ y = base ++ k :: y := by simp
  constructor
  · rintro ⟨-, hdir, hclear⟩
    refine ⟨Tree.get_of_prefix ⟨x, happ x⟩ (by simpa using hx.symm) hdir,
      hclear [k] (by simp) ⟨⟨x, rfl⟩, by simpa using hx⟩, hx, by rwa [happ], fun y hy hyx => ?_⟩
    rw [happ]
    exact hclear (k :: y) (by simp) ⟨by simpa using hyx.1, by simpa using hyx.2⟩
  · rintro ⟨-, hnil, -, hdir, hclear⟩
    refine ⟨by simp, by rwa [happ] at hdir, fun y hy hyx => ?_⟩
    obtain ⟨k', y, rfl⟩ := List.exists_cons_of_ne_nil hy
    obtain ⟨rfl, hp⟩ := List.cons_prefix_cons.mp hyx.1
    by_cases hy' : y = []
    · subst hy'
      exact hnil
    · rw [← happ]
      exact hclear y hy' ⟨hp, fun he => hyx.2 (by rw [he])⟩

private theorem visited_singleton {t : DataTree} {base : List String} {k : String} :
    Visited t base [k] ↔ t.get (base ++ [k]) = some .dir := by
  refine ⟨fun h => h.2.1, fun h => ⟨by simp, h, fun y hy hyk => ?_⟩⟩
  have hlen := hyk.1.length_le
  have hpos := List.length_pos_of_ne_nil hy
  exact absurd (hyk.1.eq_of_length (by simp at hlen ⊢; omega)).symm hyk.2

/-- One level of the walk. -/
theorem mem_walkBundles_succ {d : Disk} {orphans : Bool} {r : BundleRef} {fuel : Nat}
    {dir : List (Step String)} :
    r ∈ b.walkBundles d orphans (fuel + 1) dir ↔
      ∃ k, d.tree.get (normalize dir ++ [k]) = some .dir ∧
        (r.path = b.relPosix (dir ++ [.into k]) ∧ Sighted d orphans (normalize dir ++ [k]) r ∨
          fileNames d.tree (normalize dir ++ [k]) = [] ∧
            r ∈ b.walkBundles d orphans fuel (dir ++ [.into k])) := by
  have hsub : ∀ k, FileTree.normalize (dir ++ [.into k]) = normalize dir ++ [k] := fun k => by
    simp [Step.apply]
  have hchild : ∀ k, r ∈ (if bundleManifest ∈ fileNames d.tree (normalize dir ++ [k]) then
        [⟨b.relPosix (dir ++ [.into k]), true, d.mtime (normalize dir ++ [k])⟩]
      else if fileNames d.tree (normalize dir ++ [k]) ≠ [] then
        (if orphans then [⟨b.relPosix (dir ++ [.into k]), false, d.mtime (normalize dir ++ [k])⟩]
          else [])
      else b.walkBundles d orphans fuel (dir ++ [.into k])) ↔
      (r.path = b.relPosix (dir ++ [.into k]) ∧ Sighted d orphans (normalize dir ++ [k]) r ∨
          fileNames d.tree (normalize dir ++ [k]) = [] ∧
            r ∈ b.walkBundles d orphans fuel (dir ++ [.into k])) := by
    intro k
    obtain ⟨p, hasMeta, mt⟩ := r
    by_cases hman : bundleManifest ∈ fileNames d.tree (normalize dir ++ [k])
    · have hne := List.ne_nil_of_mem hman
      rw [if_pos hman]
      simp only [List.mem_singleton, BundleRef.mk.injEq, Sighted, hman, hne]
      tauto
    · by_cases hne : fileNames d.tree (normalize dir ++ [k]) = []
      · simp [hne, Sighted]
      · rw [if_neg hman, if_pos hne]
        cases orphans <;>
          simp only [Bool.false_eq_true, if_true, if_false, List.mem_singleton, List.not_mem_nil,
            BundleRef.mk.injEq, Sighted, hman, hne] <;> tauto
  rw [walkBundles, List.mem_flatMap]
  constructor
  · rintro ⟨⟨k, n⟩, hc, hr⟩
    cases n with
    | file c => cases hr
    | dir =>
      simp only [hsub] at hr
      exact ⟨k, Tree.mem_children.mp hc, (hchild k).mp hr⟩
  · rintro ⟨k, hk, hr⟩
    refine ⟨(k, .dir), Tree.mem_children.mpr hk, ?_⟩
    simp only [hsub]
    exact (hchild k).mpr hr

/-- The walk shows the directories it comes to, and nothing else. -/
theorem mem_walkBundles_iff {d : Disk} {orphans : Bool} {r : BundleRef} {fuel : Nat}
    {dir : List (Step String)} :
    r ∈ b.walkBundles d orphans fuel dir ↔ ∃ x, x.length ≤ fuel ∧
      Visited d.tree (normalize dir) x ∧ r.path = b.relPosix (dir ++ spell x) ∧
      Sighted d orphans (normalize dir ++ x) r := by
  induction fuel generalizing dir with
  | zero =>
    simp only [walkBundles, List.not_mem_nil, false_iff, not_exists, not_and]
    intro x hx hv
    exact absurd (List.length_eq_zero_iff.mp (Nat.le_zero.mp hx)) hv.1
  | succ fuel ih =>
    have happ : ∀ k x, dir ++ [.into k] ++ spell x = dir ++ spell (k :: x) := by simp [spell]
    have hloc : ∀ k x, normalize dir ++ [k] ++ x = normalize dir ++ k :: x := by simp
    have hsub : ∀ k, FileTree.normalize (dir ++ [.into k]) = normalize dir ++ [k] := fun k => by
      simp [Step.apply]
    rw [mem_walkBundles_succ]
    constructor
    · rintro ⟨k, hk, ⟨hp, hs⟩ | ⟨hnil, hr⟩⟩
      · exact ⟨[k], by simp, visited_singleton.mpr hk, hp, hs⟩
      · obtain ⟨x, hlen, hv, hp, hs⟩ := ih.mp hr
        rw [hsub] at hv hs
        exact ⟨k :: x, by simpa using hlen, (visited_cons hv.1).mpr ⟨hk, hnil, hv⟩,
          by rw [hp, happ], by rwa [hloc] at hs⟩
    · rintro ⟨x, hlen, hv, hp, hs⟩
      obtain ⟨k, x, rfl⟩ := List.exists_cons_of_ne_nil hv.1
      by_cases hx : x = []
      · subst hx
        exact ⟨k, hv.2.1, .inl ⟨hp, hs⟩⟩
      · obtain ⟨hk, hnil, hv'⟩ := (visited_cons hx).mp hv
        refine ⟨k, hk, .inr ⟨hnil, ih.mpr ⟨x, by simpa using hlen, ?_, ?_, ?_⟩⟩⟩
        · rwa [hsub]
        · rw [hp, happ]
        · rwa [hsub, hloc]

/-- Two directories on one walk have two paths. -/
theorem relPosix_inj {rel : List (Step String)} (hrel : Proper rel) {x y : List String}
    (hx : x ≠ []) (hy : y ≠ []) (hxn : ∀ k ∈ x, FileName k) (hyn : ∀ k ∈ y, FileName k)
    (h : b.relPosix (b.dataRoot ++ rel ++ spell x) = b.relPosix (b.dataRoot ++ rel ++ spell y)) :
    x = y := by
  have hback : ∀ {z : List String}, z ≠ [] → (∀ k ∈ z, FileName k) →
      b.resolve (b.relPosix (b.dataRoot ++ rel ++ spell z)) = b.dataRoot ++ rel ++ spell z := by
    intro z hz hzn
    rw [List.append_assoc]
    exact resolve_relPosix (by simp [spell, hz]) (hrel.append (proper_spell hzn))
  have hpath := congrArg b.resolve h
  rw [hback hx hxn, hback hy hyn] at hpath
  have hspell := List.append_cancel_left hpath
  rw [← normalize_spell x, hspell, normalize_spell]

/-- What the walk shows of one entry of a directory. -/
def walkChild (b : Backend) (d : Disk) (orphans : Bool) (fuel : Nat) (dir : List (Step String))
    (c : String × Node Blob) : List BundleRef :=
  match c.2 with
  | .file _ => []
  | .dir =>
    let sub := dir ++ [.into c.1]
    let files := fileNames d.tree (normalize sub)
    let ref (hasMeta : Bool) : BundleRef := ⟨b.relPosix sub, hasMeta, d.mtime (normalize sub)⟩
    if bundleManifest ∈ files then [ref true]
    else if files ≠ [] then (if orphans then [ref false] else [])
    else b.walkBundles d orphans fuel sub

private theorem walkBundles_succ (d : Disk) (orphans : Bool) (fuel : Nat)
    (dir : List (Step String)) :
    b.walkBundles d orphans (fuel + 1) dir =
      (d.tree.children (normalize dir)).flatMap (b.walkChild d orphans fuel dir) := rfl

private theorem walkChild_cases (d : Disk) (orphans : Bool) (fuel : Nat) (dir : List (Step String))
    (c : String × Node Blob) :
    b.walkChild d orphans fuel dir c = [] ∨
      (∃ r, b.walkChild d orphans fuel dir c = [r] ∧ r.path = b.relPosix (dir ++ [.into c.1])) ∨
      b.walkChild d orphans fuel dir c = b.walkBundles d orphans fuel (dir ++ [.into c.1]) := by
  unfold walkChild
  dsimp only
  split
  · exact .inl rfl
  · split
    · exact .inr (.inl ⟨_, rfl, rfl⟩)
    · split
      · split
        · exact .inr (.inl ⟨_, rfl, rfl⟩)
        · exact .inl rfl
      · exact .inr (.inr rfl)

/-- What the walk shows of an entry lies at it or below. -/
theorem path_of_mem_walkChild {d : Disk} (hnamed : Named d.tree) {orphans : Bool} {fuel : Nat}
    {dir : List (Step String)} {c : String × Node Blob} {r : BundleRef}
    (hr : r ∈ b.walkChild d orphans fuel dir c) :
    ∃ x, (∀ k ∈ x, FileName k) ∧ r.path = b.relPosix (dir ++ spell (c.1 :: x)) := by
  rcases b.walkChild_cases d orphans fuel dir c with hnil | ⟨r', hone, hpath⟩ | hrest
  · rw [hnil] at hr
    cases hr
  · rw [hone, List.mem_singleton] at hr
    subst hr
    exact ⟨[], by simp, by rw [hpath]; rfl⟩
  · rw [hrest] at hr
    obtain ⟨x, -, hv, hpath, -⟩ := mem_walkBundles_iff.mp hr
    refine ⟨x, fun k hk => hnamed _ _ hv.2.1 k (List.mem_append_right _ hk), ?_⟩
    rw [hpath]
    simp [spell]

/-- The walk shows no path twice. -/
theorem nodup_walkBundles {d : Disk} (hnamed : Named d.tree) (orphans : Bool) (fuel : Nat)
    {rel : List (Step String)} (hrel : Proper rel) :
    ((b.walkBundles d orphans fuel (b.dataRoot ++ rel)).map (·.path)).Nodup := by
  induction fuel generalizing rel with
  | zero => simp [walkBundles]
  | succ fuel ih =>
    have hname : ∀ {c : String × Node Blob},
        c ∈ d.tree.children (normalize (b.dataRoot ++ rel)) → FileName c.1 := by
      intro c hc
      exact hnamed _ _ (Tree.mem_children.mp hc) _ (by simp)
    rw [walkBundles_succ, List.map_flatMap, List.nodup_flatMap]
    refine ⟨fun c hc => ?_, ?_⟩
    · rcases b.walkChild_cases d orphans fuel (b.dataRoot ++ rel) c with
        hnil | ⟨r, hone, -⟩ | hrest
      · simp [hnil]
      · simp [hone]
      · have hone : ∀ k ∈ [c.1], FileName k := by simpa using hname hc
        rw [hrest, List.append_assoc]
        exact ih (hrel.append (proper_spell hone))
    · have hkeys := List.pairwise_map.mp (d.tree.nodup_children (normalize (b.dataRoot ++ rel)))
      refine hkeys.imp_of_mem ?_
      intro c c' hc hc' hne path hp hp'
      obtain ⟨r, hr, rfl⟩ := List.mem_map.mp hp
      obtain ⟨r', hr', heq⟩ := List.mem_map.mp hp'
      obtain ⟨x, hx, hpath⟩ := path_of_mem_walkChild hnamed hr
      obtain ⟨x', hx', hpath'⟩ := path_of_mem_walkChild hnamed hr'
      have hall : ∀ k ∈ c.1 :: x, FileName k := by simpa using ⟨hname hc, hx⟩
      have hall' : ∀ k ∈ c'.1 :: x', FileName k := by simpa using ⟨hname hc', hx'⟩
      have hsame := relPosix_inj hrel (by simp) (by simp) hall hall'
        (hpath.symm.trans (heq.symm.trans hpath'))
      exact hne (List.cons.inj hsame).1

/-! ## The listing -/

private theorem resolve_empty : b.resolve "" = b.dataRoot := by
  simp [resolve, joinPath, isAbsolute, startsWith, steps, segments, component]

variable {d : Disk} {pre : String} {orphans : Bool} {refs : List BundleRef} {r : BundleRef}

/-- A listing is what the walk below its prefix finds, in order. -/
theorem listBundles_eq (d : Disk) (pre : String) (orphans : Bool) :
    b.listBundles d pre orphans =
      if ¬d.tree.isDir (b.resolve pre) then .ok []
      else if ¬b.dataRoot <+: b.resolve pre ∧ d.tree.children (b.location pre) ≠ [] then
        .error (.valueError "is not in the subpath of")
      else .ok ((b.walkBundles d orphans ((d.tree.entries.map fun e => e.1.length).sum + 1)
        (b.resolve pre)).insertionSort (fun r s => r.path ≤ s.path)) := by
  have hbase : (if pre = "" then b.dataRoot else joinPath b.dataRoot pre) = b.resolve pre := by
    split
    · rename_i he
      rw [he, resolve_empty]
    · rfl
  unfold listBundles
  simp only [hbase]
  rfl

/-- A listing below the data root goes through. -/
theorem listBundles_ok (h : b.dataRoot <+: b.resolve pre) (d : Disk) (orphans : Bool) :
    ∃ refs, b.listBundles d pre orphans = .ok refs := by
  rw [listBundles_eq]
  split
  · exact ⟨_, rfl⟩
  · simp [h]

/-- What is listed is what is visited below the prefix and sighted. -/
theorem mem_listBundles_iff (h : b.listBundles d pre orphans = .ok refs) :
    r ∈ refs ↔ d.tree.isDir (b.resolve pre) = true ∧ ∃ x, Visited d.tree (b.location pre) x ∧
      r.path = b.relPosix (b.resolve pre ++ spell x) ∧
        Sighted d orphans (b.location pre ++ x) r := by
  rw [listBundles_eq] at h
  split at h
  · rename_i hnd
    obtain rfl := Except.ok.inj h
    simp [hnd]
  · rename_i hd
    split at h
    · cases h
    · obtain rfl := Except.ok.inj h
      rw [List.mem_insertionSort, mem_walkBundles_iff]
      constructor
      · rintro ⟨x, -, hv, hp, hs⟩
        exact ⟨not_not.mp hd, x, hv, hp, hs⟩
      · rintro ⟨-, x, hv, hp, hs⟩
        refine ⟨x, ?_, hv, hp, hs⟩
        have hmem := (Tree.get_eq_some_iff (by simp [hv.1])).mp hv.2.1
        have hle := List.single_le_sum (by simp) _
          (List.mem_map_of_mem (f := fun e => e.1.length) hmem)
        simp only [List.length_append] at hle
        omega

/-- A listing is sorted by path and shows no path twice. -/
theorem sorted_listBundles (hnamed : Named d.tree) {rel : List (Step String)} (hrel : Proper rel)
    (hpre : b.resolve pre = b.dataRoot ++ rel) (h : b.listBundles d pre orphans = .ok refs) :
    (refs.map (·.path)).Pairwise (· < ·) := by
  rw [listBundles_eq, hpre] at h
  split at h
  · obtain rfl := Except.ok.inj h
    exact List.Pairwise.nil
  · split at h
    · cases h
    · obtain rfl := Except.ok.inj h
      generalize hwalk : b.walkBundles d orphans _ (b.dataRoot ++ rel) = walk
      have hnodup : (walk.map (·.path)).Nodup := by
        rw [← hwalk]
        exact nodup_walkBundles hnamed orphans _ hrel
      have htrans : IsTrans BundleRef fun r s => r.path ≤ s.path := ⟨fun _ _ _ => le_trans⟩
      have htotal : Std.Total fun r s : BundleRef => r.path ≤ s.path := ⟨fun r s => le_total _ _⟩
      have hsorted := List.pairwise_insertionSort (fun r s : BundleRef => r.path ≤ s.path) walk
      have hdistinct : ((walk.insertionSort fun r s => r.path ≤ s.path).map (·.path)).Nodup :=
        ((List.perm_insertionSort _ walk).map _).nodup_iff.mpr hnodup
      rw [List.Nodup, List.pairwise_map] at hdistinct
      rw [List.pairwise_map]
      exact (hsorted.and hdistinct).imp fun hle => lt_of_le_of_ne hle.1 hle.2

/-- What is listed leads back to the directory it stands for. -/
theorem resolve_of_mem_listBundles (hnamed : Named d.tree)
    (h : b.listBundles d pre orphans = .ok refs) (hr : r ∈ refs) :
    ∃ x, Visited d.tree (b.location pre) x ∧ b.resolve r.path = b.resolve pre ++ spell x ∧
      r.path = b.relPosix (b.resolve pre ++ spell x) ∧
        Sighted d orphans (b.location pre ++ x) r := by
  obtain ⟨hd, x, hv, hp, hs⟩ := (mem_listBundles_iff h).mp hr
  refine ⟨x, hv, ?_, hp, hs⟩
  have hroot : b.dataRoot <+: b.resolve pre := by
    by_contra hnot
    rw [listBundles_eq, if_neg (not_not.mpr hd), if_pos] at h
    · cases h
    · refine ⟨hnot, fun hnil => ?_⟩
      obtain ⟨k, x', rfl⟩ := List.exists_cons_of_ne_nil hv.1
      have hk : ∃ n, d.tree.get (b.location pre ++ [k]) = some n := by
        by_cases hx : x' = []
        · subst hx
          exact ⟨_, hv.2.1⟩
        · exact ⟨_, ((visited_cons hx).mp hv).1⟩
      obtain ⟨n, hn⟩ := hk
      have hmem := Tree.mem_children.mpr hn
      rw [hnil] at hmem
      cases hmem
  obtain ⟨rel, hrel⟩ := hroot
  have hproper : Proper rel := by
    unfold resolve joinPath at hrel
    split at hrel
    · exact (proper_steps pre).of_sublist fun s hs => hrel ▸ List.mem_append_right _ hs
    · rw [List.append_cancel_left hrel]
      exact proper_steps pre
  have hspell : Proper (spell x) :=
    proper_spell fun k hk => hnamed _ _ hv.2.1 k (List.mem_append_right _ hk)
  rw [hp, ← hrel, List.append_assoc,
    resolve_relPosix (by simp [spell, hv.1]) (hproper.append hspell)]

/-- The location of a key that resolves below another. -/
theorem location_of_resolve {key key' : String} {x : List String}
    (h : b.resolve key = b.resolve key' ++ spell x) : b.location key = b.location key' ++ x := by
  rw [location, h, normalize_append, normalizeFrom_spell, ← location]

end Backend

end Cassetta
