import Mathlib
import Cassetta.Storage.Path

/-!
# What the path checks accept

`validate_path` accepts the strings its four checks describe, and beyond them those that end in
one newline, since `$` also matches before it. `validate_manifest` looks for path prefixes
among the neighbours of the sorted names only. A name that sorts between another and its
extensions, as `a-b` does between `a` and `a/c`, hides them from it.
-/

namespace Cassetta

open FileTree

/-! ## validate_path -/

/-- The segments of a path that is split at `/` and at the backslash. -/
def separated (s : String) : List String :=
  (s.toList.splitOnP fun c => c = '/' || c = '\\').map String.ofList

/-- A path that is not empty or absolute, has no parent segment, and whose characters are all
allowed. -/
structure SoundPath (allowed : Char → Bool) (path : String) : Prop where
  ne_empty : path ≠ ""
  relative : isAbsolute path = false
  no_parent : ".." ∉ separated path
  chars : ∀ c ∈ path.toList, allowed c = true

/-- A path that would be sound without a newline at its end. -/
structure NewlineEnded (allowed : Char → Bool) (path : String) : Prop where
  relative : isAbsolute path = false
  no_parent : ".." ∉ separated path
  ended : ∃ p, path = p ++ "\n" ∧ p ≠ "" ∧ ∀ c ∈ p.toList, allowed c = true

/-- Replacing the backslash first and splitting at `/` splits at both. -/
theorem segments_slashed (s : String) : segments (slashed s) = separated s := by
  rw [segments, slashed, separated, String.toList_ofList]
  congr 1
  induction s.toList with
  | nil => rfl
  | cons c l ih =>
    rw [List.map_cons, List.splitOn_cons_eq_if_modifyHead, List.splitOnP_cons_eq_if_modifyHead, ih]
    by_cases hslash : c = '/'
    · subst hslash
      rfl
    by_cases hback : c = '\\'
    · subst hback
      rfl
    · simp [hslash, hback]

/-- What the anchored class matches. -/
theorem matchesClass_iff {allowed : Char → Bool} {path : String} (hne : path ≠ "") :
    matchesClass allowed path.toList = true ↔ (∀ c ∈ path.toList, allowed c = true) ∨
      ∃ p, path = p ++ "\n" ∧ p ≠ "" ∧ ∀ c ∈ p.toList, allowed c = true := by
  have hnil : path.toList.isEmpty = false := by simpa using hne
  simp only [matchesClass, hnil, Bool.not_false, Bool.true_and, Bool.or_eq_true, List.all_eq_true,
    Bool.and_eq_true, decide_eq_true_eq, Bool.not_eq_true', List.isEmpty_eq_false_iff]
  refine or_congr_right ⟨?_, ?_⟩
  · rintro ⟨⟨hlast, hinit⟩, hall⟩
    refine ⟨String.ofList path.toList.dropLast, ?_, by simpa using hinit, by simpa using hall⟩
    have hsplit := List.dropLast_append_getLast? '\n' hlast
    rw [← String.toList_inj, String.toList_append, String.toList_ofList]
    exact hsplit.symm
  · rintro ⟨p, rfl, hp, hall⟩
    have hchars : (p ++ "\n").toList = p.toList ++ ['\n'] := by rw [String.toList_append]; rfl
    rw [hchars, List.getLast?_concat, List.dropLast_concat]
    exact ⟨⟨rfl, by simpa using hp⟩, hall⟩

/-- The accepted strings, for any class of characters. -/
theorem validatePath_iff {allowed : Char → Bool} {path : String} :
    validatePath allowed path = .ok () ↔ SoundPath allowed path ∨ NewlineEnded allowed path := by
  unfold validatePath
  split
  · rename_i hempty
    refine iff_of_false nofun ?_
    rintro (h | ⟨-, -, p, rfl, hp, -⟩)
    · exact h.ne_empty hempty
    · simp at hempty
  rename_i hne
  split
  · rename_i habs
    refine iff_of_false nofun ?_
    rintro (h | h)
    · exact absurd habs (by simp [h.relative])
    · exact absurd habs (by simp [h.relative])
  rename_i hrel
  have hrel' : isAbsolute path = false := by simpa using hrel
  rw [segments_slashed]
  split
  · rename_i hup
    refine iff_of_false nofun ?_
    rintro (h | h)
    · exact h.no_parent hup
    · exact h.no_parent hup
  rename_i hup
  have hmatches : matchesClass allowed path.toList = true ↔ _ := matchesClass_iff hne
  split
  · rename_i hm
    refine iff_of_true rfl ?_
    rcases hmatches.mp hm with hall | hended
    · exact .inl ⟨hne, hrel', hup, hall⟩
    · exact .inr ⟨hrel', hup, hended⟩
  · rename_i hm
    refine iff_of_false nofun ?_
    rintro (h | h)
    · exact hm (hmatches.mpr (.inl h.chars))
    · exact hm (hmatches.mpr (.inr h.ended))

/-- `validate_path` accepts exactly the sound paths, but for those that a newline at their end
makes unsound. -/
theorem validatePath_exact_iff (path : String) :
    (validatePath defaultAllowedChars path = .ok () ↔ SoundPath defaultAllowedChars path) ↔
      ¬NewlineEnded defaultAllowedChars path := by
  rw [validatePath_iff]
  constructor
  · intro hexact hended
    have hsound := hexact.mp (.inr hended)
    obtain ⟨p, rfl, -, -⟩ := hended.ended
    exact absurd (hsound.chars '\n' (by simp)) (by decide)
  · intro hended
    exact or_iff_left hended

/-- A name that ends in a newline is accepted, even after a parent segment. -/
theorem validatePath_newline :
    ¬(validatePath defaultAllowedChars "..\n" = .ok () ↔
      SoundPath defaultAllowedChars "..\n") := by
  intro hexact
  have hsound := hexact.mp (by decide)
  exact absurd (hsound.chars '\n' (by decide)) (by decide)

/-! ## validate_manifest -/

/-- A name is a strict path prefix of another. -/
def PathPrefix (n m : String) : Prop := startsWith m (n ++ "/") = true

/-- The checks on the single entries. -/
structure SoundEntries (names : List String) : Prop where
  valid : ∀ n ∈ names, validatePath defaultAllowedChars n = .ok ()
  unreserved : ∀ n ∈ names, n ≠ bundleManifest
  distinct : names.Nodup

/-- A list of names that a bundle can have. -/
structure SoundManifest (names : List String) : Prop extends SoundEntries names where
  prefixFree : ∀ n ∈ names, ∀ m ∈ names, ¬PathPrefix n m

/-- `validate_manifest` accepts exactly the sound lists, in any order. -/
def ManifestExact (names : List String) : Prop :=
  (validateManifest names = .ok () ↔ SoundManifest names) ∧
    ∀ names', names.Perm names' →
      (validateManifest names' = .ok () ↔ validateManifest names = .ok ())

/-- A path prefix that nothing sorts in front of: no other name of the list comes after it and
before its extensions. -/
def Exposed (names : List String) : Prop :=
  ∃ n ∈ names, (∃ m ∈ names, PathPrefix n m) ∧ ∀ x ∈ names, n < x → n ++ "/" ≤ x

private theorem validatePathForManifest_iff {name : String} :
    validatePathForManifest name = .ok () ↔ validatePath defaultAllowedChars name = .ok () := by
  refine ⟨validatePathForManifest_ok, fun h => ?_⟩
  obtain ⟨hne, habs, -⟩ := validatePath_ok h
  simp [validatePathForManifest, hne, habs, h]

private theorem soundEntries_cons {name : String} {rest : List String} :
    SoundEntries (name :: rest) ↔ (validatePath defaultAllowedChars name = .ok () ∧
      name ≠ bundleManifest ∧ name ∉ rest) ∧ SoundEntries rest := by
  constructor
  · rintro ⟨hvalid, hunres, hdist⟩
    rw [List.forall_mem_cons] at hvalid hunres
    rw [List.nodup_cons] at hdist
    exact ⟨⟨hvalid.1, hunres.1, hdist.1⟩, hvalid.2, hunres.2, hdist.2⟩
  · rintro ⟨⟨hvalid, hunres, hnew⟩, hrest⟩
    exact ⟨List.forall_mem_cons.mpr ⟨hvalid, hrest.valid⟩,
      List.forall_mem_cons.mpr ⟨hunres, hrest.unreserved⟩,
      List.nodup_cons.mpr ⟨hnew, hrest.distinct⟩⟩

private theorem SoundEntries.perm {names names' : List String} (h : SoundEntries names)
    (hp : names.Perm names') : SoundEntries names' :=
  ⟨fun n hn => h.valid n (hp.mem_iff.mpr hn), fun n hn => h.unreserved n (hp.mem_iff.mpr hn),
    hp.nodup h.distinct⟩

/-- The loop over the entries comes to the names it was given. -/
theorem validateEntries_iff {seen names out : List String} :
    validateEntries seen names = .ok out ↔
      out = seen ++ names ∧ SoundEntries names ∧ ∀ n ∈ names, n ∉ seen := by
  induction names generalizing seen with
  | nil =>
    have hnil : SoundEntries [] := ⟨by rintro _ ⟨⟩, by rintro _ ⟨⟩, List.nodup_nil⟩
    simp [validateEntries, hnil, eq_comm]
  | cons name rest ih =>
    rw [soundEntries_cons, validateEntries]
    cases hvalid : validatePathForManifest name with
    | error e =>
      refine iff_of_false (by rintro ⟨⟩) fun h => ?_
      rw [validatePathForManifest_iff.mpr h.2.1.1.1] at hvalid
      cases hvalid
    | ok u =>
      dsimp only
      split
      · rename_i hres
        exact iff_of_false (by rintro ⟨⟩) fun h => h.2.1.1.2.1 hres
      · rename_i hres
        split
        · rename_i hseen
          exact iff_of_false (by rintro ⟨⟩) fun h => h.2.2 name (by simp) hseen
        · rename_i hseen
          have hname := validatePathForManifest_iff.mp hvalid
          simp only [ih, List.append_assoc, List.singleton_append, List.mem_append,
            List.mem_singleton, not_or, List.forall_mem_cons]
          constructor
          · rintro ⟨hout, hrest, hnew⟩
            exact ⟨hout, ⟨⟨hname, hres, fun h => (hnew name h).2 rfl⟩, hrest⟩, hseen,
              fun n hn => (hnew n hn).1⟩
          · rintro ⟨hout, ⟨⟨-, -, hnot⟩, hrest⟩, -, hnew⟩
            exact ⟨hout, hrest, fun n hn => ⟨hnew n hn, fun h => hnot (h ▸ hn)⟩⟩

/-! ## Neighbours -/

/-- In a sorted list, a relation holds between all neighbours exactly when it holds between any
two members with none between them. -/
theorem isChain_iff_of_sorted {α : Type} [LinearOrder α] {R : α → α → Prop} {l : List α}
    (hl : l.Pairwise (· < ·)) :
    l.IsChain R ↔ ∀ a ∈ l, ∀ c ∈ l, a < c → (∀ x ∈ l, a < x → c ≤ x) → R a c := by
  induction l with
  | nil => simp
  | cons first l ih =>
    rw [List.pairwise_cons] at hl
    obtain ⟨hfirst, hrest⟩ := hl
    cases l with
    | nil => simp
    | cons second l =>
      have hsecond : ∀ x ∈ second :: l, second ≤ x := by
        intro x hx
        rcases List.mem_cons.mp hx with rfl | hx
        · exact le_rfl
        · exact ((List.pairwise_cons.mp hrest).1 x hx).le
      rw [List.isChain_cons_cons, ih hrest]
      constructor
      · rintro ⟨hR, hrec⟩ a ha c hc hac hnone
        have hc' : c ∈ second :: l := by
          rcases List.mem_cons.mp hc with rfl | hc'
          · rcases List.mem_cons.mp ha with rfl | ha'
            · exact absurd hac (lt_irrefl _)
            · exact absurd (hac.trans (hfirst a ha')) (lt_irrefl _)
          · exact hc'
        rcases List.mem_cons.mp ha with rfl | ha'
        · have heq : c = second :=
            le_antisymm (hnone second (by simp) (hfirst second (by simp))) (hsecond c hc')
          exact heq ▸ hR
        · exact hrec a ha' c hc' hac fun x hx hax => hnone x (List.mem_cons_of_mem _ hx) hax
      · intro h
        refine ⟨h first (by simp) second (by simp) (hfirst second (by simp)) ?_, ?_⟩
        · intro x hx hax
          rcases List.mem_cons.mp hx with rfl | hx
          · exact absurd hax (lt_irrefl _)
          · exact hsecond x hx
        · intro a ha c hc hac hnone
          refine h a (by simp [ha]) c (by simp [hc]) hac fun x hx hax => ?_
          rcases List.mem_cons.mp hx with rfl | hx
          · exact absurd (hax.trans (hfirst a ha)) (lt_irrefl _)
          · exact hnone x hx hax

private theorem prefixCollision_eq_none_iff {names : List String} :
    prefixCollision names = none ↔ names.IsChain fun prev curr => ¬PathPrefix prev curr := by
  fun_induction prefixCollision names with
  | case1 prev curr rest h => simp [PathPrefix, h]
  | case2 prev curr rest h ih => simp [PathPrefix, h, ih]
  | case3 names h =>
    match names, h with
    | [], _ => simp
    | [name], _ => simp
    | prev :: curr :: rest, h => exact (h prev curr rest rfl).elim

/-- What sorts between a list and an extension of it extends it too. -/
theorem prefix_of_between {p r x : List Char} (hlow : ¬x < p) (hhigh : ¬p ++ r < x) : p <+: x := by
  induction p generalizing x with
  | nil => exact List.nil_prefix
  | cons c p ih =>
    cases x with
    | nil => exact absurd (List.nil_lt_cons c p) hlow
    | cons d x =>
      rw [List.cons_lt_cons_iff, not_or] at hlow
      rw [List.cons_append, List.cons_lt_cons_iff, not_or] at hhigh
      have heq : d = c := le_antisymm (not_lt.mp hhigh.1) (not_lt.mp hlow.1)
      subst heq
      rw [List.cons_prefix_cons]
      exact ⟨rfl, ih (fun h => hlow.2 ⟨rfl, h⟩) fun h => hhigh.2 ⟨rfl, h⟩⟩

private theorem pathPrefix_iff {n m : String} :
    PathPrefix n m ↔ (n ++ "/").toList <+: m.toList := by
  rw [PathPrefix, startsWith, List.isPrefixOf_iff_prefix]

/-- An extension of a list does not come before it. -/
theorem not_append_lt (p r : List Char) : ¬p ++ r < p := by
  induction p with
  | nil => exact List.not_lt_nil _
  | cons c p ih =>
    rw [List.cons_append, List.cons_lt_cons_iff]
    rintro (h | ⟨-, h⟩)
    · exact lt_irrefl _ h
    · exact ih h

private theorem lt_append_slash (n : String) : n < n ++ "/" := by
  rw [String.lt_iff_toList_lt, String.toList_append]
  refine lt_of_le_of_ne (not_lt.mp (not_append_lt _ _)) fun h => ?_
  have hlen := congrArg List.length h
  simp at hlen

/-- The extensions of a name come after it, and after it with the slash. -/
theorem PathPrefix.le {n m : String} (h : PathPrefix n m) : n ++ "/" ≤ m := by
  obtain ⟨r, hr⟩ := pathPrefix_iff.mp h
  rw [String.le_iff_toList_le, ← hr]
  exact not_lt.mp (not_append_lt _ _)

/-- A name between another with a slash and an extension of it is an extension too. -/
theorem PathPrefix.between {n m x : String} (h : PathPrefix n m) (hlow : n ++ "/" ≤ x)
    (hhigh : x ≤ m) : PathPrefix n x := by
  obtain ⟨r, hr⟩ := pathPrefix_iff.mp h
  rw [String.le_iff_toList_le] at hlow hhigh
  rw [pathPrefix_iff]
  exact prefix_of_between (not_lt.mpr hlow) (hr ▸ not_lt.mpr hhigh)

/-- The scan of a sorted list finds a collision exactly when one is exposed. -/
theorem prefixCollision_sorted {names : List String} (hsorted : names.Pairwise (· < ·)) :
    prefixCollision names = none ↔ ¬Exposed names := by
  rw [prefixCollision_eq_none_iff, isChain_iff_of_sorted hsorted]
  constructor
  · rintro hchain ⟨n, hn, ⟨m, hm, hnm⟩, hnone⟩
    have habove : (names.toFinset.filter (n < ·)).Nonempty :=
      ⟨m, Finset.mem_filter.mpr ⟨List.mem_toFinset.mpr hm, (lt_append_slash n).trans_le hnm.le⟩⟩
    obtain ⟨c, hc, hleast⟩ := Finset.exists_min_image _ id habove
    rw [Finset.mem_filter, List.mem_toFinset] at hc
    have hnext : ∀ x ∈ names, n < x → c ≤ x := fun x hx hnx =>
      hleast x (Finset.mem_filter.mpr ⟨List.mem_toFinset.mpr hx, hnx⟩)
    refine hchain n hn c hc.1 hc.2 hnext (hnm.between (hnone c hc.1 hc.2) ?_)
    exact hnext m hm ((lt_append_slash n).trans_le hnm.le)
  · intro hexposed n hn m hm hlt hnext hnm
    exact hexposed ⟨n, hn, ⟨m, hm, hnm⟩, fun x hx hnx => hnm.le.trans (hnext x hx hnx)⟩

private theorem exposed_perm {names names' : List String} (hp : names.Perm names') :
    Exposed names ↔ Exposed names' := by
  simp only [Exposed, hp.mem_iff]

/-- The accepted lists of names. -/
theorem validateManifest_iff {names : List String} :
    validateManifest names = .ok () ↔ SoundEntries names ∧ ¬Exposed names := by
  unfold validateManifest
  cases hentries : validateEntries [] names with
  | error e =>
    refine iff_of_false nofun fun h => ?_
    rw [validateEntries_iff.mpr ⟨rfl, h.1, fun _ _ => List.not_mem_nil⟩] at hentries
    cases hentries
  | ok seen =>
    obtain ⟨hseen, hsound, -⟩ := validateEntries_iff.mp hentries
    rw [List.nil_append] at hseen
    subst hseen
    dsimp only
    have hperm : (seen.insertionSort (· ≤ ·)).Perm seen := List.perm_insertionSort _ _
    have hsorted : (seen.insertionSort (· ≤ ·)).Pairwise (· < ·) := by
      have hle := List.pairwise_insertionSort (· ≤ ·) seen
      exact (hle.and (hperm.symm.nodup hsound.distinct)).imp fun h => lt_of_le_of_ne h.1 h.2
    rw [← exposed_perm hperm, ← prefixCollision_sorted hsorted]
    cases prefixCollision (seen.insertionSort (· ≤ ·)) with
    | none => exact iff_of_true rfl ⟨hsound, rfl⟩
    | some pair => exact iff_of_false nofun fun h => nomatch h.2

/-- `validate_manifest` is exact where, if the entries pass and a name is a path prefix of
another, a path prefix is exposed. -/
theorem validateManifest_exact_iff (names : List String) :
    ManifestExact names ↔
      (SoundEntries names → (∃ n ∈ names, ∃ m ∈ names, PathPrefix n m) → Exposed names) := by
  have horder : ∀ names', names.Perm names' →
      (validateManifest names' = .ok () ↔ validateManifest names = .ok ()) := by
    intro names' hp
    rw [validateManifest_iff, validateManifest_iff, exposed_perm hp]
    exact and_congr_left fun _ => ⟨fun h => h.perm hp.symm, fun h => h.perm hp⟩
  rw [ManifestExact, and_iff_left horder, validateManifest_iff]
  constructor
  · rintro hexact hentries ⟨n, hn, m, hm, hnm⟩
    by_contra hexposed
    exact (hexact.mp ⟨hentries, hexposed⟩).prefixFree n hn m hm hnm
  · intro hfound
    constructor
    · rintro ⟨hentries, hexposed⟩
      exact ⟨hentries, fun n hn m hm hnm => hexposed (hfound hentries ⟨n, hn, m, hm, hnm⟩)⟩
    · rintro ⟨hentries, hfree⟩
      exact ⟨hentries, fun ⟨n, hn, ⟨m, hm, hnm⟩, _⟩ => hfree n hn m hm hnm⟩

/-- With `a-b` between them, `a` and `a/c` are accepted. -/
theorem validateManifest_hidden : ¬ManifestExact ["a", "a-b", "a/c"] := by
  intro hexact
  have hsound := hexact.1.mp (by decide +kernel)
  have hprefix : PathPrefix "a" "a/c" := by
    change startsWith "a/c" ("a" ++ "/") = true
    decide
  exact hsound.prefixFree "a" (by simp) "a/c" (by simp) hprefix

end Cassetta
