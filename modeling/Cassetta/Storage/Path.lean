import Mathlib
import Cassetta.Core.FileTree

/-!
# Path strings

How a storage key is read: `pathlib` splits at `/`, drops empty and `.` components, keeps
`..`, and an absolute right operand of a join replaces the left one. `validate_path` and
`validate_manifest` are the two checks that stand between a client string and a join. The
allowed characters are a character class of a regular expression anchored by `^` and `$`, and
`$` also matches just before a final newline.
-/

namespace Cassetta

open FileTree

/-! ## Strings -/

/-- `s.split("/")`. -/
def segments (s : String) : List String := (s.toList.splitOn '/').map String.ofList

/-- `s.startswith(pre)`. -/
def startsWith (s pre : String) : Bool := pre.toList.isPrefixOf s.toList

/-- `s.endswith(suffix)`. -/
def endsWith (s suffix : String) : Bool := suffix.toList.isSuffixOf s.toList

/-- `s.removeprefix(pre)`. -/
def removePrefix (s pre : String) : String :=
  if startsWith s pre then String.ofList (s.toList.drop pre.length) else s

/-- `s.lstrip("/")`. -/
def lstripSlash (s : String) : String := String.ofList (s.toList.dropWhile (· = '/'))

/-- `s.rstrip("/")`. -/
def rstripSlash (s : String) : String :=
  String.ofList (s.toList.reverse.dropWhile (· = '/')).reverse

/-- `s.split("/", 1)` for a string that has a slash: what stands before and after the first. -/
def splitFirst (s : String) : String × String :=
  (String.ofList (s.toList.takeWhile (· ≠ '/')),
    String.ofList ((s.toList.dropWhile (· ≠ '/')).drop 1))

/-- `"/" in s`. -/
def hasSlash (s : String) : Bool := s.toList.contains '/'

/-- `s.split("/")[-1]`. -/
def lastSegment (s : String) : String := (segments s).getLast?.getD ""

/-- A prefix that is there is removed. -/
theorem removePrefix_append (pre path : String) : removePrefix (pre ++ path) pre = path := by
  have hstarts : startsWith (pre ++ path) pre = true := by
    rw [startsWith, String.toList_append, List.isPrefixOf_iff_prefix]
    exact List.prefix_append _ _
  rw [removePrefix, if_pos hstarts, String.toList_append, ← String.length_toList, List.drop_left,
    String.ofList_toList]

/-- Every text has a segment. -/
theorem segments_ne_nil (s : String) : segments s ≠ [] := by
  simp [segments, List.splitOn_ne_nil]

/-- Splitting after a slash splits both sides. -/
theorem segments_append_slash (a b : String) :
    segments (a ++ "/" ++ b) = segments a ++ segments b := by
  have h : (a ++ "/" ++ b).toList = a.toList ++ '/' :: b.toList := by simp
  rw [segments, h, List.splitOn_append_cons_self, List.map_append]
  rfl

/-- A string is determined by its segments. -/
theorem segments_injective : Function.Injective segments := by
  intro a b h
  have hl : a.toList.splitOn '/' = b.toList.splitOn '/' :=
    List.map_injective_iff.mpr (fun _ _ he => String.ofList_injective he) h
  have ha : ['/'].intercalate (a.toList.splitOn '/') = a.toList := List.intercalate_splitOn '/'
  have hb : ['/'].intercalate (b.toList.splitOn '/') = b.toList := List.intercalate_splitOn '/'
  rw [hl] at ha
  exact String.toList_injective (ha.symm.trans hb)

/-! ## pathlib -/

/-- One component of a path string; the empty one and `.` say nothing. -/
def component (s : String) : Option (Step String) :=
  if s = "" ∨ s = "." then none else if s = ".." then some .up else some (.into s)

/-- The components of a path string. -/
def steps (s : String) : List (Step String) := (segments s).filterMap component

/-- Whether a path string is absolute. -/
def isAbsolute (s : String) : Bool := startsWith s "/"

/-- `base / key`. -/
def joinPath (base : List (Step String)) (key : String) : List (Step String) :=
  if isAbsolute key then steps key else base ++ steps key

/-- The steps of two paths, one after the other. -/
theorem steps_append_slash (a b : String) : steps (a ++ "/" ++ b) = steps a ++ steps b := by
  rw [steps, segments_append_slash, List.filterMap_append]
  rfl

/-- A key in the one spelling `pathlib` itself would print. -/
def Canonical (s : String) : Prop := ∀ seg ∈ segments s, seg ≠ "" ∧ seg ≠ "." ∧ seg ≠ ".."

instance (s : String) : Decidable (Canonical s) := inferInstanceAs (Decidable (∀ seg ∈ _, _))

/-- A canonical key is spelled by its location. -/
theorem steps_of_canonical {s : String} (h : Canonical s) : steps s = spell (segments s) := by
  rw [steps, spell, ← List.filterMap_eq_map]
  apply List.filterMap_congr
  intro seg hseg
  obtain ⟨h1, h2, h3⟩ := h seg hseg
  simp [component, h1, h2, h3]

/-- A canonical key is relative. -/
theorem relative_of_canonical {s : String} (h : Canonical s) : isAbsolute s = false := by
  by_contra habs
  rw [Bool.not_eq_false, isAbsolute, startsWith, List.isPrefixOf_iff_prefix] at habs
  obtain ⟨rest, hrest⟩ := habs
  have hs : s = "" ++ "/" ++ String.ofList rest :=
    String.toList_injective (by rw [← hrest]; simp)
  have hempty : "" ∈ segments s := by
    rw [hs, segments_append_slash]
    exact List.mem_append_left _ (by decide)
  exact (h "" hempty).1 rfl

/-! ## validate_path -/

/-- Why `validate_path` refuses a path. -/
inductive PathValidationError where
  | empty
  | absolute
  | traversal
  | disallowed (chars : List Char)
  deriving DecidableEq, Repr

/-- The fixed part of each message. -/
def PathValidationError.message : PathValidationError → String
  | .empty => "File path must not be empty"
  | .absolute => "File path must be relative, not absolute"
  | .traversal => "Path traversal not allowed"
  | .disallowed _ => "Path contains disallowed characters"

/-- `DEFAULT_ALLOWED_CHARS`, the class of letters, digits, `-`, `_`, `.`, `/` and `'`. -/
def defaultAllowedChars (c : Char) : Bool :=
  ('a' ≤ c ∧ c ≤ 'z') || ('A' ≤ c ∧ c ≤ 'Z') || ('0' ≤ c ∧ c ≤ '9') ||
    c = '-' || c = '_' || c = '.' || c = '/' || c = '\''

/-- `re.match` of the anchored class: `$` also matches before one final newline. -/
def matchesClass (allowed : Char → Bool) (s : List Char) : Bool :=
  (!s.isEmpty && s.all allowed) ||
    (s.getLast? = some '\n' && !s.dropLast.isEmpty && s.dropLast.all allowed)

/-- `path.replace("\\", "/")`. -/
def slashed (s : String) : String :=
    String.ofList (s.toList.map fun c => if c = '\\' then '/' else c)

/-- `validate_path`. -/
def validatePath (allowed : Char → Bool) (path : String) : Except PathValidationError Unit :=
  if path = "" then .error .empty
  else if isAbsolute path then .error .absolute
  else if ".." ∈ segments (slashed path) then .error .traversal
  else if matchesClass allowed path.toList then .ok ()
  else .error (.disallowed (path.toList.filter (!allowed ·)))

/-- Turning some characters into separators only splits segments further. -/
theorem splitOn_map_sep (f : Char → Char) (hf : f '/' = '/') (l : List Char) :
    (l.map f).splitOn '/' = (l.splitOn '/').flatMap fun w => (w.map f).splitOn '/' := by
  induction l with
  | nil => simp
  | cons c l ih =>
    by_cases hc : c = '/'
    · subst hc
      have h1 : (('/' :: l).map f).splitOn '/' = [] :: (l.map f).splitOn '/' := by
        simpa [hf] using List.splitOn_append_cons_self (a := '/') [] (l.map f)
      have h2 : ('/' :: l).splitOn '/' = [] :: l.splitOn '/' := by
        simpa using List.splitOn_append_cons_self (a := '/') [] l
      rw [h1, h2, ih]
      simp
    · rw [List.splitOn_cons_eq_if_modifyHead, if_neg (by simpa using hc), List.map_cons,
        List.splitOn_cons_eq_if_modifyHead, ih]
      obtain ⟨w, ws, hw⟩ := List.exists_cons_of_ne_nil (List.splitOn_ne_nil '/' l)
      have hmod : ∀ x : List Char, ((c :: x).map f).splitOn '/' =
          if (f c == '/') = true then [] :: (x.map f).splitOn '/'
          else ((x.map f).splitOn '/').modifyHead (f c :: ·) := by
        intro x
        rw [List.map_cons, List.splitOn_cons_eq_if_modifyHead]
      rw [hw]
      simp only [List.modifyHead_cons, List.flatMap_cons, hmod]
      split
      · simp
      · obtain ⟨v, vs, hv⟩ := List.exists_cons_of_ne_nil (List.splitOn_ne_nil '/' (w.map f))
        simp [hv]

/-- An accepted path has no parent component. -/
theorem validatePath_ok {allowed : Char → Bool} {path : String}
    (h : validatePath allowed path = .ok ()) :
    path ≠ "" ∧ isAbsolute path = false ∧ ".." ∉ segments path ∧
      matchesClass allowed path.toList = true := by
  unfold validatePath at h
  split at h
  · cases h
  rename_i hne
  split at h
  · cases h
  rename_i habs
  split at h
  · cases h
  rename_i htrav
  split at h
  · rename_i hm
    refine ⟨hne, by simpa using habs, fun hmem => htrav ?_, hm⟩
    rw [segments, List.mem_map] at hmem
    obtain ⟨w, hw, hdots⟩ := hmem
    have hwd : w = ['.', '.'] := by
      have := congrArg String.toList hdots
      simpa using this
    rw [segments, slashed, String.toList_ofList, splitOn_map_sep _ (by simp) path.toList,
      List.mem_map]
    refine ⟨['.', '.'], List.mem_flatMap.mpr ⟨w, hw, ?_⟩, by simp⟩
    rw [hwd]
    decide
  · cases h

/-- The components of an accepted path all go down. -/
theorem up_not_mem_steps {s : String} (h : ".." ∉ segments s) : Step.up ∉ steps s := by
  intro hup
  obtain ⟨seg, hseg, hc⟩ := List.mem_filterMap.mp hup
  unfold component at hc
  split at hc
  · cases hc
  · split at hc
    · rename_i heq
      exact h (heq ▸ hseg)
    · cases hc

/-! ## validate_manifest -/

/-- The reason label of an `invalid_manifest` refusal; the offending name goes with it. -/
inductive ManifestReason where
  | empty
  | absolute
  | traversal
  | invalidChar
  | reservedName
  | duplicate
  | prefixCollision (conflictsWith : String)
  deriving DecidableEq, Repr

/-- `_BUNDLE_MANIFEST`, which is also the only member of `_RESERVED_NAMES`. -/
def bundleManifest : String := "meta.json"

/-- `validate_path_for_manifest`: `validate_path` with the default class, its refusals
relabelled. -/
def validatePathForManifest (name : String) : Except (ManifestReason × String) Unit :=
  if name = "" then .error (.empty, name)
  else if isAbsolute name then .error (.absolute, name)
  else match validatePath defaultAllowedChars name with
    | .ok () => .ok ()
    | .error .traversal => .error (.traversal, name)
    | .error _ => .error (.invalidChar, name)

/-- The loop over the entries, with the names seen so far. -/
def validateEntries : List String → List String → Except (ManifestReason × String) (List String)
  | seen, [] => .ok seen
  | seen, name :: rest =>
    match validatePathForManifest name with
    | .error e => .error e
    | .ok () =>
      if name = bundleManifest then .error (.reservedName, name)
      else if name ∈ seen then .error (.duplicate, name)
      else validateEntries (seen ++ [name]) rest

/-- The scan of neighbouring names of the sorted list. -/
def prefixCollision : List String → Option (String × String)
  | prev :: curr :: rest =>
    if startsWith curr (prev ++ "/") then some (prev, curr) else prefixCollision (curr :: rest)
  | _ => none

/-- `validate_manifest`, on the names of the entries. -/
def validateManifest (names : List String) : Except (ManifestReason × String) Unit :=
  match validateEntries [] names with
  | .error e => .error e
  | .ok seen =>
    match prefixCollision (seen.insertionSort (· ≤ ·)) with
    | some (prev, curr) => .error (.prefixCollision curr, prev)
    | none => .ok ()

/-- A name that a manifest may hold is a valid path. -/
theorem validatePathForManifest_ok {name : String}
    (h : validatePathForManifest name = .ok ()) :
    validatePath defaultAllowedChars name = .ok () := by
  unfold validatePathForManifest at h
  split at h
  · cases h
  · split at h
    · cases h
    · split at h
      · assumption
      · cases h
      · cases h

private theorem validateEntries_ok {seen names out : List String}
    (h : validateEntries seen names = .ok out) :
    ∀ n ∈ names, validatePath defaultAllowedChars n = .ok () ∧ n ≠ bundleManifest := by
  induction names generalizing seen with
  | nil => simp
  | cons name rest ih =>
    simp only [validateEntries] at h
    split at h
    · cases h
    · rename_i hv
      split at h
      · cases h
      · rename_i hres
        split at h
        · cases h
        · intro n hn
          rcases List.mem_cons.mp hn with rfl | hn
          · exact ⟨validatePathForManifest_ok hv, hres⟩
          · exact ih h n hn

/-- Every name of an accepted manifest passes `validate_path` and is not reserved. -/
theorem validateManifest_ok {names : List String} (h : validateManifest names = .ok ()) :
    ∀ n ∈ names, validatePath defaultAllowedChars n = .ok () ∧ n ≠ bundleManifest := by
  unfold validateManifest at h
  split at h
  · cases h
  · rename_i he
    exact validateEntries_ok he

end Cassetta
