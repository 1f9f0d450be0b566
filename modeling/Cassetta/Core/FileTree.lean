import Mathlib

/-!
# Directory trees addressed by component lists

A tree is a finite table of nodes keyed by location, where a location is the list of
components from the root. Every stored location has a directory above it and no location
is stored twice, so an entry without a parent cannot be built. The root itself is implicit.

A path is a list of steps, each into a named child or up to the parent. Paths are resolved
physically: every step needs a directory to start from, as it does in an operating system.
`normalize` is the purely lexical reading of a path, and `resolve_eq_normalize` says the two
agree whenever the physical one succeeds. There are no links.
-/

namespace FileTree

variable {κ β : Type} [DecidableEq κ]

/-- What a location holds. -/
inductive Node (β : Type) where
  | dir
  | file (content : β)
  deriving DecidableEq, Repr

/-- The failures of a file operation that callers tell apart. -/
inductive Errno where
  /-- A component, or the target itself, is missing. -/
  | noEntry
  /-- The target is already there. -/
  | exist
  /-- A component that should be a directory is a file. -/
  | notDir
  /-- The target should be a file and is a directory. -/
  | isDir
  deriving DecidableEq, Repr

/-- One component of a path. -/
inductive Step (κ : Type) where
  | into (name : κ)
  | up
  deriving DecidableEq, Repr

/-- Where a step leads, read lexically. The parent of the root is the root. -/
def Step.apply (at_ : List κ) : Step κ → List κ
  | .into k => at_ ++ [k]
  | .up => at_.dropLast

/-- The lexical reading of a path that starts at a given location. -/
def normalizeFrom (start : List κ) (path : List (Step κ)) : List κ :=
  path.foldl Step.apply start

/-- The lexical reading of an absolute path. -/
def normalize (path : List (Step κ)) : List κ := normalizeFrom [] path

/-- The path that spells out a location. -/
def spell (loc : List κ) : List (Step κ) := loc.map .into

omit [DecidableEq κ] in
/-- The path that spells out a location leads there from where it starts. -/
theorem normalizeFrom_spell (start loc : List κ) :
    normalizeFrom start (spell loc) = start ++ loc := by
  induction loc generalizing start with
  | nil => simp [normalizeFrom, spell]
  | cons k loc ih =>
    have h := ih (start ++ [k])
    simpa [normalizeFrom, spell, Step.apply] using h

omit [DecidableEq κ] in
/-- The path that spells out a location leads there. -/
@[simp] theorem normalize_spell (loc : List κ) : normalize (spell loc) = loc := by
  simpa [normalize] using normalizeFrom_spell [] loc

omit [DecidableEq κ] in
/-- A path without a step up spells out where it leads. -/
theorem eq_spell_normalize {path : List (Step κ)} (h : Step.up ∉ path) :
    path = spell (normalize path) := by
  have hloc : ∃ loc, path = spell loc := by
    induction path with
    | nil => exact ⟨[], rfl⟩
    | cons s rest ih =>
      obtain ⟨loc, rfl⟩ := ih fun hm => h (List.mem_cons_of_mem _ hm)
      cases s with
      | into k => exact ⟨k :: loc, rfl⟩
      | up => simp at h
  obtain ⟨loc, rfl⟩ := hloc
  rw [normalize_spell]

omit [DecidableEq κ] in
/-- The empty path leads to the root. -/
@[simp] theorem normalize_nil : normalize ([] : List (Step κ)) = [] := rfl

omit [DecidableEq κ] in
/-- A path goes on from where it has come to. -/
theorem normalize_append (a b : List (Step κ)) :
    normalize (a ++ b) = normalizeFrom (normalize a) b := by
  simp [normalize, normalizeFrom]

omit [DecidableEq κ] in
/-- The last step is taken from where the path has come to. -/
@[simp] theorem normalize_concat (a : List (Step κ)) (s : Step κ) :
    normalize (a ++ [s]) = s.apply (normalize a) := by
  simp [normalize, normalizeFrom]

omit [DecidableEq κ] in
/-- A path that leads to or below a location has passed through it. -/
theorem exists_prefix_normalize {path : List (Step κ)} {loc : List κ} (h : loc <+: normalize path) :
    ∃ pre, pre <+: path ∧ normalize pre = loc := by
  induction path using List.reverseRecOn with
  | nil => exact ⟨[], List.prefix_refl _, (List.prefix_nil.mp h).symm⟩
  | append_singleton path s ih =>
    have hpath : path <+: path ++ [s] := List.prefix_append _ _
    rw [normalize_concat] at h
    cases s with
    | into k =>
      rcases List.prefix_concat_iff.mp h with he | hp
      · exact ⟨path ++ [.into k], List.prefix_refl _, by rw [normalize_concat, he]; rfl⟩
      · obtain ⟨pre, hpre, hn⟩ := ih hp
        exact ⟨pre, hpre.trans hpath, hn⟩
    | up =>
      obtain ⟨pre, hpre, hn⟩ := ih (h.trans (List.dropLast_prefix _))
      exact ⟨pre, hpre.trans hpath, hn⟩

/-- A finite table of nodes in which every location is stored once, below a directory. -/
structure Tree (κ β : Type) [DecidableEq κ] where
  entries : List (List κ × Node β)
  nodup : (entries.map Prod.fst).Nodup
  closed : ∀ loc ∈ entries.map Prod.fst,
    loc ≠ [] ∧ (loc.dropLast ≠ [] → (loc.dropLast, Node.dir) ∈ entries)

namespace Tree

/-- The tree that has only its root. -/
def empty : Tree κ β := ⟨[], by simp, by simp⟩

/-- The node at a location; the root is always a directory. -/
def get (t : Tree κ β) (loc : List κ) : Option (Node β) :=
  if loc = [] then some .dir else (t.entries.find? (fun e => e.1 = loc)).map Prod.snd

/-- The root is a directory. -/
@[simp] theorem get_nil (t : Tree κ β) : t.get [] = some .dir := by simp [get]

/-- The empty tree has a root and nothing else. -/
theorem get_empty (loc : List κ) :
    (empty : Tree κ β).get loc = if loc = [] then some .dir else none := by
  simp [get, empty]

private theorem find?_key_eq_some_iff {α γ : Type} [DecidableEq α] {l : List (α × γ)}
    (hn : (l.map Prod.fst).Nodup) {a : α} {c : γ} :
    (l.find? (fun e => e.1 = a)).map Prod.snd = some c ↔ (a, c) ∈ l := by
  induction l with
  | nil => simp
  | cons x l ih =>
    obtain ⟨b, d⟩ := x
    rw [List.map_cons, List.nodup_cons] at hn
    by_cases hab : b = a
    · subst hab
      have hnot : ∀ c', (b, c') ∉ l := fun c' h => hn.1 (List.mem_map.mpr ⟨_, h, rfl⟩)
      simp [hnot, eq_comm]
    · rw [List.find?_cons_of_neg (by simpa using hab), ih hn.2]
      simp [Ne.symm hab]

/-- What is at a location is the entry for it. -/
theorem get_eq_some_iff {t : Tree κ β} {loc : List κ} (h : loc ≠ []) {n : Node β} :
    t.get loc = some n ↔ (loc, n) ∈ t.entries := by
  rw [get, if_neg h, find?_key_eq_some_iff t.nodup]

/-- Every entry lies in a directory. -/
theorem get_dropLast {t : Tree κ β} {loc : List κ} {n : Node β} (h : t.get loc = some n) :
    t.get loc.dropLast = some .dir := by
  by_cases hl : loc = []
  · simp [hl]
  by_cases hd : loc.dropLast = []
  · simp [hd]
  have hm := (get_eq_some_iff hl).mp h
  exact (get_eq_some_iff hd).mpr ((t.closed loc (List.mem_map_of_mem (f := Prod.fst) hm)).2 hd)

/-- Every proper ancestor of an entry is a directory. -/
theorem get_of_prefix {t : Tree κ β} {a q : List κ} {n : Node β} (hp : a <+: q)
    (hne : a ≠ q) (h : t.get q = some n) : t.get a = some .dir := by
  obtain ⟨s, rfl⟩ := hp
  induction s using List.reverseRecOn generalizing n with
  | nil => simp at hne
  | append_singleton s k ih =>
    have hd := get_dropLast h
    rw [← List.append_assoc, List.dropLast_concat] at hd
    by_cases hs : s = []
    · simpa [hs] using hd
    · exact ih (by simpa using hs) hd

/-- Whether a location is a directory. -/
def dirAt (t : Tree κ β) (loc : List κ) : Bool :=
  match t.get loc with
  | some .dir => true
  | _ => false

/-- The file stored at a location. -/
def fileAt (t : Tree κ β) (loc : List κ) : Option β :=
  match t.get loc with
  | some (.file c) => some c
  | _ => none

/-- A directory is at a location. -/
@[simp] theorem dirAt_iff {t : Tree κ β} {loc : List κ} :
    t.dirAt loc = true ↔ t.get loc = some .dir := by
  unfold dirAt
  split <;> simp_all

/-- A file is at a location. -/
theorem fileAt_eq_some_iff {t : Tree κ β} {loc : List κ} {c : β} :
    t.fileAt loc = some c ↔ t.get loc = some (.file c) := by
  unfold fileAt
  split <;> simp_all

/-- A file has nothing below it. -/
theorem get_below_file {t : Tree κ β} {a loc : List κ} {c : β} (ha : t.get a = some (.file c))
    (hp : a <+: loc) (hne : a ≠ loc) : t.get loc = none := by
  cases h : t.get loc with
  | none => rfl
  | some n =>
    have hd := get_of_prefix hp hne h
    rw [ha] at hd
    cases hd

/-! ## Updates -/

/-- Whether a location may receive an entry: its parent is a directory and it is not one. -/
def Free (t : Tree κ β) (loc : List κ) : Prop :=
  loc ≠ [] ∧ t.dirAt loc.dropLast = true ∧ t.dirAt loc = false

instance (t : Tree κ β) (loc : List κ) : Decidable (t.Free loc) :=
  inferInstanceAs (Decidable (_ ∧ _))

/-- Store a node at a free location; any other request is ignored. -/
def insert (t : Tree κ β) (loc : List κ) (n : Node β) : Tree κ β :=
  if h : t.Free loc then
    { entries := (loc, n) :: t.entries.filter (fun e => e.1 ≠ loc)
      nodup := by
        rw [List.map_cons, List.nodup_cons]
        exact ⟨by simp, t.nodup.sublist (List.filter_sublist.map _)⟩
      closed := by
        obtain ⟨hne, hpar, hnd⟩ := h
        rw [dirAt_iff] at hpar
        intro q hq
        rw [List.map_cons, List.mem_cons] at hq
        rcases hq with rfl | hq
        · refine ⟨hne, fun hd => List.mem_cons_of_mem _ (List.mem_filter.mpr
            ⟨(get_eq_some_iff hd).mp hpar, ?_⟩)⟩
          have hpos := List.length_pos_of_ne_nil hne
          have hlen : q.dropLast ≠ q := fun he => by
            have := congrArg List.length he
            simp only [List.length_dropLast] at this
            omega
          simpa using hlen
        · obtain ⟨e, he, rfl⟩ := List.mem_map.mp hq
          obtain ⟨hne', hpar'⟩ := t.closed e.1
            (List.mem_map_of_mem (f := Prod.fst) (List.mem_filter.mp he).1)
          refine ⟨hne', fun hd => ?_⟩
          have hpl : e.1.dropLast ≠ loc := by
            intro heq
            have := (get_eq_some_iff hne).mpr (heq ▸ hpar' hd)
            simp [dirAt, this] at hnd
          exact List.mem_cons_of_mem _ (List.mem_filter.mpr ⟨hpar' hd, by simpa using hpl⟩) }
  else t

/-- An accepted store changes the one location and nothing else. -/
theorem get_insert {t : Tree κ β} {loc : List κ} {n : Node β} (h : t.Free loc) (q : List κ) :
    (t.insert loc n).get q = if q = loc then some n else t.get q := by
  have hins : (t.insert loc n).entries = (loc, n) :: t.entries.filter (fun e => e.1 ≠ loc) := by
    unfold insert
    rw [dif_pos h]
  unfold get
  by_cases hq : q = []
  · have hne : ([] : List κ) ≠ loc := fun he => h.1 he.symm
    simp [hq, hne]
  rw [if_neg hq, if_neg hq, hins]
  by_cases hl : q = loc
  · simp [hl]
  · rw [List.find?_cons_of_neg (by simpa using Ne.symm hl), if_neg hl, List.find?_filter]
    congr 2
    funext e
    by_cases he : e.1 = q
    · have hle : ¬e.1 = loc := fun hh => hl (he.symm.trans hh)
      simp [he, hl]
    · simp [he]

/-- Keep the entries of a set of locations that contains the parent of each of its members. -/
def restrict (t : Tree κ β) (keep : List κ → Bool)
    (hk : ∀ loc, keep loc = true → keep loc.dropLast = true) : Tree κ β where
  entries := t.entries.filter (fun e => keep e.1)
  nodup := t.nodup.sublist (List.filter_sublist.map _)
  closed := by
    intro q hq
    obtain ⟨e, he, rfl⟩ := List.mem_map.mp hq
    obtain ⟨het, hke⟩ := List.mem_filter.mp he
    obtain ⟨hne, hpar⟩ := t.closed e.1 (List.mem_map_of_mem (f := Prod.fst) het)
    exact ⟨hne, fun hd => List.mem_filter.mpr ⟨hpar hd, hk _ hke⟩⟩

/-- What is kept of a tree is as it was. -/
theorem get_restrict (t : Tree κ β) (keep : List κ → Bool)
    (hk : ∀ loc, keep loc = true → keep loc.dropLast = true) {q : List κ} (hq : q ≠ []) :
    (t.restrict keep hk).get q = if keep q then t.get q else none := by
  unfold get
  rw [if_neg hq, if_neg hq, restrict, List.find?_filter]
  by_cases hkq : keep q = true
  · rw [if_pos hkq]
    congr 2
    funext e
    by_cases he : e.1 = q
    · simp [he, hkq]
    · simp [he]
  · rw [if_neg hkq, List.find?_eq_none.mpr, Option.map_none]
    intro e _ he
    simp only [decide_eq_true_eq] at he
    exact hkq (he.2 ▸ he.1)

/-- Remove a location with everything below it. -/
def remove (t : Tree κ β) (loc : List κ) : Tree κ β :=
  t.restrict (fun q => decide ¬loc <+: q) (by
    intro q hq
    simp only [decide_eq_true_eq] at hq ⊢
    exact fun hp => hq (hp.trans q.dropLast_prefix))

/-- A removal takes the location and everything below it, and nothing else. -/
theorem get_remove (t : Tree κ β) (loc : List κ) {q : List κ} (hq : q ≠ []) :
    (t.remove loc).get q = if loc <+: q then none else t.get q := by
  rw [remove, get_restrict _ _ _ hq]
  by_cases hp : loc <+: q <;> simp [hp]

/-- Remove everything strictly below a location. -/
def clear (t : Tree κ β) (loc : List κ) : Tree κ β :=
  t.restrict (fun q => decide ¬(loc <+: q ∧ loc ≠ q)) (by
    intro q hq
    simp only [decide_eq_true_eq, not_and, ne_eq, not_not] at hq ⊢
    intro hp
    have he := hq (hp.trans q.dropLast_prefix)
    subst he
    exact hp.eq_of_length_le (by simp))

/-- A clearing takes what is strictly below the location, and nothing else. -/
theorem get_clear (t : Tree κ β) (loc : List κ) {q : List κ} (hq : q ≠ []) :
    (t.clear loc).get q = if loc <+: q ∧ loc ≠ q then none else t.get q := by
  rw [clear, get_restrict _ _ _ hq]
  by_cases hp : loc <+: q ∧ loc ≠ q <;> simp [hp]

/-! ## Physical resolution -/

/-- Follow a path from a location; each step needs a directory to start from. -/
def resolveFrom (t : Tree κ β) : List κ → List (Step κ) → Except Errno (List κ)
  | loc, [] => .ok loc
  | loc, s :: rest =>
    match t.get loc with
    | some .dir => t.resolveFrom (s.apply loc) rest
    | some (.file _) => .error .notDir
    | none => .error .noEntry

/-- Follow an absolute path. -/
def resolve (t : Tree κ β) (path : List (Step κ)) : Except Errno (List κ) :=
  t.resolveFrom [] path

/-- A path that resolves physically leads where it reads lexically. -/
theorem resolveFrom_eq {t : Tree κ β} {start loc : List κ} {path : List (Step κ)}
    (h : t.resolveFrom start path = .ok loc) : loc = normalizeFrom start path := by
  induction path generalizing start with
  | nil => simpa [resolveFrom, normalizeFrom] using h.symm
  | cons s rest ih =>
    simp only [resolveFrom] at h
    split at h
    · simpa [normalizeFrom] using ih h
    · cases h
    · cases h

/-- A path that resolves leads where it is normalised to. -/
theorem resolve_eq_normalize {t : Tree κ β} {path : List (Step κ)} {loc : List κ}
    (h : t.resolve path = .ok loc) : loc = normalize path := resolveFrom_eq h

/-- Stepwise resolution: the last step needs the directory the others lead to. -/
theorem resolveFrom_concat (t : Tree κ β) (start : List κ) (path : List (Step κ)) (s : Step κ) :
    t.resolveFrom start (path ++ [s]) = (t.resolveFrom start path).bind fun loc =>
      match t.get loc with
      | some .dir => .ok (s.apply loc)
      | some (.file _) => .error .notDir
      | none => .error .noEntry := by
  induction path generalizing start with
  | nil =>
    simp only [List.nil_append, resolveFrom, Except.bind]
  | cons r rest ih =>
    simp only [List.cons_append, resolveFrom]
    split
    · exact ih _
    · rfl
    · rfl

/-- More directories never break a path that resolves. -/
theorem resolveFrom_mono {t t' : Tree κ β}
    (hd : ∀ q, t.get q = some .dir → t'.get q = some .dir) {start loc : List κ}
    {path : List (Step κ)} (h : t.resolveFrom start path = .ok loc) :
    t'.resolveFrom start path = .ok loc := by
  induction path generalizing start with
  | nil => simpa [resolveFrom] using h
  | cons s rest ih =>
    simp only [resolveFrom] at h ⊢
    split at h
    · rename_i hs
      rw [hd _ hs]
      exact ih h
    · cases h
    · cases h

/-- The node a path leads to. -/
def stat (t : Tree κ β) (path : List (Step κ)) : Except Errno (Node β) :=
  match t.resolve path with
  | .error e => .error e
  | .ok loc => match t.get loc with
    | none => .error .noEntry
    | some n => .ok n

/-- Whether a path leads to a directory. -/
def isDir (t : Tree κ β) (path : List (Step κ)) : Bool :=
  match t.stat path with
  | .ok .dir => true
  | _ => false

/-- The file a path leads to, if it leads to one. -/
def readFile (t : Tree κ β) (path : List (Step κ)) : Option β :=
  match t.stat path with
  | .ok (.file c) => some c
  | _ => none

/-- Whether a path leads to a regular file. -/
def isFile (t : Tree κ β) (path : List (Step κ)) : Bool := (t.readFile path).isSome

/-- A path is found if it resolves and something is at its end. -/
theorem stat_eq_ok_iff {t : Tree κ β} {path : List (Step κ)} {n : Node β} :
    t.stat path = .ok n ↔
      t.resolve path = .ok (normalize path) ∧ t.get (normalize path) = some n := by
  unfold stat
  cases hr : t.resolve path with
  | error e => simp
  | ok loc =>
    obtain rfl := resolve_eq_normalize hr
    cases hg : t.get (normalize path) <;> simp [hg]

/-- A path is a directory if it resolves and a directory is at its end. -/
theorem isDir_iff {t : Tree κ β} {path : List (Step κ)} :
    t.isDir path = true ↔
      t.resolve path = .ok (normalize path) ∧ t.get (normalize path) = some .dir := by
  rw [← stat_eq_ok_iff, isDir]
  cases h : t.stat path with
  | error e => simp
  | ok n => cases n <;> simp

/-- A path is read if it resolves and a file is at its end. -/
theorem readFile_eq_some_iff {t : Tree κ β} {path : List (Step κ)} {c : β} :
    t.readFile path = some c ↔
      t.resolve path = .ok (normalize path) ∧ t.get (normalize path) = some (.file c) := by
  rw [← stat_eq_ok_iff, readFile]
  cases h : t.stat path with
  | error e => simp
  | ok n => cases n <;> simp

/-- What has a file in it is a directory. -/
theorem isDir_of_readFile {t : Tree κ β} {path : List (Step κ)} {s : Step κ} {c : β}
    (h : t.readFile (path ++ [s]) = some c) : t.isDir path = true := by
  obtain ⟨hr, -⟩ := readFile_eq_some_iff.mp h
  rw [resolve, resolveFrom_concat] at hr
  rw [isDir_iff]
  cases hp : t.resolveFrom [] path with
  | error e => simp [hp, Except.bind] at hr
  | ok loc =>
    obtain rfl := resolve_eq_normalize hp
    refine ⟨hp, ?_⟩
    simp only [hp, Except.bind] at hr
    split at hr
    · assumption
    · cases hr
    · cases hr

/-- A location that holds something is reached by spelling it out. -/
theorem resolve_spell {t : Tree κ β} {loc : List κ} {n : Node β} (h : t.get loc = some n) :
    t.resolve (spell loc) = .ok loc := by
  induction loc using List.reverseRecOn generalizing n with
  | nil => rfl
  | append_singleton loc k ih =>
    have hd : t.get loc = some .dir := by simpa using get_dropLast h
    have hs : spell (loc ++ [k]) = spell loc ++ [.into k] := by simp [spell]
    rw [resolve, hs, resolveFrom_concat, ← resolve, ih hd]
    simp [Except.bind, hd, Step.apply]

/-- The path that spells out a location is a directory if one is there. -/
theorem isDir_spell {t : Tree κ β} {loc : List κ} :
    t.isDir (spell loc) = true ↔ t.get loc = some .dir := by
  rw [isDir_iff, normalize_spell]
  exact ⟨And.right, fun h => ⟨resolve_spell h, h⟩⟩

/-- The path that spells out a location is read as what is there. -/
theorem readFile_spell (t : Tree κ β) (loc : List κ) : t.readFile (spell loc) = t.fileAt loc := by
  refine Option.ext fun c => ?_
  rw [readFile_eq_some_iff, normalize_spell, fileAt_eq_some_iff]
  exact ⟨And.right, fun h => ⟨resolve_spell h, h⟩⟩

end Tree

end FileTree
