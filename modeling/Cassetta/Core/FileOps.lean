import Mathlib
import Cassetta.Core.FileTree

/-!
# File operations over a tree

The calls a program makes to change a tree, with the failures an operating system reports.
Each has one lemma that says everything a successful call does. Making a chain of
directories follows the usual recursion: try the target, make the parent when that is
missing, and try again; it may leave some of the chain behind when it fails.
-/

namespace FileTree

namespace Tree

variable {κ β : Type} [DecidableEq κ]

/-- Make one directory. -/
def mkdir (t : Tree κ β) (path : List (Step κ)) : Except Errno (Tree κ β) :=
  match t.resolve path with
  | .error e => .error e
  | .ok loc => match t.get loc with
    | some _ => .error .exist
    | none => .ok (t.insert loc .dir)

/-- Create or truncate a file and give it its new content. -/
def write (t : Tree κ β) (path : List (Step κ)) (c : β) : Except Errno (Tree κ β) :=
  match t.resolve path with
  | .error e => .error e
  | .ok loc => match t.get loc with
    | some .dir => .error .isDir
    | _ => .ok (t.insert loc (.file c))

/-- Move a file over another name. -/
def rename (t : Tree κ β) (src dst : List (Step κ)) : Except Errno (Tree κ β) :=
  match t.readFile src with
  | none => .error .noEntry
  | some c => match t.write dst c with
    | .error e => .error e
    | .ok t' => .ok (if normalize src = normalize dst then t' else t'.remove (normalize src))

/-- Remove a directory with everything below it. The content goes first; then the directory
itself is looked up once more, which fails when the path leads through the content. -/
def rmtree (t : Tree κ β) (path : List (Step κ)) : Except Errno Unit × Tree κ β :=
  match t.stat path with
  | .error e => (.error e, t)
  | .ok (.file _) => (.error .notDir, t)
  | .ok .dir =>
    match (t.clear (normalize path)).resolve path with
    | .error e => (.error e, t.clear (normalize path))
    | .ok _ => (.ok (), t.remove (normalize path))

/-- Make a directory and whatever is missing above it; one that exists is fine. The path
is given from its last component to its first. -/
def mkdirParentsRev (t : Tree κ β) : List (Step κ) → Except Errno Unit × Tree κ β
  | [] => (.ok (), t)
  | s :: above =>
    let path := (s :: above).reverse
    match t.mkdir path with
    | .ok t' => (.ok (), t')
    | .error .noEntry =>
      match t.mkdirParentsRev above with
      | (.error e, t') => (.error e, t')
      | (.ok (), t') =>
        match t'.mkdir path with
        | .ok t'' => (.ok (), t'')
        | .error e => if t'.isDir path then (.ok (), t') else (.error e, t')
    | .error e => if t.isDir path then (.ok (), t) else (.error e, t)

/-- Make a directory and whatever is missing above it; one that exists is fine. -/
def mkdirParents (t : Tree κ β) (path : List (Step κ)) : Except Errno Unit × Tree κ β :=
  t.mkdirParentsRev path.reverse

/-- The entries directly inside a location. -/
def children (t : Tree κ β) (loc : List κ) : List (κ × Node β) :=
  t.entries.filterMap fun e =>
    if e.1.dropLast = loc then e.1.getLast?.map (·, e.2) else none

/-- The children of a location are what is one step below it. -/
theorem mem_children {t : Tree κ β} {loc : List κ} {k : κ} {n : Node β} :
    (k, n) ∈ t.children loc ↔ t.get (loc ++ [k]) = some n := by
  rw [get_eq_some_iff (by simp), children, List.mem_filterMap]
  constructor
  · rintro ⟨⟨q, m⟩, he, hq⟩
    split at hq
    · rename_i hd
      obtain ⟨hne, -⟩ := t.closed q (List.mem_map.mpr ⟨_, he, rfl⟩)
      simp only [List.getLast?_eq_some_getLast hne, Option.map_some, Option.some.injEq,
        Prod.mk.injEq] at hq
      have hqeq : loc ++ [k] = q := by
        rw [← hd, ← hq.1]
        exact List.dropLast_append_getLast hne
      rw [hqeq, ← hq.2]
      exact he
    · cases hq
  · intro he
    exact ⟨_, he, by simp⟩

/-- No name occurs twice inside a location. -/
theorem nodup_children (t : Tree κ β) (loc : List κ) :
    ((t.children loc).map Prod.fst).Nodup := by
  rw [List.Nodup, List.pairwise_map]
  have hkeys : t.entries.Pairwise fun e e' => e.1 ≠ e'.1 := List.pairwise_map.mp t.nodup
  refine List.Pairwise.filterMap _ ?_ hkeys
  intro e e' hne c hc c' hc' heq
  split at hc
  · rename_i hd
    split at hc'
    · rename_i hd'
      obtain ⟨k, hk, rfl⟩ := Option.map_eq_some_iff.mp hc
      obtain ⟨k', hk', rfl⟩ := Option.map_eq_some_iff.mp hc'
      obtain rfl : k = k' := heq
      apply hne
      rw [← List.dropLast_append_getLast? k hk, ← List.dropLast_append_getLast? k hk', hd, hd']
    · cases hc'
  · cases hc

/-! ## What one call does -/

/-- A path that resolves to nothing ends in the name of a possible entry. -/
theorem free_of_resolve {t : Tree κ β} {path : List (Step κ)} {loc : List κ}
    (hr : t.resolve path = .ok loc) (hg : t.get loc ≠ some .dir) : t.Free loc := by
  induction path using List.reverseRecOn with
  | nil =>
    simp only [resolve, resolveFrom, Except.ok.injEq] at hr
    exact (hg (by simp [← hr])).elim
  | append_singleton path s ih =>
    rw [resolve, resolveFrom_concat] at hr
    cases hp : t.resolveFrom [] path with
    | error e => simp [hp, Except.bind] at hr
    | ok q =>
      simp only [hp, Except.bind] at hr
      split at hr
      · rename_i hq
        simp only [Except.ok.injEq] at hr
        cases s with
        | into k =>
          obtain rfl : q ++ [k] = loc := hr
          refine ⟨by simp, by simpa using hq, ?_⟩
          rw [← Bool.not_eq_true, dirAt_iff]
          exact hg
        | up =>
          obtain rfl : q.dropLast = loc := hr
          exact (hg (get_dropLast hq)).elim
      · cases hr
      · cases hr

/-- A successful `mkdir` adds one directory. -/
theorem mkdir_ok {t t' : Tree κ β} {path : List (Step κ)} (h : t.mkdir path = .ok t') :
    t.resolve path = .ok (normalize path) ∧ t.get (normalize path) = none ∧
      t.Free (normalize path) ∧
      ∀ q, t'.get q = if q = normalize path then some .dir else t.get q := by
  unfold mkdir at h
  cases hr : t.resolve path with
  | error e => simp [hr] at h
  | ok loc =>
    obtain rfl := resolve_eq_normalize hr
    cases hg : t.get (normalize path) with
    | some n => simp [hr, hg] at h
    | none =>
      simp only [hr, hg, Except.ok.injEq] at h
      have hf := free_of_resolve hr (by simp [hg])
      exact ⟨rfl, rfl, hf, fun q => by rw [← h, get_insert hf]⟩

/-- A successful `write` sets one file. -/
theorem write_ok {t t' : Tree κ β} {path : List (Step κ)} {c : β} (h : t.write path c = .ok t') :
    t.resolve path = .ok (normalize path) ∧ t.get (normalize path) ≠ some .dir ∧
      t.Free (normalize path) ∧
      ∀ q, t'.get q = if q = normalize path then some (.file c) else t.get q := by
  unfold write at h
  cases hr : t.resolve path with
  | error e => simp [hr] at h
  | ok loc =>
    obtain rfl := resolve_eq_normalize hr
    have hnd : t.get (normalize path) ≠ some .dir := by
      intro hg
      simp [hr, hg] at h
    have hf := free_of_resolve hr hnd
    have ht : t' = t.insert (normalize path) (.file c) := by
      simp only [hr] at h
      exact (Except.ok.inj h).symm
    exact ⟨rfl, hnd, hf, fun q => by rw [ht, get_insert hf]⟩

/-- A write succeeds exactly at a path that resolves to something other than a directory. -/
theorem write_isOk_iff {t : Tree κ β} {path : List (Step κ)} {c : β} :
    (∃ t', t.write path c = .ok t') ↔
      t.resolve path = .ok (normalize path) ∧ t.get (normalize path) ≠ some .dir := by
  constructor
  · rintro ⟨t', h⟩
    exact ⟨(write_ok h).1, (write_ok h).2.1⟩
  · rintro ⟨hr, hg⟩
    unfold write
    rw [hr]
    exact ⟨t.insert (normalize path) (.file c), by simp only⟩

/-- A successful `rename` to another name moves one file. -/
theorem rename_ok {t t' : Tree κ β} {src dst : List (Step κ)}
    (h : t.rename src dst = .ok t') (hne : normalize src ≠ normalize dst) :
    ∃ c, t.get (normalize src) = some (.file c) ∧ t.Free (normalize dst) ∧
      ∀ q, t'.get q = if q = normalize dst then some (.file c)
        else if q = normalize src then none else t.get q := by
  unfold rename at h
  cases hs : t.readFile src with
  | none => simp [hs] at h
  | some c =>
    have hsrc := (readFile_eq_some_iff.mp hs).2
    cases hw : t.write dst c with
    | error e => simp [hs, hw] at h
    | ok t₁ =>
      simp only [hs, hw, if_neg hne, Except.ok.injEq] at h
      obtain ⟨-, -, hf, hget⟩ := write_ok hw
      refine ⟨c, hsrc, hf, fun q => ?_⟩
      have hsne : normalize src ≠ [] := by
        intro he
        simp [he] at hsrc
      by_cases hq : q = []
      · subst hq
        have hd : ([] : List κ) ≠ normalize dst := fun he => hf.1 he.symm
        simp [hd, Ne.symm hsne]
      rw [← h, get_remove _ _ hq]
      by_cases hqs : normalize src <+: q
      · by_cases hqe : q = normalize src
        · simp [hqe, hne]
        · have hnone := get_below_file hsrc hqs (Ne.symm hqe)
          have hqd : q ≠ normalize dst := by
            rintro rfl
            have := hf.2.1
            rw [dirAt_iff] at this
            have hpre : normalize src <+: (normalize dst).dropLast := by
              obtain ⟨s, hs'⟩ := hqs
              rcases List.eq_nil_or_concat s with rfl | ⟨s', k, rfl⟩
              · exact (hqe (by simpa using hs'.symm)).elim
              · exact ⟨s', by rw [← hs', List.concat_eq_append, ← List.append_assoc,
                  List.dropLast_concat]⟩
            by_cases hpe : normalize src = (normalize dst).dropLast
            · rw [← hpe, hsrc] at this
              cases this
            · rw [get_below_file hsrc hpre hpe] at this
              cases this
          simp [hqs, hqd, hqe, hnone]
      · have hqe : q ≠ normalize src := by
          rintro rfl
          exact hqs (List.prefix_refl _)
        rw [if_neg hqs, hget q, if_neg hqe]

/-! ## The files of a tree -/

/-- A write sets one file and leaves every other as it is. -/
theorem fileAt_write {t t' : Tree κ β} {path : List (Step κ)} {c : β}
    (h : t.write path c = .ok t') :
    t'.fileAt = Function.update t.fileAt (normalize path) (some c) := by
  obtain ⟨-, -, -, hget⟩ := write_ok h
  funext q
  by_cases hq : q = normalize path
  · simp [hq, fileAt, hget]
  · simp [hq, fileAt, hget]

/-- A rename to another name moves one file. -/
theorem fileAt_rename {t t' : Tree κ β} {src dst : List (Step κ)}
    (h : t.rename src dst = .ok t') (hne : normalize src ≠ normalize dst) :
    t'.fileAt = Function.update (Function.update t.fileAt (normalize src) none)
      (normalize dst) (t.fileAt (normalize src)) := by
  obtain ⟨c, hsrc, -, hget⟩ := rename_ok h hne
  funext q
  by_cases hq : q = normalize dst
  · simp [hq, fileAt, hget, hsrc]
  · by_cases hs : q = normalize src
    · simp [hs, hne, fileAt, hget]
    · simp [hq, hs, fileAt, hget]

/-! ## Trees that only gained directories -/

/-- The second tree keeps every node of the first and adds only directories, each at a
prefix of the given path. -/
def Grown (path : List (Step κ)) (t t' : Tree κ β) : Prop :=
  ∀ q, t'.get q = t.get q ∨
    (t.get q = none ∧ t'.get q = some .dir ∧ ∃ pre, pre <+: path ∧ q = normalize pre)

/-- A tree has grown by nothing. -/
theorem Grown.refl (path : List (Step κ)) (t : Tree κ β) : Grown path t t := fun _ => .inl rfl

/-- What was there is there in a grown tree. -/
theorem Grown.get_some {path : List (Step κ)} {t t' : Tree κ β} (h : Grown path t t')
    {q : List κ} {n : Node β} (hq : t.get q = some n) : t'.get q = some n := by
  rcases h q with he | ⟨hn, -, -⟩
  · rw [he, hq]
  · rw [hq] at hn
    cases hn

/-- A tree that has grown twice along a path has grown along it. -/
theorem Grown.trans {path : List (Step κ)} {t₁ t₂ t₃ : Tree κ β} (h₁ : Grown path t₁ t₂)
    (h₂ : Grown path t₂ t₃) : Grown path t₁ t₃ := by
  intro q
  rcases h₁ q with he | ⟨hn, hd, hp⟩
  · rcases h₂ q with he' | ⟨hn', hd', hp'⟩
    · exact .inl (he'.trans he)
    · exact .inr ⟨he ▸ hn', hd', hp'⟩
  · exact .inr ⟨hn, h₂.get_some hd, hp⟩

/-- A tree that has grown along a path has grown along a longer one. -/
theorem Grown.mono {path path' : List (Step κ)} {t t' : Tree κ β} (h : Grown path t t')
    (hp : path <+: path') : Grown path' t t' := by
  intro q
  rcases h q with he | ⟨hn, hd, pre, hpre, hq⟩
  · exact .inl he
  · exact .inr ⟨hn, hd, pre, hpre.trans hp, hq⟩

/-- Files are the same in a grown tree. -/
theorem Grown.file_iff {path : List (Step κ)} {t t' : Tree κ β} (h : Grown path t t')
    {q : List κ} {c : β} : t'.get q = some (.file c) ↔ t.get q = some (.file c) := by
  rcases h q with he | ⟨hn, hd, -⟩
  · rw [he]
  · simp [hn, hd]

/-- A grown tree has the same files. -/
theorem Grown.fileAt_eq {path : List (Step κ)} {t t' : Tree κ β} (h : Grown path t t') :
    t'.fileAt = t.fileAt := by
  funext q
  exact Option.ext fun c => by rw [fileAt_eq_some_iff, fileAt_eq_some_iff, h.file_iff]

/-- Making a directory grows a tree along its path. -/
theorem grown_of_mkdir {t t' : Tree κ β} {path : List (Step κ)} (h : t.mkdir path = .ok t') :
    Grown path t t' := by
  obtain ⟨-, hn, -, hget⟩ := mkdir_ok h
  intro q
  by_cases hq : q = normalize path
  · exact .inr ⟨hq ▸ hn, by rw [hget, if_pos hq], path, List.prefix_refl _, hq⟩
  · exact .inl (by rw [hget, if_neg hq])

/-- Making a chain of directories adds directories along the path and nothing else, whether
or not it succeeds. -/
theorem grown_mkdirParentsRev (t : Tree κ β) (rev : List (Step κ)) :
    Grown rev.reverse t (t.mkdirParentsRev rev).2 := by
  induction rev generalizing t with
  | nil => exact Grown.refl _ _
  | cons s above ih =>
    have habove : above.reverse <+: (s :: above).reverse := ⟨[s], by simp⟩
    unfold mkdirParentsRev
    simp only
    split
    · rename_i t' hm
      exact grown_of_mkdir hm
    · split
      · rename_i e t' hrec
        have hg := ih t
        rw [hrec] at hg
        exact hg.mono habove
      · rename_i t' hrec
        have hg := ih t
        rw [hrec] at hg
        split
        · rename_i t'' hm
          exact (hg.mono habove).trans (grown_of_mkdir hm)
        · split <;> exact hg.mono habove
    · split <;> exact Grown.refl _ _

/-- Making a directory with its parents grows a tree along its path. -/
theorem grown_mkdirParents (t : Tree κ β) (path : List (Step κ)) :
    Grown path t (t.mkdirParents path).2 := by
  simpa [mkdirParents] using grown_mkdirParentsRev t path.reverse

/-- A directory that was made is there. -/
theorem isDir_of_mkdir {t t' : Tree κ β} {path : List (Step κ)} (h : t.mkdir path = .ok t') :
    t'.isDir path = true := by
  obtain ⟨hr, -, -, hget⟩ := mkdir_ok h
  rw [isDir_iff]
  refine ⟨?_, by rw [hget, if_pos rfl]⟩
  exact resolveFrom_mono (fun q hq => (grown_of_mkdir h).get_some hq) hr

/-- When the chain is made, the target is a directory. -/
theorem isDir_of_mkdirParentsRev {t t' : Tree κ β} {rev : List (Step κ)}
    (h : t.mkdirParentsRev rev = (.ok (), t')) : t'.isDir rev.reverse = true := by
  cases rev with
  | nil =>
    rw [isDir_iff]
    simp [resolve, resolveFrom, normalize, normalizeFrom]
  | cons s above =>
    unfold mkdirParentsRev at h
    simp only at h
    split at h
    · rename_i t₁ hm
      obtain rfl : t₁ = t' := by simpa using h
      exact isDir_of_mkdir hm
    · split at h
      · cases h
      · split at h
        · rename_i t₂ hm
          obtain rfl : t₂ = t' := by simpa using h
          exact isDir_of_mkdir hm
        · split at h
          · rename_i hd
            obtain rfl := (Prod.mk.inj h).2
            exact hd
          · cases h
    · split at h
      · rename_i hd
        obtain rfl := (Prod.mk.inj h).2
        exact hd
      · cases h

/-- A directory that was made with its parents is there. -/
theorem isDir_of_mkdirParents {t t' : Tree κ β} {path : List (Step κ)}
    (h : t.mkdirParents path = (.ok (), t')) : t'.isDir path = true := by
  simpa using isDir_of_mkdirParentsRev h

/-! ## When a path can be opened -/

/-- The way to a path's end leads through directories. -/
theorem get_of_resolve {t : Tree κ β} {path pre : List (Step κ)} {loc : List κ}
    (h : t.resolve path = .ok loc) (hp : pre <+: path) (hne : pre ≠ path) :
    t.get (normalize pre) = some .dir := by
  induction path using List.reverseRecOn generalizing loc with
  | nil => exact (hne (List.prefix_nil.mp hp)).elim
  | append_singleton path s ih =>
    rw [resolve, resolveFrom_concat] at h
    cases hr : t.resolveFrom [] path with
    | error e => simp [hr, Except.bind] at h
    | ok q =>
      have hq : t.get q = some .dir := by
        simp only [hr, Except.bind] at h
        split at h
        · assumption
        · cases h
        · cases h
      obtain rfl := resolve_eq_normalize hr
      rcases List.prefix_concat_iff.mp hp with he | hp'
      · exact (hne (by simpa using he)).elim
      · by_cases he : pre = path
        · rw [he]
          exact hq
        · exact ih hr hp' he

/-- A directory on the way is found by resolving. -/
theorem resolve_concat_of_isDir {t : Tree κ β} {path : List (Step κ)} (h : t.isDir path = true)
    (s : Step κ) : t.resolve (path ++ [s]) = .ok (normalize (path ++ [s])) := by
  obtain ⟨hr, hd⟩ := isDir_iff.mp h
  rw [resolve] at hr
  rw [resolve, resolveFrom_concat, hr]
  simp [Except.bind, hd]

/-- No file stands on the way of a path or at its end. -/
def Passable (t : Tree κ β) (path : List (Step κ)) : Prop :=
  ∀ pre, pre <+: path → ∀ c, t.get (normalize pre) ≠ some (.file c)

instance (t : Tree κ β) (path : List (Step κ)) : Decidable (t.Passable path) :=
  decidable_of_iff (∀ pre ∈ path.inits, t.fileAt (normalize pre) = none)
    (by simp only [Passable, List.mem_inits, Option.eq_none_iff_forall_ne_some, ne_eq,
      fileAt_eq_some_iff])

/-- A path is passable as far as a longer one is. -/
theorem Passable.mono {t : Tree κ β} {path pre : List (Step κ)} (h : t.Passable path)
    (hp : pre <+: path) : t.Passable pre := fun _ hpre => h _ (hpre.trans hp)

/-- A path that is passable is so in a grown tree. -/
theorem Passable.grown {t t' : Tree κ β} {path along : List (Step κ)} (h : t.Passable path)
    (hg : Grown along t t') : t'.Passable path := fun pre hp c hc => h pre hp c (hg.file_iff.mp hc)

/-- On a passable path all that can be missing is a directory. -/
theorem Passable.resolve {t : Tree κ β} {path : List (Step κ)} (h : t.Passable path) :
    t.resolve path = .ok (normalize path) ∨ t.resolve path = .error .noEntry := by
  induction path using List.reverseRecOn with
  | nil => exact .inl rfl
  | append_singleton path s ih =>
    have hp : path <+: path ++ [s] := List.prefix_append _ _
    rw [Tree.resolve, resolveFrom_concat, ← Tree.resolve]
    rcases ih (h.mono hp) with hr | hr
    · rw [hr]
      simp only [Except.bind]
      cases hn : t.get (normalize path) with
      | none => exact .inr rfl
      | some n =>
        cases n with
        | dir => exact .inl (by simp)
        | file c => exact (h path hp c hn).elim
    · rw [hr]
      exact .inr rfl

/-- At the end of a passable path a directory is made, or is there, or its parent is missing. -/
theorem Passable.mkdir {t : Tree κ β} {path : List (Step κ)} (h : t.Passable path) :
    (∃ t', t.mkdir path = .ok t') ∨ t.mkdir path = .error .noEntry ∧ t.isDir path = false ∨
      t.mkdir path = .error .exist ∧ t.isDir path = true := by
  unfold Tree.mkdir
  rcases h.resolve with hr | hr
  · rw [hr]
    simp only
    cases hn : t.get (normalize path) with
    | none => exact .inl ⟨_, rfl⟩
    | some n =>
      cases n with
      | dir => exact .inr (.inr ⟨rfl, isDir_iff.mpr ⟨hr, hn⟩⟩)
      | file c => exact (h path (List.prefix_refl _) c hn).elim
  · rw [hr]
    refine .inr (.inl ⟨rfl, ?_⟩)
    simp [isDir, stat, hr]

/-- A chain of directories can be made along every passable path. -/
theorem Passable.mkdirParents {t : Tree κ β} {path : List (Step κ)} (h : t.Passable path) :
    ∃ t', t.mkdirParents path = (.ok (), t') := by
  induction path using List.reverseRecOn with
  | nil => exact ⟨t, rfl⟩
  | append_singleton path s ih =>
    have hrev : (path ++ [s]).reverse = s :: path.reverse := by simp
    have hpath : (s :: path.reverse).reverse = path ++ [s] := by simp
    unfold Tree.mkdirParents
    rw [hrev, mkdirParentsRev]
    simp only [hpath]
    rcases h.mkdir with ⟨t', hm⟩ | ⟨hm, -⟩ | ⟨hm, hd⟩
    · exact ⟨t', by simp [hm]⟩
    · obtain ⟨t₁, ht₁⟩ := ih (h.mono (List.prefix_append _ _))
      have hg : Grown path t t₁ := by simpa [ht₁] using grown_mkdirParents t path
      have habove : t.mkdirParentsRev path.reverse = (.ok (), t₁) := ht₁
      simp only [hm, habove]
      rcases (h.grown hg).mkdir with ⟨t', hm'⟩ | ⟨hm', -⟩ | ⟨hm', hd'⟩
      · exact ⟨t', by simp [hm']⟩
      · have hr := resolve_concat_of_isDir (isDir_of_mkdirParents ht₁) s
        rw [Tree.mkdir, hr] at hm'
        simp only at hm'
        split at hm' <;> cases hm'
      · exact ⟨t₁, by simp [hm', hd']⟩
    · exact ⟨t, by simp [hm, hd]⟩

/-- A path that is not the root and whose way does not lead through its own end. -/
def Opens (path : List (Step κ)) : Prop :=
  path ≠ [] ∧ ∀ pre, pre <+: path → pre ≠ path → normalize pre ≠ normalize path

instance (path : List (Step κ)) : Decidable (Opens path) :=
  decidable_of_iff
    (path ≠ [] ∧ ∀ pre ∈ path.inits, pre ≠ path → normalize pre ≠ normalize path)
    (by simp [Opens, List.mem_inits])

omit [DecidableEq κ] in
/-- A path without a step up passes every location once. -/
theorem opens_spell {loc : List κ} (hl : loc ≠ []) : Opens (spell loc) := by
  refine ⟨by simpa [spell] using hl, fun pre hp hne he => ?_⟩
  rw [normalize_spell] at he
  have hup : Step.up ∉ pre := fun hm => by
    have hm' := hp.subset hm
    simp [spell] at hm'
  rw [eq_spell_normalize hup, he] at hne
  exact hne rfl

/-- A prefix of all but the last step is not the whole path. -/
theorem ne_of_prefix_dropLast {α : Type} {l pre : List α} (hl : l ≠ []) (hp : pre <+: l.dropLast) :
    pre ≠ l := by
  rintro rfl
  have hlen := hp.length_le
  have hpos := List.length_pos_of_ne_nil hl
  rw [List.length_dropLast] at hlen
  omega

/-- What an opened path has met before the directories above it were made. -/
theorem opens_of_mkdirParents {t t₁ : Tree κ β} {path : List (Step κ)}
    (hm : t.mkdirParents path.dropLast = (.ok (), t₁))
    (hr : t₁.resolve path = .ok (normalize path)) (hnd : t₁.get (normalize path) ≠ some .dir) :
    t.Passable path.dropLast ∧ Opens path ∧ t.get (normalize path) = t₁.get (normalize path) := by
  have hg : Grown path.dropLast t t₁ := by simpa [hm] using grown_mkdirParents t path.dropLast
  have hdir : ∀ pre, pre <+: path → pre ≠ path → t₁.get (normalize pre) = some .dir :=
    fun pre hp hne => get_of_resolve hr hp hne
  have hnil : path ≠ [] := by
    rintro rfl
    simp [normalize, normalizeFrom] at hnd
  refine ⟨fun pre hp c hc => ?_, ⟨hnil, fun pre hp hne he => ?_⟩, ?_⟩
  · have hc' := hg.get_some hc
    rw [hdir pre (hp.trans (List.dropLast_prefix _)) (ne_of_prefix_dropLast hnil hp)] at hc'
    cases hc'
  · exact hnd (he ▸ hdir pre hp hne)
  · rcases hg (normalize path) with he | ⟨-, hd, -⟩
    · exact he.symm
    · exact (hnd hd).elim

/-- Along a way without files the directories above a path are made, and the path itself is
found as it was. -/
theorem mkdirParents_opens {t : Tree κ β} {path : List (Step κ)}
    (hpass : t.Passable path.dropLast) (hopen : Opens path) :
    ∃ t₁, t.mkdirParents path.dropLast = (.ok (), t₁) ∧
      t₁.resolve path = .ok (normalize path) ∧
        t₁.get (normalize path) = t.get (normalize path) := by
  obtain ⟨hne, hway⟩ := hopen
  obtain ⟨t₁, hm⟩ := hpass.mkdirParents
  have hg : Grown path.dropLast t t₁ := by simpa [hm] using grown_mkdirParents t path.dropLast
  refine ⟨t₁, hm, ?_, ?_⟩
  · have h := resolve_concat_of_isDir (isDir_of_mkdirParents hm) (path.getLast hne)
    rwa [List.dropLast_append_getLast hne] at h
  · rcases hg (normalize path) with he | ⟨-, -, pre, hp, he⟩
    · exact he
    · exact (hway pre (hp.trans (List.dropLast_prefix _)) (ne_of_prefix_dropLast hne hp)
        he.symm).elim

/-- The directories above a file are made and the file is written exactly where no file is on
the way, the way does not lead through the end, and no directory is there. -/
theorem mkdirParents_write_iff {t : Tree κ β} {path : List (Step κ)} {c : β} :
    (∃ t₁ t₂, t.mkdirParents path.dropLast = (.ok (), t₁) ∧ t₁.write path c = .ok t₂) ↔
      t.Passable path.dropLast ∧ Opens path ∧ t.get (normalize path) ≠ some .dir := by
  constructor
  · rintro ⟨t₁, t₂, hm, hw⟩
    obtain ⟨hr, hnd, -, -⟩ := write_ok hw
    obtain ⟨hpass, hopen, hget⟩ := opens_of_mkdirParents hm hr hnd
    exact ⟨hpass, hopen, hget ▸ hnd⟩
  · rintro ⟨hpass, hopen, hnd⟩
    obtain ⟨t₁, hm, hr, hget⟩ := mkdirParents_opens hpass hopen
    obtain ⟨t₂, hw⟩ := write_isOk_iff.mpr ⟨hr, hget ▸ hnd⟩
    exact ⟨t₁, t₂, hm, hw⟩

/-- A new directory is made, with those above it, exactly where no file is on the way, the way
does not lead through the end, and nothing is there. -/
theorem mkdirParents_mkdir_iff {t : Tree κ β} {path : List (Step κ)} :
    (∃ t₁ t₂, t.mkdirParents path.dropLast = (.ok (), t₁) ∧ t₁.mkdir path = .ok t₂) ↔
      t.Passable path.dropLast ∧ Opens path ∧ t.get (normalize path) = none := by
  constructor
  · rintro ⟨t₁, t₂, hm, hk⟩
    obtain ⟨hr, hn, -, -⟩ := mkdir_ok hk
    obtain ⟨hpass, hopen, hget⟩ := opens_of_mkdirParents hm hr (by simp [hn])
    exact ⟨hpass, hopen, hget.trans hn⟩
  · rintro ⟨hpass, hopen, hn⟩
    obtain ⟨t₁, hm, hr, hget⟩ := mkdirParents_opens hpass hopen
    refine ⟨t₁, t₁.insert (normalize path) .dir, hm, ?_⟩
    rw [mkdir, hr]
    simp [hget, hn]

/-! ## What a chain of directories leaves behind -/

/-- An error on the way to a path is the error of the path. -/
theorem resolve_append_error {t : Tree κ β} {pre rest : List (Step κ)} {e : Errno}
    (h : t.resolve pre = .error e) : t.resolve (pre ++ rest) = .error e := by
  induction rest using List.reverseRecOn with
  | nil => rwa [List.append_nil]
  | append_singleton rest s ih =>
    rw [resolve] at ih
    rw [resolve, ← List.append_assoc, resolveFrom_concat, ih]
    rfl

/-- Nothing is found behind a location that is not there. -/
theorem resolve_of_missing {t : Tree κ β} {pre path : List (Step κ)} (hp : pre <+: path)
    (hne : pre ≠ path) (hr : t.resolve pre = .ok (normalize pre))
    (hn : t.get (normalize pre) = none) : t.resolve path = .error .noEntry := by
  obtain ⟨rest, rfl⟩ := hp
  cases rest with
  | nil => simp at hne
  | cons s rest =>
    have hsplit : pre ++ s :: rest = (pre ++ [s]) ++ rest := by simp
    rw [hsplit]
    refine resolve_append_error ?_
    rw [resolve] at hr
    rw [resolve, resolveFrom_concat, hr]
    simp [Except.bind, hn]

/-- A path at whose end a directory can be made has no file on its way. -/
theorem passable_of_mkdir {t t' : Tree κ β} {path : List (Step κ)} (h : t.mkdir path = .ok t') :
    t.Passable path := by
  obtain ⟨hr, hn, -, -⟩ := mkdir_ok h
  intro pre hp c hc
  by_cases he : pre = path
  · rw [he, hn] at hc
    cases hc
  · rw [get_of_resolve hr hp he] at hc
    cases hc

private theorem exists_passable_of_made {t : Tree κ β} {path : List (Step κ)} {loc : List κ}
    (hnone : t.get loc = none) (h : (t.mkdirParents path).2.get loc = some .dir) :
    ∃ pre, pre <+: path ∧ normalize pre = loc ∧ t.Passable pre := by
  induction path using List.reverseRecOn with
  | nil =>
    have h' : t.get loc = some .dir := h
    rw [hnone] at h'
    cases h'
  | append_singleton path s ih =>
    have hrev : (path ++ [s]).reverse = s :: path.reverse := by simp
    have hpath : (s :: path.reverse).reverse = path ++ [s] := by simp
    have habove : t.mkdirParentsRev path.reverse = t.mkdirParents path := rfl
    have hsub : path <+: path ++ [s] := List.prefix_append _ _
    have hrest : (t.mkdirParents path).2.get loc = some .dir →
        ∃ pre, pre <+: path ++ [s] ∧ normalize pre = loc ∧ t.Passable pre := by
      intro hmade
      obtain ⟨pre, hp, hl, hpass⟩ := ih hmade
      exact ⟨pre, hp.trans hsub, hl, hpass⟩
    have hgrown := grown_mkdirParents t path
    unfold Tree.mkdirParents at h
    rw [hrev, mkdirParentsRev] at h
    simp only [hpath, habove] at h
    split at h
    · rename_i t' hm
      obtain ⟨-, -, -, hget⟩ := mkdir_ok hm
      rw [hget] at h
      split at h
      · rename_i hl
        exact ⟨path ++ [s], List.prefix_refl _, hl.symm, passable_of_mkdir hm⟩
      · rw [hnone] at h
        cases h
    · rcases hup : t.mkdirParents path with ⟨r, t₁⟩
      rw [hup] at h hrest hgrown
      cases r with
      | error e => exact hrest h
      | ok u =>
        dsimp only at h
        split at h
        · rename_i t' hm
          obtain ⟨-, -, -, hget⟩ := mkdir_ok hm
          rw [hget] at h
          split at h
          · rename_i hl
            refine ⟨path ++ [s], List.prefix_refl _, hl.symm, fun pre hp c hc => ?_⟩
            exact passable_of_mkdir hm pre hp c (hgrown.get_some hc)
          · exact hrest h
        · split at h <;> exact hrest h
    · split at h
      all_goals
        rw [hnone] at h
        cases h

/-- Making a directory with its parents makes each of them that is missing and passable. -/
theorem made_of_passable {t : Tree κ β} {path pre : List (Step κ)} (hp : pre <+: path)
    (hpass : t.Passable pre) (hnone : t.get (normalize pre) = none) :
    (t.mkdirParents path).2.get (normalize pre) = some .dir := by
  induction path using List.reverseRecOn with
  | nil =>
    rw [List.prefix_nil.mp hp] at hnone
    simp at hnone
  | append_singleton path s ih =>
    rcases List.prefix_concat_iff.mp hp with rfl | hp'
    · obtain ⟨t', hm⟩ := hpass.mkdirParents
      rw [hm]
      exact (isDir_iff.mp (isDir_of_mkdirParents hm)).2
    have hne : pre ≠ path ++ [s] := by
      rintro rfl
      have hlen := hp'.length_le
      rw [List.length_append, List.length_singleton] at hlen
      omega
    have hmissing : t.resolve (path ++ [s]) = .error .noEntry := by
      rcases hpass.resolve with hr | hr
      · exact resolve_of_missing hp hne hr hnone
      · obtain ⟨rest, hrest⟩ := hp
        rw [← hrest]
        exact resolve_append_error hr
    have hfirst : t.mkdir (path ++ [s]) = .error .noEntry := by rw [mkdir, hmissing]
    have hrev : (path ++ [s]).reverse = s :: path.reverse := by simp
    have hpath : (s :: path.reverse).reverse = path ++ [s] := by simp
    have habove : t.mkdirParentsRev path.reverse = t.mkdirParents path := rfl
    have hmade := ih hp'
    unfold Tree.mkdirParents
    rw [hrev, mkdirParentsRev]
    simp only [hpath, habove, hfirst]
    rcases hup : t.mkdirParents path with ⟨r, t₁⟩
    rw [hup] at hmade
    cases r with
    | error e => exact hmade
    | ok u =>
      dsimp only
      split
      · rename_i t' hm
        exact (grown_of_mkdir hm).get_some hmade
      · split <;> exact hmade

/-- What a chain of directories, made as far as it goes, adds to a tree: the locations that are
come by without a file on the way. -/
theorem mkdirParents_get_iff {t : Tree κ β} {path : List (Step κ)} {loc : List κ}
    (hnone : t.get loc = none) :
    (t.mkdirParents path).2.get loc = some .dir ↔
      ∃ pre, pre <+: path ∧ normalize pre = loc ∧ t.Passable pre := by
  constructor
  · exact exists_passable_of_made hnone
  · rintro ⟨pre, hp, rfl, hpass⟩
    exact made_of_passable hp hpass hnone

/-- A path is found when its way leads through directories. -/
theorem resolve_of_way {t : Tree κ β} {path : List (Step κ)}
    (h : ∀ pre, pre <+: path → pre ≠ path → t.get (normalize pre) = some .dir) :
    t.resolve path = .ok (normalize path) := by
  induction path using List.reverseRecOn with
  | nil => rfl
  | append_singleton path s ih =>
    have hne : ∀ pre, pre <+: path → pre ≠ path ++ [s] := by
      rintro pre hp rfl
      have hlen := hp.length_le
      rw [List.length_append, List.length_singleton] at hlen
      omega
    have hway := ih fun pre hp _ => h pre (hp.trans (List.prefix_append _ _)) (hne pre hp)
    have hd := h path (List.prefix_append _ _) (hne path (List.prefix_refl _))
    rw [resolve] at hway
    rw [resolve, resolveFrom_concat, hway]
    simp [Except.bind, hd]

/-- A directory whose path does not lead through it is removed whole. -/
theorem rmtree_of_opens {t : Tree κ β} {path : List (Step κ)} (hd : t.isDir path = true)
    (ho : Opens path) : t.rmtree path = (.ok (), t.remove (normalize path)) := by
  obtain ⟨hr, hg⟩ := isDir_iff.mp hd
  have hclear : (t.clear (normalize path)).resolve path = .ok (normalize path) := by
    refine resolve_of_way fun pre hp hne => ?_
    have hway := get_of_resolve hr hp hne
    by_cases hnil : normalize pre = []
    · rw [hnil, get_nil]
    · rw [get_clear _ _ hnil, if_neg, hway]
      rintro ⟨hin, -⟩
      obtain ⟨pre', hp', hn⟩ := exists_prefix_normalize hin
      refine ho.2 pre' (hp'.trans hp) ?_ hn
      rintro rfl
      exact hne (hp.eq_of_length_le hp'.length_le)
  unfold rmtree
  rw [stat_eq_ok_iff.mpr ⟨hr, hg⟩]
  simp only [hclear]

/-! ## Removing a file -/

/-- Removing a file leaves every other location as it is. -/
theorem get_remove_file {t : Tree κ β} {loc : List κ} {c : β} (h : t.get loc = some (.file c))
    (q : List κ) : (t.remove loc).get q = if q = loc then none else t.get q := by
  have hne : loc ≠ [] := by
    rintro rfl
    simp at h
  by_cases hq : q = []
  · subst hq
    simp [Ne.symm hne]
  rw [get_remove _ _ hq]
  by_cases he : q = loc
  · simp [he]
  · rw [if_neg he]
    split
    · rename_i hp
      exact (get_below_file h hp (Ne.symm he)).symm
    · rfl

/-- Removing a file takes that file and no other. -/
theorem fileAt_remove_file {t : Tree κ β} {loc : List κ} {c : β} (h : t.get loc = some (.file c)) :
    (t.remove loc).fileAt = Function.update t.fileAt loc none := by
  funext q
  by_cases hq : q = loc
  · simp [hq, fileAt, get_remove_file h]
  · simp [hq, fileAt, get_remove_file h]

/-! ## What is in the way of a chain of directories -/

/-- A path that leads on from a file is not found. -/
theorem resolve_past_file {t : Tree κ β} {loc : List κ} {c : β} (h : t.get loc = some (.file c))
    {rest : List (Step κ)} (hne : rest ≠ []) :
    t.resolve (spell loc ++ rest) = .error .notDir := by
  obtain ⟨s, rest, rfl⟩ := List.exists_cons_of_ne_nil hne
  have hfirst : t.resolve (spell loc ++ [s]) = .error .notDir := by
    have hloc := resolve_spell h
    rw [resolve] at hloc
    rw [resolve, resolveFrom_concat, hloc]
    simp [Except.bind, h]
  have hsplit : spell loc ++ s :: rest = (spell loc ++ [s]) ++ rest := by simp
  rw [hsplit]
  exact resolve_append_error hfirst

private theorem mkdirParents_eq {t : Tree κ β} {path : List (Step κ)} {e : Errno} (hne : path ≠ [])
    (he : t.mkdir path = .error e) (hmissing : e ≠ .noEntry) :
    t.mkdirParents path = (if t.isDir path then .ok () else .error e, t) := by
  obtain ⟨s, above, hrev⟩ := List.exists_cons_of_ne_nil (List.reverse_ne_nil_iff.mpr hne)
  have hpath : (s :: above).reverse = path := by rw [← hrev, List.reverse_reverse]
  unfold mkdirParents
  rw [hrev, mkdirParentsRev]
  simp only [hpath, he]
  cases e with
  | noEntry => exact absurd rfl hmissing
  | exist => split <;> rfl
  | notDir => split <;> rfl
  | isDir => split <;> rfl

/-- The chain ends below a file. -/
theorem mkdirParents_past_file {t : Tree κ β} {loc : List κ} {c : β}
    (h : t.get loc = some (.file c)) {rest : List (Step κ)} (hne : rest ≠ []) :
    t.mkdirParents (spell loc ++ rest) = (.error .notDir, t) := by
  have hr := resolve_past_file h hne
  have hm : t.mkdir (spell loc ++ rest) = .error .notDir := by rw [mkdir, hr]
  have hd : t.isDir (spell loc ++ rest) = false := by simp [isDir, stat, hr]
  rw [mkdirParents_eq (by simp [hne]) hm (by simp), hd]
  rfl

/-- The chain ends at a file. -/
theorem mkdirParents_file {t : Tree κ β} {loc : List κ} {c : β}
    (h : t.get loc = some (.file c)) : t.mkdirParents (spell loc) = (.error .exist, t) := by
  have hne : loc ≠ [] := by
    rintro rfl
    simp at h
  have hr := resolve_spell h
  have hm : t.mkdir (spell loc) = .error .exist := by simp [mkdir, hr, h]
  have hd : t.isDir (spell loc) = false := by simp [isDir, stat, hr, h]
  rw [mkdirParents_eq (by simpa [spell] using hne) hm (by simp), hd]
  rfl

/-- The chain is there. -/
theorem mkdirParents_dir {t : Tree κ β} {path : List (Step κ)} (h : t.isDir path = true) :
    t.mkdirParents path = (.ok (), t) := by
  by_cases hne : path = []
  · subst hne
    rfl
  obtain ⟨hr, hg⟩ := isDir_iff.mp h
  have hm : t.mkdir path = .error .exist := by simp [mkdir, hr, hg]
  rw [mkdirParents_eq hne hm (by simp), h]
  rfl

end Tree

end FileTree
