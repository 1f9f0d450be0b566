import Cassetta.Cli.Download

/-!
# What the download command writes to

The names of an envelope are joined to `--out` as they are, so whether everything stays inside
is up to them. The names are gone through in order, each with the paths the names before it
opened: a name that cannot be opened on any disk ends the run, and what comes after it does not
matter.
-/

namespace Cassetta.Cli

open FileTree

/-- The steps of a path on the recipient's disk. -/
abbrev Steps := List (Step (List UInt8))

abbrev Location := List (List UInt8)

/-! ## Confinement -/

/-- Inside the output directory, and not the directory itself. -/
def Inside (out : Steps) (loc : Location) : Prop := normalize out <+: loc ∧ loc ≠ normalize out

instance (out : Steps) (loc : Location) : Decidable (Inside out loc) :=
  inferInstanceAs (Decidable (_ ∧ _))

/-- Everything that was made or opened is inside, and no two names were opened as one file. -/
structure Confined (out : Steps) (tree : Tree (List UInt8) (List UInt8)) (s : Local) : Prop where
  changed : ∀ loc, s.tree.get loc ≠ tree.get loc → Inside out loc
  opened : ∀ o ∈ s.opened, Inside out o.2
  apart : ∀ o ∈ s.opened, ∀ o' ∈ s.opened, o.2 = o'.2 → o.1 = o'.1

/-! ## The condition on the names -/

/-- The names that are asked for, up to the first entry that is refused. -/
def wanted (str : Json → PyStr) : List Json → List PyStr
  | .obj members :: rest =>
    if textOf str members "name" = [] ∨ textOf str members "url" = [] then []
    else textOf str members "name" :: wanted str rest
  | _ => []

/-- The output directory, or a directory on the way to it. -/
def Known (out : Steps) (loc : Location) : Prop := ∃ pre, pre <+: out ∧ normalize pre = loc

/-- No file of an earlier name is on the way of a path or at its end. -/
def Clear (done : List (PyStr × Steps)) (path : Steps) : Prop :=
  ∀ pre, pre <+: path → ∀ f ∈ done, normalize f.2 ≠ normalize pre

/-- The directories that can be made on a way are inside. -/
def WayStays (out : Steps) (done : List (PyStr × Steps)) (way : Steps) : Prop :=
  ∀ pre, pre <+: way → Clear done pre → Known out (normalize pre) ∨ Inside out (normalize pre)

/-- A path that can be opened once the earlier names have been: neither a file is on its way nor
a directory at its end. -/
structure Fits (out : Steps) (done : List (PyStr × Steps)) (path : Steps) : Prop where
  clear : Clear done path.dropLast
  opens : Tree.Opens path
  notOut : ¬Known out (normalize path)
  notWay : ∀ f ∈ done, ∀ pre, pre <+: f.2 → pre ≠ f.2 → normalize pre ≠ normalize path

/-- The names lead inside, one after the other, and different ones to different files. -/
def Stays (out : Steps) : List (PyStr × Steps) → List PyStr → Prop
  | _, [] => True
  | done, name :: rest =>
    (∀ way, encoded (dest out name).dropLast = some way → WayStays out done way) ∧
      ∀ path, encoded (dest out name) = some path → Fits out done path →
        Inside out (normalize path) ∧
          (∀ f ∈ done, normalize f.2 = normalize path → f.1 = name) ∧
          Stays out (done ++ [(name, path)]) rest

/-! ## One file -/

/-- What one file can come to: nothing but directories on the way to it, or the file as well. -/
theorem writeFileStreaming_cases (response : Response) (name : PyStr) (path : List Part)
    (s : Local) :
    (∃ why, writeFileStreaming response name path s = (.error why, s) ∧
        encoded path.dropLast = none) ∨
      (∃ why way, encoded path.dropLast = some way ∧
        writeFileStreaming response name path s =
          (.error why, { s with tree := (s.tree.mkdirParents way).2 })) ∨
      ∃ r steps c t t', encoded path = some steps ∧
        s.tree.mkdirParents steps.dropLast = (.ok (), t) ∧ t.write steps c = .ok t' ∧
        writeFileStreaming response name path s =
          (r, ⟨t', s.opened ++ [(name, normalize steps)]⟩) := by
  cases hway : encoded path.dropLast with
  | none => exact .inl ⟨.valueError, by rw [writeFileStreaming, hway], rfl⟩
  | some way =>
    right
    cases hmake : s.tree.mkdirParents way with
    | mk r t =>
      cases r with
      | error e =>
        exact .inl ⟨.osError e, way, rfl, by simp only [writeFileStreaming, hway, hmake]⟩
      | ok u =>
        cases response with
        | fails why => exact .inl ⟨why, way, rfl, by simp only [writeFileStreaming, hway, hmake]⟩
        | stream chunks broken =>
          cases hpath : encoded path with
          | none =>
            exact .inl
              ⟨.valueError, way, rfl, by simp only [writeFileStreaming, hway, hmake, hpath]⟩
          | some steps =>
            obtain rfl : steps.dropLast = way :=
              Option.some.inj ((encoded_dropLast hpath).symm.trans hway)
            cases hwrite : t.write steps chunks.flatten with
            | error e =>
              exact .inl ⟨.osError e, _, rfl,
                by simp only [writeFileStreaming, hway, hmake, hpath, hwrite]⟩
            | ok t' =>
              refine .inr ⟨(writeFileStreaming (.stream chunks broken) name path s).1, steps, _, t,
                t', rfl, hmake, hwrite, Prod.ext rfl ?_⟩
              simp only [writeFileStreaming, hway, hmake, hpath, hwrite]

/-- The loop over the names. -/
def fetchAll (out : Steps) : (Nat → Response) → List PyStr → Local → Local
  | _, [], s => s
  | server, name :: rest, s =>
    match writeFileStreaming (server 0) name (dest out name) s with
    | (.error _, s') => s'
    | (.ok (), s') => fetchAll out (fun n => server (n + 1)) rest s'

private theorem downloadAll_snd (str : Json → PyStr) (out : Steps) (server : Nat → Response)
    (files : List Json) (s : Local) :
    (downloadAll str out server files s).2 = fetchAll out server (wanted str files) s := by
  induction files generalizing server s with
  | nil => rfl
  | cons entry rest ih =>
    cases entry with
    | obj members =>
      simp only [downloadAll, wanted]
      split
      · rfl
      · rw [fetchAll]
        rcases writeFileStreaming (server 0) (textOf str members "name")
          (dest out (textOf str members "name")) s with ⟨why | u, s'⟩
        · rfl
        · exact ih _ s'
    | _ => rfl

/-! ## What stays -/

/-- Directories stay directories, and what was opened stays noted. -/
structure Kept (s s' : Local) : Prop where
  dirs : ∀ loc, s.tree.get loc = some .dir → s'.tree.get loc = some .dir
  opened : s.opened <+: s'.opened

/-- Nothing has been done. -/
theorem Kept.refl (s : Local) : Kept s s := ⟨fun _ h => h, List.prefix_refl _⟩

/-- What is kept twice is kept. -/
theorem Kept.trans {s₁ s₂ s₃ : Local} (h : Kept s₁ s₂) (h' : Kept s₂ s₃) : Kept s₁ s₃ :=
  ⟨fun loc hloc => h'.dirs loc (h.dirs loc hloc), h.opened.trans h'.opened⟩

/-- A write leaves every directory in place. -/
theorem get_dir_of_write {t t' : Tree (List UInt8) (List UInt8)} {path : Steps} {c : List UInt8}
    (h : t.write path c = .ok t') {loc : Location} (hloc : t.get loc = some .dir) :
    t'.get loc = some .dir := by
  obtain ⟨-, hnot, -, hget⟩ := Tree.write_ok h
  rw [hget, if_neg, hloc]
  rintro rfl
  exact hnot hloc

private theorem kept_mkdirParents (s : Local) (way : Steps) :
    Kept s { s with tree := (s.tree.mkdirParents way).2 } :=
  ⟨fun _ h => (Tree.grown_mkdirParents s.tree way).get_some h, List.prefix_refl _⟩

/-- A file that can be handed to the system has its way made, whatever becomes of it. -/
theorem kept_writeFileStreaming (response : Response) (name : PyStr) {path : List Part}
    {way : Steps} (hway : encoded path.dropLast = some way) (s : Local) :
    Kept { s with tree := (s.tree.mkdirParents way).2 }
      (writeFileStreaming response name path s).2 := by
  rcases writeFileStreaming_cases response name path s with
    ⟨why, -, hnone⟩ | ⟨why, way', hway', hrun⟩ | ⟨r, steps, c, t, t', hpath, hmake, hwrite, hrun⟩
  · rw [hway] at hnone
    cases hnone
  · obtain rfl := Option.some.inj (hway.symm.trans hway')
    rw [hrun]
    exact Kept.refl _
  · obtain rfl : steps.dropLast = way :=
      Option.some.inj ((encoded_dropLast hpath).symm.trans hway)
    rw [hrun, hmake]
    exact ⟨fun loc hloc => get_dir_of_write hwrite hloc, List.prefix_append _ _⟩

private theorem kept_writeFileStreaming' (response : Response) (name : PyStr) (path : List Part)
    (s : Local) : Kept s (writeFileStreaming response name path s).2 := by
  cases hway : encoded path.dropLast with
  | none =>
    rw [writeFileStreaming, hway]
    exact Kept.refl s
  | some way => exact (kept_mkdirParents s way).trans (kept_writeFileStreaming response name hway s)

private theorem kept_fetchAll (out : Steps) (server : Nat → Response) (names : List PyStr)
    (s : Local) :
    Kept s (fetchAll out server names s) := by
  induction names generalizing server s with
  | nil => exact Kept.refl s
  | cons name rest ih =>
    have hone := kept_writeFileStreaming' (server 0) name (dest out name) s
    rw [fetchAll]
    split
    · rename_i hrun
      rw [hrun] at hone
      exact hone
    · rename_i s' hrun
      rw [hrun] at hone
      exact hone.trans (ih _ s')

/-! ## Names that stay inside -/

/-- Where a run has come to: what the earlier names opened are files, their ways and the output
directory's are directories, and nothing is outside. -/
structure Reached (out : Steps) (tree : Tree (List UInt8) (List UInt8))
    (done : List (PyStr × Steps)) (s : Local) : Prop where
  confined : Confined out tree s
  opened : s.opened = done.map fun f : PyStr × Steps => (f.1, normalize f.2)
  files : ∀ f ∈ done, ∃ c, s.tree.get (normalize f.2) = some (.file c)
  ways : ∀ f ∈ done, ∀ pre, pre <+: f.2 → pre ≠ f.2 → s.tree.get (normalize pre) = some .dir
  out : ∀ pre, pre <+: out → s.tree.get (normalize pre) = some .dir

namespace Reached

variable {out : Steps} {tree : Tree (List UInt8) (List UInt8)} {done : List (PyStr × Steps)}
  {s : Local}

/-- Before the first file. -/
theorem start (h : tree.isDir out = true) : Reached out tree [] ⟨tree, []⟩ where
  confined := ⟨fun _ hne => absurd rfl hne, by simp, by simp⟩
  opened := rfl
  files := by simp
  ways := by simp
  out pre hp := by
    obtain ⟨hr, hd⟩ := Tree.isDir_iff.mp h
    by_cases he : pre = out
    · rw [he]
      exact hd
    · exact Tree.get_of_resolve hr hp he

/-- A way without files is clear of the earlier names. -/
theorem clear (h : Reached out tree done s) {path : Steps} (hpass : s.tree.Passable path) :
    Clear done path := by
  intro pre hp f hf heq
  obtain ⟨c, hc⟩ := h.files f hf
  rw [heq] at hc
  exact hpass pre hp c hc

/-- The directories made on a way are inside. -/
theorem making (h : Reached out tree done s) {way : Steps} (hstays : WayStays out done way) :
    Reached out tree done { s with tree := (s.tree.mkdirParents way).2 } := by
  have hgrown := Tree.grown_mkdirParents s.tree way
  refine ⟨⟨fun loc hloc => ?_, h.confined.opened, h.confined.apart⟩, h.opened, fun f hf => ?_,
    fun f hf pre hp hne => hgrown.get_some (h.ways f hf pre hp hne),
    fun pre hp => hgrown.get_some (h.out pre hp)⟩
  · rcases hgrown loc with hsame | ⟨hnone, hdir, -⟩
    · dsimp only at hloc
      rw [hsame] at hloc
      exact h.confined.changed loc hloc
    · obtain ⟨pre, hp, rfl, hpass⟩ := (Tree.mkdirParents_get_iff hnone).mp hdir
      rcases hstays pre hp (h.clear hpass) with ⟨pre', hp', heq⟩ | hin
      · rw [← heq, h.out pre' hp'] at hnone
        cases hnone
      · exact hin
  · obtain ⟨c, hc⟩ := h.files f hf
    exact ⟨c, hgrown.get_some hc⟩

/-- A path that is opened fits. -/
theorem fits (h : Reached out tree done s) {path : Steps} {c : List UInt8}
    {t t' : Tree (List UInt8) (List UInt8)}
    (hmake : s.tree.mkdirParents path.dropLast = (.ok (), t)) (hwrite : t.write path c = .ok t') :
    Fits out done path := by
  obtain ⟨hpass, hopens, hnot⟩ := Tree.mkdirParents_write_iff.mp ⟨t, t', hmake, hwrite⟩
  refine ⟨h.clear hpass, hopens, ?_, fun f hf pre hp hne heq => ?_⟩
  · rintro ⟨pre, hp, heq⟩
    exact hnot (heq ▸ h.out pre hp)
  · exact hnot (heq ▸ h.ways f hf pre hp hne)

/-- One more file inside, under a name of its own. -/
theorem writing (h : Reached out tree done s) {name : PyStr} {path : Steps} {c : List UInt8}
    {t' : Tree (List UInt8) (List UInt8)} (hwrite : s.tree.write path c = .ok t')
    (hin : Inside out (normalize path))
    (hapart : ∀ f ∈ done, normalize f.2 = normalize path → f.1 = name) :
    Reached out tree (done ++ [(name, path)]) ⟨t', s.opened ++ [(name, normalize path)]⟩ := by
  obtain ⟨hresolve, -, -, hget⟩ := Tree.write_ok hwrite
  have hfile : ∀ f ∈ done ++ [(name, path)], ∃ c', t'.get (normalize f.2) = some (.file c') := by
    intro f hf
    by_cases heq : normalize f.2 = normalize path
    · exact ⟨c, by rw [hget, if_pos heq]⟩
    · rcases List.mem_append.mp hf with hf | hf
      · obtain ⟨c', hc'⟩ := h.files f hf
        exact ⟨c', by rw [hget, if_neg heq, hc']⟩
      · obtain rfl := List.mem_singleton.mp hf
        exact absurd rfl heq
  have hnew : ∀ o ∈ s.opened, o.2 = normalize path → o.1 = name := by
    intro o ho heq
    rw [h.opened] at ho
    obtain ⟨f, hf, rfl⟩ := List.mem_map.mp ho
    exact hapart f hf heq
  refine ⟨⟨fun loc hloc => ?_, fun o ho => ?_, fun o ho o' ho' heq => ?_⟩, ?_, hfile,
    fun f hf pre hp hne => ?_, fun pre hp => get_dir_of_write hwrite (h.out pre hp)⟩
  · by_cases heq : loc = normalize path
    · rw [heq]
      exact hin
    · dsimp only at hloc
      rw [hget, if_neg heq] at hloc
      exact h.confined.changed loc hloc
  · rcases List.mem_append.mp ho with ho | ho
    · exact h.confined.opened o ho
    · obtain rfl := List.mem_singleton.mp ho
      exact hin
  · rcases List.mem_append.mp ho with ho | ho
    · rcases List.mem_append.mp ho' with ho' | ho'
      · exact h.confined.apart o ho o' ho' heq
      · obtain rfl := List.mem_singleton.mp ho'
        exact hnew o ho heq
    · obtain rfl := List.mem_singleton.mp ho
      rcases List.mem_append.mp ho' with ho' | ho'
      · exact (hnew o' ho' heq.symm).symm
      · obtain rfl := List.mem_singleton.mp ho'
        rfl
  · rw [h.opened]
    simp
  · rcases List.mem_append.mp hf with hf | hf
    · exact get_dir_of_write hwrite (h.ways f hf pre hp hne)
    · obtain rfl := List.mem_singleton.mp hf
      exact get_dir_of_write hwrite (Tree.get_of_resolve hresolve hp hne)

/-- From wherever a run has come to, names that stay keep it confined. -/
theorem fetchAll (h : Reached out tree done s) {names : List PyStr} (hstays : Stays out done names)
    (server : Nat → Response) : Confined out tree (Cli.fetchAll out server names s) := by
  induction names generalizing server done s with
  | nil => exact h.confined
  | cons name rest ih =>
    obtain ⟨hway, hpath⟩ := hstays
    rw [Cli.fetchAll]
    rcases writeFileStreaming_cases (server 0) name (dest out name) s with
      ⟨why, hrun, -⟩ | ⟨why, way, hencoded, hrun⟩ |
        ⟨r, steps, c, t, t', hencoded, hmake, hwrite, hrun⟩
    · rw [hrun]
      exact h.confined
    · rw [hrun]
      exact (h.making (hway way hencoded)).confined
    · rw [hrun]
      obtain ⟨hin, hapart, hrest⟩ := hpath steps hencoded (h.fits hmake hwrite)
      have hmade := h.making (hway _ (encoded_dropLast hencoded))
      rw [hmake] at hmade
      have hwritten := hmade.writing (s := { s with tree := t }) hwrite hin hapart
      cases r with
      | error why => exact hwritten.confined
      | ok u => exact ih hwritten hrest _

end Reached

/-! ## On an empty disk -/

/-- A disk with the output directory and nothing else. -/
def emptyOut (out : Steps) : Tree (List UInt8) (List UInt8) := (Tree.empty.mkdirParents out).2

/-- A server that answers every request with an empty file. -/
def obliging : Nat → Response := fun _ => .stream [] none

private theorem get_emptyOut {out : Steps} {loc : Location} {n : Node (List UInt8)}
    (h : (emptyOut out).get loc = some n) : n = .dir ∧ Known out loc := by
  rcases Tree.grown_mkdirParents (Tree.empty : Tree (List UInt8) (List UInt8)) out loc with
    hsame | ⟨-, hdir, pre, hp, heq⟩
  · unfold emptyOut at h
    rw [hsame, Tree.get_empty] at h
    split at h
    · rename_i hnil
      exact ⟨(Option.some.inj h).symm, [], List.nil_prefix, hnil.symm⟩
    · cases h
  · unfold emptyOut at h
    rw [hdir] at h
    exact ⟨(Option.some.inj h).symm, pre, hp, heq.symm⟩

private theorem isDir_emptyOut (out : Steps) : (emptyOut out).isDir out = true := by
  have hpass : (Tree.empty : Tree (List UInt8) (List UInt8)).Passable out := by
    intro pre _ c hc
    rw [Tree.get_empty] at hc
    split at hc <;> cases hc
  obtain ⟨t, ht⟩ := hpass.mkdirParents
  rw [emptyOut, ht]
  exact Tree.isDir_of_mkdirParents ht

/-- Where a run on the empty disk has come to: it holds what the names so far have put there. -/
structure Exactly (out : Steps) (done : List (PyStr × Steps)) (s : Local) : Prop where
  opened : s.opened = done.map fun f : PyStr × Steps => (f.1, normalize f.2)
  fileOf : ∀ loc c, s.tree.get loc = some (.file c) → ∃ f ∈ done, normalize f.2 = loc
  dirOf : ∀ loc, s.tree.get loc = some .dir → Known out loc ∨
    ∃ f ∈ done, ∃ pre, pre <+: f.2 ∧ pre ≠ f.2 ∧ normalize pre = loc

namespace Exactly

variable {out : Steps} {done : List (PyStr × Steps)} {s : Local}

/-- Before the first file. -/
theorem start (out : Steps) : Exactly out [] ⟨emptyOut out, []⟩ where
  opened := rfl
  fileOf loc c h := by cases (get_emptyOut h).1
  dirOf loc h := .inl (get_emptyOut h).2

/-- A path that is clear of the files can be gone along. -/
theorem passable (h : Exactly out done s) {path : Steps} (hclear : Clear done path) :
    s.tree.Passable path := by
  intro pre hp c hc
  obtain ⟨f, hf, heq⟩ := h.fileOf _ c hc
  exact hclear pre hp f hf heq

/-- A path that fits is opened. -/
theorem writes (h : Exactly out done s) {path : Steps} (hfits : Fits out done path)
    (c : List UInt8) :
    ∃ t t', s.tree.mkdirParents path.dropLast = (.ok (), t) ∧ t.write path c = .ok t' := by
  apply Tree.mkdirParents_write_iff.mpr
  refine ⟨h.passable hfits.clear, hfits.opens, fun hdir => ?_⟩
  rcases h.dirOf _ hdir with hknown | ⟨f, hf, pre, hp, hne, heq⟩
  · exact hfits.notOut hknown
  · exact hfits.notWay f hf pre hp hne heq

/-- After one more file. -/
theorem next (h : Exactly out done s) {name : PyStr} {path : Steps} {c : List UInt8}
    {t t' : Tree (List UInt8) (List UInt8)}
    (hmake : s.tree.mkdirParents path.dropLast = (.ok (), t)) (hwrite : t.write path c = .ok t') :
    Exactly out (done ++ [(name, path)]) ⟨t', s.opened ++ [(name, normalize path)]⟩ := by
  obtain ⟨hresolve, hnot, -, hget⟩ := Tree.write_ok hwrite
  have hgrown := Tree.grown_mkdirParents s.tree path.dropLast
  rw [hmake] at hgrown
  have hne : path ≠ [] := by
    rintro rfl
    exact hnot (Tree.get_nil t)
  refine ⟨by rw [h.opened]; simp, fun loc c' hloc => ?_, fun loc hloc => ?_⟩
  · by_cases heq : loc = normalize path
    · exact ⟨(name, path), by simp, heq.symm⟩
    · dsimp only at hloc
      rw [hget, if_neg heq, hgrown.file_iff] at hloc
      obtain ⟨f, hf, hfloc⟩ := h.fileOf loc c' hloc
      exact ⟨f, by simp [hf], hfloc⟩
  · dsimp only at hloc
    rw [hget] at hloc
    split at hloc
    · cases hloc
    · rcases hgrown loc with hsame | ⟨-, -, pre, hp, heq⟩
      · rw [hsame] at hloc
        rcases h.dirOf loc hloc with hknown | ⟨f, hf, hway⟩
        · exact .inl hknown
        · exact .inr ⟨f, by simp [hf], hway⟩
      · exact .inr ⟨(name, path), by simp, pre, hp.trans (List.dropLast_prefix _),
          Tree.ne_of_prefix_dropLast hne hp, heq.symm⟩

/-- The directories that can be made on a way are there in the end, so they are inside. -/
theorem wayStays (h : Exactly out done s) {way : Steps} {s' : Local}
    (hkept : Kept { s with tree := (s.tree.mkdirParents way).2 } s')
    (hconfined : Confined out (emptyOut out) s') : WayStays out done way := by
  intro pre hp hclear
  have hmade : (s.tree.mkdirParents way).2.get (normalize pre) = some .dir := by
    cases hget : s.tree.get (normalize pre) with
    | none =>
      exact (Tree.mkdirParents_get_iff hget).mpr ⟨pre, hp, rfl, h.passable hclear⟩
    | some n =>
      cases n with
      | dir => exact (Tree.grown_mkdirParents s.tree way).get_some hget
      | file c =>
        obtain ⟨f, hf, heq⟩ := h.fileOf _ c hget
        exact absurd heq (hclear pre (List.prefix_refl _) f hf)
  have hlast := hkept.dirs _ hmade
  cases hfirst : (emptyOut out).get (normalize pre) with
  | some n => exact .inl (get_emptyOut hfirst).2
  | none =>
    right
    apply hconfined.changed
    rw [hlast, hfirst]
    simp

/-- If a run on the empty disk keeps inside, its names stay. -/
theorem stays (h : Exactly out done s) {names : List PyStr}
    (hconfined : Confined out (emptyOut out) (fetchAll out obliging names s)) :
    Stays out done names := by
  induction names generalizing done s with
  | nil => trivial
  | cons name rest ih =>
    have hkept : Kept (writeFileStreaming (obliging 0) name (dest out name) s).2
        (fetchAll out obliging (name :: rest) s) := by
      rw [fetchAll]
      split
      · rename_i hrun
        rw [hrun]
        exact Kept.refl _
      · rename_i hrun
        rw [hrun]
        exact kept_fetchAll _ _ _ _
    refine ⟨fun way hway => ?_, fun path hpath hfits => ?_⟩
    · exact h.wayStays ((kept_writeFileStreaming _ name hway s).trans hkept) hconfined
    · obtain ⟨t, t', hmake, hwrite⟩ := h.writes hfits ([] : List (List UInt8)).flatten
      have hrun : writeFileStreaming (obliging 0) name (dest out name) s =
          (.ok (), ⟨t', s.opened ++ [(name, normalize path)]⟩) := by
        simp only [writeFileStreaming, obliging, encoded_dropLast hpath, hmake, hpath, hwrite]
      rw [hrun] at hkept
      have hnow : (name, normalize path) ∈ (fetchAll out obliging (name :: rest) s).opened :=
        hkept.opened.subset (by simp)
      refine ⟨hconfined.opened _ hnow, fun f hf heq => ?_, ?_⟩
      · have hthen : (f.1, normalize f.2) ∈ (fetchAll out obliging (name :: rest) s).opened := by
          apply hkept.opened.subset
          rw [h.opened]
          exact List.mem_append_left _ (List.mem_map_of_mem hf)
        exact hconfined.apart _ hthen _ hnow heq
      · rw [fetchAll, hrun] at hconfined
        exact ih (h.next hmake hwrite) hconfined

end Exactly

/-- Whatever the server answers and whatever was on the disk, a run keeps inside the output
directory and its names apart, exactly where the names stay. -/
theorem confined_iff_stays (str : Json → PyStr) (out : Steps) (files : List Json) :
    (∀ (server : Nat → Response) (tree : Tree (List UInt8) (List UInt8)), tree.isDir out = true →
      Confined out tree (downloadAll str out server files ⟨tree, []⟩).2) ↔
      Stays out [] (wanted str files) := by
  constructor
  · intro h
    have hconfined := h obliging (emptyOut out) (isDir_emptyOut out)
    rw [downloadAll_snd] at hconfined
    exact (Exactly.start out).stays hconfined
  · intro hstays server tree hdir
    rw [downloadAll_snd]
    exact (Reached.start hdir).fetchAll hstays server

/-! ## Plain names -/

/-- A relative name without a step up. -/
def Plain (name : PyStr) : Prop := name.head? ≠ some '/'.toNat ∧ some Step.up ∉ parts name

instance (name : PyStr) : Decidable (Plain name) := inferInstanceAs (Decidable (_ ∧ _))

/-- Steps into directories lead from the output directory to nothing but its inside. -/
theorem known_or_inside {out rest pre : Steps} (hup : Step.up ∉ rest) (hp : pre <+: out ++ rest) :
    Known out (normalize pre) ∨ Inside out (normalize pre) := by
  rcases List.prefix_or_prefix_of_prefix hp (List.prefix_append out rest) with hout | ⟨more, rfl⟩
  · exact .inl ⟨pre, hout, rfl⟩
  · have hmore : more <+: rest := (List.prefix_append_right_inj out).mp hp
    have hspell := eq_spell_normalize fun h => hup (hmore.subset h)
    rw [normalize_append, hspell, normalizeFrom_spell]
    by_cases hnil : normalize more = []
    · rw [hnil, List.append_nil]
      exact .inl ⟨out, List.prefix_refl _, rfl⟩
    · exact .inr ⟨List.prefix_append _ _, by simpa using hnil⟩

private theorem dest_of_plain {name : PyStr} (h : Plain name) (out : Steps) :
    dest out name = out.map some ++ parts name := if_neg h.1

/-- What a plain name is encoded to: the output directory and its own steps. -/
theorem encoded_of_plain {out path : Steps} {name : PyStr} (h : Plain name)
    (hpath : encoded (dest out name) = some path) :
    ∃ rest, path = out ++ rest ∧ parts name = rest.map some ∧ Step.up ∉ rest := by
  rw [encoded_eq_some_iff, dest_of_plain h] at hpath
  obtain ⟨front, rest, rfl, hfront, hrest⟩ := List.map_eq_append_iff.mp hpath.symm
  obtain rfl : front = out := List.map_injective_iff.mpr (fun _ _ => Option.some.inj) hfront
  refine ⟨rest, rfl, hrest.symm, fun hup => h.2 ?_⟩
  rw [← hrest]
  exact List.mem_map_of_mem hup

/-- The directories on the way of a plain name are known or inside. -/
theorem wayStays_of_plain {out way : Steps} {name : PyStr} (h : Plain name)
    (hway : encoded (dest out name).dropLast = some way) (done : List (PyStr × Steps)) :
    WayStays out done way := by
  intro pre hp _
  rw [encoded_eq_some_iff, dest_of_plain h] at hway
  by_cases hparts : parts name = []
  · rw [hparts, List.append_nil, ← List.map_dropLast] at hway
    obtain rfl := List.map_injective_iff.mpr (fun _ _ => Option.some.inj) hway
    exact .inl ⟨pre, hp.trans (List.dropLast_prefix _), rfl⟩
  · rw [List.dropLast_append_of_ne_nil hparts] at hway
    obtain ⟨front, rest, rfl, hfront, hrest⟩ := List.map_eq_append_iff.mp hway.symm
    obtain rfl : front = out := List.map_injective_iff.mpr (fun _ _ => Option.some.inj) hfront
    refine known_or_inside (fun hup => h.2 ?_) hp
    apply List.dropLast_subset (parts name)
    rw [← hrest]
    exact List.mem_map_of_mem hup

/-- Plain names stay, if no two of them have the same parts. -/
theorem stays_of_plain (out : Steps) {names : List PyStr} (hplain : ∀ n ∈ names, Plain n)
    (hinj : ∀ n ∈ names, ∀ n' ∈ names, parts n = parts n' → n = n') : Stays out [] names := by
  suffices hgen : ∀ (done : List (PyStr × Steps)) (rest : List PyStr), rest ⊆ names →
      (∀ f ∈ done, f.1 ∈ names ∧ encoded (dest out f.1) = some f.2) → Stays out done rest from
    hgen [] names (List.Subset.refl _) (by simp)
  intro done rest
  induction rest generalizing done with
  | nil => exact fun _ _ => trivial
  | cons name rest ih =>
    intro hsub hdone
    have hmem : name ∈ names := hsub (by simp)
    refine ⟨fun way hway => wayStays_of_plain (hplain name hmem) hway done,
      fun path hpath hfits => ?_⟩
    obtain ⟨steps, rfl, hparts, hup⟩ := encoded_of_plain (hplain name hmem) hpath
    refine ⟨(known_or_inside hup (List.prefix_refl _)).resolve_left hfits.notOut,
      fun f hf heq => ?_, ih _ (fun n hn => hsub (by simp [hn])) fun f hf => ?_⟩
    · obtain ⟨hfmem, hfpath⟩ := hdone f hf
      obtain ⟨steps', hf', hparts', hup'⟩ := encoded_of_plain (hplain f.1 hfmem) hfpath
      apply hinj f.1 hfmem name hmem
      rw [hf', normalize_append, normalize_append, eq_spell_normalize hup, eq_spell_normalize hup',
        normalizeFrom_spell, normalizeFrom_spell] at heq
      rw [hparts, hparts', eq_spell_normalize hup, eq_spell_normalize hup',
        List.append_cancel_left heq]
    · rcases List.mem_append.mp hf with hf | hf
      · exact hdone f hf
      · obtain rfl := List.mem_singleton.mp hf
        exact ⟨hmem, hpath⟩

/-! ## Small envelopes -/

/-- The output directory `/o`. -/
def smallOut : Steps := [.into [111]]

/-- An entry of an envelope, as the server makes them. -/
def fileEntry (name : String) : Json :=
  .obj [(PyStr.ofString "name", .str (PyStr.ofString name)),
    (PyStr.ofString "url", .str (PyStr.ofString "http://host/download/p"))]

/-- The command on an empty disk, with a server that answers. -/
def smallDownload (names : List String) : Local :=
  (downloadAll (fun _ => []) smallOut obliging (names.map fileEntry) ⟨emptyOut smallOut, []⟩).2

/-- Two names that stay inside. -/
theorem confined_iff_stays_small :
    Confined smallOut (emptyOut smallOut) (smallDownload ["report.md", "src/lib.py"]) := by
  have hwanted : wanted (fun _ => []) (["report.md", "src/lib.py"].map fileEntry) =
      [PyStr.ofString "report.md", PyStr.ofString "src/lib.py"] := by decide +kernel
  refine (confined_iff_stays (fun _ => []) smallOut _).mpr ?_ obliging (emptyOut smallOut)
    (isDir_emptyOut smallOut)
  rw [hwanted]
  exact stays_of_plain smallOut (by decide +kernel) (by decide +kernel)

/-- A name with a step up is written outside, and two names can be the same file. -/
theorem names_lead_out :
    ¬(∀ (server : Nat → Response) (tree : Tree (List UInt8) (List UInt8)),
        tree.isDir smallOut = true → Confined smallOut tree
          (downloadAll (fun _ => []) smallOut server (["../evil"].map fileEntry) ⟨tree, []⟩).2) ∧
      ¬∀ (server : Nat → Response) (tree : Tree (List UInt8) (List UInt8)),
        tree.isDir smallOut = true → Confined smallOut tree
          (downloadAll (fun _ => []) smallOut server (["a", "./a"].map fileEntry)
            ⟨tree, []⟩).2 := by
  constructor
  · intro h
    have hconfined := h obliging (emptyOut smallOut) (isDir_emptyOut smallOut)
    have hopened : (smallDownload ["../evil"]).opened =
        [(PyStr.ofString "../evil", [[101, 118, 105, 108]])] := by decide +kernel
    have hin := hconfined.opened _ (hopened ▸ List.mem_singleton_self _)
    exact absurd hin (by decide)
  · intro h
    have hconfined := h obliging (emptyOut smallOut) (isDir_emptyOut smallOut)
    have hopened : (smallDownload ["a", "./a"]).opened =
        [(PyStr.ofString "a", [[111], [97]]), (PyStr.ofString "./a", [[111], [97]])] := by
      decide +kernel
    have hsame : PyStr.ofString "a" = PyStr.ofString "./a" :=
      hconfined.apart (PyStr.ofString "a", [[111], [97]]) (hopened ▸ by simp)
        (PyStr.ofString "./a", [[111], [97]]) (hopened ▸ by simp) rfl
    exact absurd hsame (by decide +kernel)

end Cassetta.Cli
