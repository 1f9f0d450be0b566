import Cassetta.Core.FileOps

/-!
# Room for several files

Files are put into a tree one after another, each with the directories on its way. Whether all
of them go in can be told from the tree at the start: no file may stand on a way, no directory
at an end, and no way may lead through an end, of the same path or of another.
-/

namespace FileTree.Tree

variable {κ β : Type} [DecidableEq κ] {t t₁ t₂ : Tree κ β} {path : List (Step κ)}
  {paths : List (List (Step κ))} {c : β}

/-- Files can be put at the ends of all the paths, with the directories on their ways. -/
structure HasRoom (t : Tree κ β) (paths : List (List (Step κ))) : Prop where
  ways : ∀ p ∈ paths, t.Passable p.dropLast
  ends : ∀ p ∈ paths, t.get (normalize p) ≠ some .dir
  apart : ∀ p ∈ paths, ∀ p' ∈ paths, ∀ pre, pre <+: p.dropLast → normalize pre ≠ normalize p'

private theorem prefix_dropLast {α : Type} {l pre : List α} (hp : pre <+: l) (hne : pre ≠ l) :
    pre <+: l.dropLast := by
  obtain ⟨rest, rfl⟩ := hp
  have hrest : rest ≠ [] := by
    rintro rfl
    simp at hne
  rw [List.dropLast_append_of_ne_nil hrest]
  exact List.prefix_append _ _

omit [DecidableEq κ] in
private theorem opens_of_apart
    (h : ∀ pre, pre <+: path.dropLast → normalize pre ≠ normalize path) : Opens path := by
  have hne : path ≠ [] := by
    rintro rfl
    exact h [] (List.prefix_refl _) rfl
  exact ⟨hne, fun pre hp hpre => h pre (prefix_dropLast hp hpre)⟩

/-- The first of several files goes in exactly where there is room for it alone. -/
theorem HasRoom.head (h : t.HasRoom (path :: paths)) :
    ∃ t₁ t₂, t.mkdirParents path.dropLast = (.ok (), t₁) ∧ t₁.write path c = .ok t₂ :=
  mkdirParents_write_iff.mpr ⟨h.ways path (by simp),
    opens_of_apart (h.apart path (by simp) path (by simp)), h.ends path (by simp)⟩

/-- Once one file has gone in, there is room for the others exactly if there was room for all. -/
theorem hasRoom_cons_iff (hg : Grown path t t₁) (hw : t₁.write path c = .ok t₂) :
    t.HasRoom (path :: paths) ↔ t₂.HasRoom paths := by
  obtain ⟨hr, hnd, -, hget⟩ := write_ok hw
  have hne : path ≠ [] := by
    rintro rfl
    simp [normalize, normalizeFrom] at hnd
  have hway₁ : ∀ pre, pre <+: path.dropLast → t₁.get (normalize pre) = some .dir := fun pre hp =>
    get_of_resolve hr (hp.trans (List.dropLast_prefix _)) (ne_of_prefix_dropLast hne hp)
  have hopen : ∀ pre, pre <+: path.dropLast → normalize pre ≠ normalize path :=
    fun pre hp he => hnd (he ▸ hway₁ pre hp)
  have hway : ∀ pre, pre <+: path.dropLast → t₂.get (normalize pre) = some .dir := by
    intro pre hp
    rw [hget, if_neg (hopen pre hp), hway₁ pre hp]
  have hkeep : ∀ q, t.get q = some .dir → t₂.get q = some .dir := by
    intro q hq
    have hq' := hg.get_some hq
    rw [hget, if_neg]
    · exact hq'
    · rintro rfl
      exact hnd hq'
  constructor
  · intro h
    refine ⟨fun p hp pre hpre c' hc => ?_, fun p hp hd => ?_, fun p hp p' hp' =>
      h.apart p (by simp [hp]) p' (by simp [hp'])⟩
    · rw [hget, if_neg (h.apart p (by simp [hp]) path (by simp) pre hpre), hg.file_iff] at hc
      exact h.ways p (by simp [hp]) pre hpre c' hc
    · rw [hget] at hd
      split at hd
      · cases hd
      · rename_i hother
        rcases hg (normalize p) with he | ⟨-, -, pre, hpre, he⟩
        · exact h.ends p (by simp [hp]) (he ▸ hd)
        · refine h.apart path (by simp) p (by simp [hp]) pre ?_ he.symm
          exact prefix_dropLast hpre (by rintro rfl; exact hother he)
  · intro h
    refine ⟨fun p hp pre hpre c' hc => ?_, fun p hp => ?_, fun p hp p' hp' pre hpre he => ?_⟩
    · rcases List.mem_cons.mp hp with rfl | hp
      · have hc' := hg.get_some hc
        rw [hway₁ pre hpre] at hc'
        cases hc'
      · have hc' := hg.get_some hc
        by_cases hq : normalize pre = normalize path
        · exact h.ways p hp pre hpre c (by rw [hget, if_pos hq])
        · exact h.ways p hp pre hpre c' (by rw [hget, if_neg hq, hc'])
    · rcases List.mem_cons.mp hp with rfl | hp
      · exact fun hd => hnd (hg.get_some hd)
      · exact fun hd => h.ends p hp (hkeep _ hd)
    · rcases List.mem_cons.mp hp with rfl | hrest
      · rcases List.mem_cons.mp hp' with rfl | hrest'
        · exact hopen pre hpre he
        · exact h.ends p' hrest' (he ▸ hway pre hpre)
      · rcases List.mem_cons.mp hp' with rfl | hrest'
        · exact h.ways p hrest pre hpre c (by rw [hget, if_pos he])
        · exact h.apart p hrest p' hrest' pre hpre he

/-- A new directory, made with those above it, leaves room for files exactly if there was room and
none of them lies at it or above it. -/
theorem hasRoom_mkdir_iff (hg₁ : Grown path t t₁) (hk : t₁.mkdir path = .ok t₂) :
    t₂.HasRoom paths ↔ t.HasRoom paths ∧
      ∀ p ∈ paths, ∀ pre, pre <+: path → normalize pre ≠ normalize p := by
  have hg : Grown path t t₂ := hg₁.trans (grown_of_mkdir hk)
  constructor
  · intro h
    refine ⟨⟨fun p hp pre hpre c hc => h.ways p hp pre hpre c (hg.get_some hc),
      fun p hp hd => h.ends p hp (hg.get_some hd), h.apart⟩, fun p hp pre hpre he => ?_⟩
    apply h.ends p hp
    obtain ⟨hres, hd⟩ := isDir_iff.mp (isDir_of_mkdir hk)
    rw [← he]
    by_cases hq : pre = path
    · rw [hq, hd]
    · exact get_of_resolve hres hpre hq
  · rintro ⟨h, hbeside⟩
    refine ⟨fun p hp => (h.ways p hp).grown hg, fun p hp hd => ?_, h.apart⟩
    rcases hg (normalize p) with he | ⟨-, -, pre, hpre, he⟩
    · exact h.ends p hp (he ▸ hd)
    · exact hbeside p hp pre hpre he.symm

end FileTree.Tree
