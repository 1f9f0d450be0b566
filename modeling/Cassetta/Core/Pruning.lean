import Cassetta.Core.FileOps

/-!
# Removing directories one after the other

A pass goes over a list of directories and removes each one that still meets a condition when
its turn comes. As long as a removal does not change the condition of a directory that is not
below it, the pass takes away exactly what lay below the directories that met the condition at
the start.
-/

namespace FileTree

namespace Tree

variable {κ β : Type} [DecidableEq κ]

/-- Remove a directory that meets a condition. -/
def removeIf (K : Tree κ β → List κ → Bool) (t : Tree κ β) (loc : List κ) : Tree κ β :=
  if K t loc then t.remove loc else t

/-- Go over a list of directories. -/
def prune (K : Tree κ β → List κ → Bool) (locs : List (List κ)) (t : Tree κ β) : Tree κ β :=
  locs.foldl (removeIf K) t

/-- A condition on directories that a removal elsewhere leaves as it is. -/
structure Steady (K : Tree κ β → List κ → Bool) : Prop where
  dir : ∀ {t loc}, K t loc = true → t.get loc = some .dir
  remove : ∀ {t loc₀ loc}, K t loc₀ = true → ¬loc₀ <+: loc → K (t.remove loc₀) loc = K t loc

/-- A removal takes the location and what is below it, if it is due. -/
theorem get_removeIf {K : Tree κ β → List κ → Bool} (t : Tree κ β) (loc : List κ) {q : List κ}
    (hq : q ≠ []) :
    (removeIf K t loc).get q = if K t loc = true ∧ loc <+: q then none else t.get q := by
  unfold removeIf
  split
  · rename_i hk
    simp [get_remove _ _ hq, hk]
  · rename_i hk
    simp [hk]

/-- A pass takes away what lay below the directories that met the condition at the start. -/
theorem get_prune {K : Tree κ β → List κ → Bool} (hK : Steady K) {locs : List (List κ)}
    (hne : ∀ loc ∈ locs, loc ≠ []) (t : Tree κ β) {q : List κ} (hq : q ≠ []) :
    (prune K locs t).get q =
      if ∃ loc ∈ locs, K t loc = true ∧ loc <+: q then none else t.get q := by
  induction locs generalizing t with
  | nil => simp [prune]
  | cons loc₀ rest ih =>
    have hstep : prune K (loc₀ :: rest) t = prune K rest (removeIf K t loc₀) := rfl
    rw [hstep, ih fun loc hm => hne loc (by simp [hm]), get_removeIf t loc₀ hq]
    by_cases h₀ : K t loc₀ = true ∧ loc₀ <+: q
    · simp [h₀]
    · have hsame : ∀ loc ∈ rest, loc <+: q → K (removeIf K t loc₀) loc = K t loc := by
        intro loc _ hp
        unfold removeIf
        split
        · rename_i hk
          exact hK.remove hk fun hp₀ => h₀ ⟨hk, hp₀.trans hp⟩
        · rfl
      have hiff : (∃ loc ∈ rest, K (removeIf K t loc₀) loc = true ∧ loc <+: q) ↔
          ∃ loc ∈ loc₀ :: rest, K t loc = true ∧ loc <+: q := by
        constructor
        · rintro ⟨loc, hm, hk, hp⟩
          exact ⟨loc, by simp [hm], hsame loc hm hp ▸ hk, hp⟩
        · rintro ⟨loc, hm, hk, hp⟩
          rcases List.mem_cons.mp hm with rfl | hm
          · exact absurd ⟨hk, hp⟩ h₀
          · exact ⟨loc, hm, (hsame loc hm hp).symm ▸ hk, hp⟩
      simp only [hiff, if_neg h₀]

end Tree

end FileTree
