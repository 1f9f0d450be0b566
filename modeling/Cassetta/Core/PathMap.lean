import Mathlib

/-!
# Maps from locations

A store that keeps values at locations of a tree, and the two edits that change it: putting one
value at a location, and cutting off everything at or below one. A location holds what the last
edit that touches it left there.
-/

namespace PathMap

variable {κ V : Type}

/-- One change to a map from locations. -/
inductive Edit (κ V : Type) where
  | put (loc : List κ) (v : V)
  | cut (loc : List κ)
  deriving DecidableEq, Repr

/-- An edit decides what a location holds. -/
def Edit.Touches (q : List κ) : Edit κ V → Prop
  | .put loc _ => loc = q
  | .cut loc => loc <+: q

variable [DecidableEq κ]

/-- The map after one edit. -/
def Edit.apply (s : List κ → Option V) : Edit κ V → List κ → Option V
  | .put loc v => Function.update s loc (some v)
  | .cut loc => fun q => if loc <+: q then none else s q

/-- The map after a history of edits. -/
def replay (s : List κ → Option V) (edits : List (Edit κ V)) : List κ → Option V :=
  edits.foldl Edit.apply s

/-- Nothing is changed. -/
@[simp] theorem replay_nil (s : List κ → Option V) : replay s [] = s := rfl

/-- One history after the other. -/
theorem replay_append (s : List κ → Option V) (edits rest : List (Edit κ V)) :
    replay s (edits ++ rest) = replay (replay s edits) rest := by
  simp [replay, List.foldl_append]

private theorem Edit.apply_of_not_touches {e : Edit κ V} {q : List κ} (h : ¬e.Touches q)
    (s : List κ → Option V) : e.apply s q = s q := by
  cases e with
  | put loc v => exact Function.update_of_ne (fun he => h he.symm) _ _
  | cut loc => exact if_neg h

/-- Edits elsewhere leave a location as it is. -/
theorem replay_of_not_touches {q : List κ} {edits : List (Edit κ V)}
    (h : ∀ e ∈ edits, ¬e.Touches q) (s : List κ → Option V) : replay s edits q = s q := by
  induction edits generalizing s with
  | nil => rfl
  | cons e rest ih =>
    rw [List.forall_mem_cons] at h
    exact (ih h.2 _).trans (Edit.apply_of_not_touches h.1 s)

/-- The last edit that touches a location decides what is there. -/
theorem replay_append_cons {q : List κ} {before after : List (Edit κ V)} {e : Edit κ V}
    (he : e.Touches q) (h : ∀ e' ∈ after, ¬e'.Touches q) (s : List κ → Option V) :
    replay s (before ++ e :: after) q = match e with
      | .put _ v => some v
      | .cut _ => none := by
  have hsplit : before ++ e :: after = (before ++ [e]) ++ after := by simp
  rw [hsplit, replay_append, replay_of_not_touches h, replay_append]
  cases e with
  | put loc v =>
    obtain rfl : loc = q := he
    exact Function.update_self ..
  | cut loc => exact if_pos he

omit [DecidableEq κ] in
/-- A history either touches a location or it does not, and if so there is a last time. -/
theorem exists_last_touch (q : List κ) (edits : List (Edit κ V)) :
    (∀ e ∈ edits, ¬e.Touches q) ∨
      ∃ before e after, edits = before ++ e :: after ∧ e.Touches q ∧
        ∀ e' ∈ after, ¬e'.Touches q := by
  induction edits with
  | nil => exact .inl (by simp)
  | cons e rest ih =>
    rcases ih with hno | ⟨before, e', after, rfl, ht, hafter⟩
    · by_cases he : e.Touches q
      · exact .inr ⟨[], e, rest, rfl, he, hno⟩
      · exact .inl (List.forall_mem_cons.mpr ⟨he, hno⟩)
    · exact .inr ⟨e :: before, e', after, rfl, ht, hafter⟩

/-- From the empty map, a location holds a value when the last edit that touches it put that
value there. -/
theorem replay_eq_some_iff {q : List κ} {v : V} {edits : List (Edit κ V)} :
    replay (fun _ => none) edits q = some v ↔
      ∃ before after, edits = before ++ .put q v :: after ∧ ∀ e ∈ after, ¬e.Touches q := by
  constructor
  · intro h
    rcases exists_last_touch q edits with hno | ⟨before, e, after, rfl, ht, hafter⟩
    · rw [replay_of_not_touches hno] at h
      cases h
    · rw [replay_append_cons ht hafter] at h
      cases e with
      | cut loc => cases h
      | put loc w =>
        obtain rfl : loc = q := ht
        obtain rfl : w = v := Option.some.inj h
        exact ⟨before, after, rfl, hafter⟩
  · rintro ⟨before, after, rfl, hafter⟩
    exact replay_append_cons (e := .put q v) rfl hafter _

end PathMap
