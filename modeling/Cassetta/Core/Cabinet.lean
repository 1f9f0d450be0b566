import Mathlib
import Cassetta.Core.PathMap

/-!
# Values filed in a cabinet

A store that keeps values at locations of a tree and makes room for them as they come. Filing a
value pulls out every drawer above its location, and a drawer once out stays out: no value can
take its place, also when all that was in it is gone. A value in turn closes what would lie below
it.
-/

/-- The values, and the drawers that have been pulled out. -/
@[ext]
structure Cabinet (κ V : Type) where
  held : List κ → Option V
  drawers : Set (List κ)

namespace Cabinet

open PathMap

variable {κ V : Type}

/-- The locations strictly above one. -/
def Above (loc : List κ) : Set (List κ) := {q | q <+: loc ∧ q ≠ loc}

/-- Whether a value can be filed at a location. -/
structure Open (c : Cabinet κ V) (loc : List κ) : Prop where
  clear : ∀ q ∈ Above loc, c.held q = none
  free : loc ∉ c.drawers

/-- A location is open if nothing is held above it and it is no drawer. -/
theorem open_iff {c : Cabinet κ V} {loc : List κ} :
    c.Open loc ↔ (∀ q ∈ Above loc, c.held q = none) ∧ loc ∉ c.drawers :=
  ⟨fun h => ⟨h.clear, h.free⟩, fun h => ⟨h.1, h.2⟩⟩

/-- What holds of a cabinet however it is used. -/
structure Sound (c : Cabinet κ V) : Prop where
  out : ∀ loc v, c.held loc = some v → Above loc ⊆ c.drawers
  bare : ∀ loc ∈ c.drawers, c.held loc = none

variable [DecidableEq κ]

/-- File a value. -/
def file (c : Cabinet κ V) (loc : List κ) (v : V) : Cabinet κ V :=
  ⟨Function.update c.held loc (some v), c.drawers ∪ Above loc⟩

/-- Take a value out. -/
def take (c : Cabinet κ V) (loc : List κ) : Cabinet κ V :=
  ⟨Function.update c.held loc none, c.drawers⟩

/-- What is held after filing. -/
@[simp] theorem file_held (c : Cabinet κ V) (loc : List κ) (v : V) :
    (c.file loc v).held = Function.update c.held loc (some v) := rfl
/-- Filing a value makes the drawers above it. -/
@[simp] theorem file_drawers (c : Cabinet κ V) (loc : List κ) (v : V) :
    (c.file loc v).drawers = c.drawers ∪ Above loc := rfl
/-- What is held after taking. -/
@[simp] theorem take_held (c : Cabinet κ V) (loc : List κ) :
    (c.take loc).held = Function.update c.held loc none := rfl
/-- Taking a value leaves the drawers. -/
@[simp] theorem take_drawers (c : Cabinet κ V) (loc : List κ) :
    (c.take loc).drawers = c.drawers := rfl

/-- Whether a change is one the cabinet agrees to. -/
def Accepts (c : Cabinet κ V) : Edit κ V → Prop
  | .put loc _ => c.Open loc
  | .cut loc => c.held loc ≠ none

/-- The cabinet after a change it agrees to. -/
def change (c : Cabinet κ V) : Edit κ V → Cabinet κ V
  | .put loc v => c.file loc v
  | .cut loc => c.take loc

/-- The cabinet after a history. -/
def replay (c : Cabinet κ V) (edits : List (Edit κ V)) : Cabinet κ V := edits.foldl change c

/-- Nothing is changed. -/
@[simp] theorem replay_nil (c : Cabinet κ V) : c.replay [] = c := rfl

/-- One change, and then the others. -/
@[simp] theorem replay_cons (c : Cabinet κ V) (e : Edit κ V) (edits : List (Edit κ V)) :
    c.replay (e :: edits) = (c.change e).replay edits := rfl

/-- One history after the other. -/
theorem replay_append (c : Cabinet κ V) (edits rest : List (Edit κ V)) :
    c.replay (edits ++ rest) = (c.replay edits).replay rest := by
  simp [replay, List.foldl_append]

/-- Every change of a history is one the cabinet agrees to when its turn comes. -/
def Agreed : Cabinet κ V → List (Edit κ V) → Prop
  | _, [] => True
  | c, e :: rest => c.Accepts e ∧ (c.change e).Agreed rest

/-- A history is agreed to if each of its parts is when its turn comes. -/
theorem agreed_append {c : Cabinet κ V} {edits rest : List (Edit κ V)} :
    c.Agreed (edits ++ rest) ↔ c.Agreed edits ∧ (c.replay edits).Agreed rest := by
  induction edits generalizing c with
  | nil => simp [Agreed]
  | cons e edits ih => simp [Agreed, ih, and_assoc]

/-! ## Soundness -/

omit [DecidableEq κ] in
/-- What is above something above a location is above the location. -/
theorem Above.trans {p q loc : List κ} (hp : p ∈ Above q) (hq : q ∈ Above loc) :
    p ∈ Above loc := by
  refine ⟨hp.1.trans hq.1, fun he => hq.2 (hq.1.eq_of_length_le ?_)⟩
  rw [← he]
  exact hp.1.length_le

omit [DecidableEq κ] in
/-- Nothing is filed below a value. -/
theorem Sound.below {c : Cabinet κ V} (h : c.Sound) {loc q : List κ} {v : V}
    (hv : c.held loc = some v) (hq : loc ∈ Above q) : c.held q = none := by
  cases hh : c.held q with
  | none => rfl
  | some w =>
    have hbare := h.bare loc (h.out q w hh hq)
    rw [hv] at hbare
    cases hbare

/-- Filing at an open location keeps a cabinet sound. -/
theorem Sound.file {c : Cabinet κ V} (h : c.Sound) {loc : List κ} (ho : c.Open loc) (v : V) :
    (c.file loc v).Sound where
  out q w hw := by
    by_cases hq : q = loc
    · subst hq
      exact Set.subset_union_right
    · have hw' : c.held q = some w := by rwa [file_held, Function.update_of_ne hq] at hw
      exact (h.out q w hw').trans Set.subset_union_left
  bare q hq := by
    have hne : q ≠ loc := by
      rintro rfl
      exact hq.elim ho.free fun habove => habove.2 rfl
    rw [file_held, Function.update_of_ne hne]
    exact hq.elim (h.bare q) (ho.clear q)

/-- Taking keeps a cabinet sound. -/
theorem Sound.take {c : Cabinet κ V} (h : c.Sound) (loc : List κ) : (c.take loc).Sound where
  out q w hw := by
    by_cases hq : q = loc
    · subst hq
      simp at hw
    · exact h.out q w (by rwa [take_held, Function.update_of_ne hq] at hw)
  bare q hq := by
    by_cases he : q = loc
    · simp [he]
    · rw [take_held, Function.update_of_ne he]
      exact h.bare q hq

/-- A change that is accepted keeps a cabinet sound. -/
theorem Sound.change {c : Cabinet κ V} (h : c.Sound) {e : Edit κ V} (he : c.Accepts e) :
    (c.change e).Sound := by
  cases e with
  | put loc v => exact h.file he v
  | cut loc => exact h.take loc

/-! ## Histories -/

/-- What is at or below a value is the value. -/
theorem Sound.held_change {c : Cabinet κ V} (h : c.Sound) {e : Edit κ V} (he : c.Accepts e) :
    (c.change e).held = e.apply c.held := by
  cases e with
  | put loc v => rfl
  | cut loc =>
    obtain ⟨v, hv⟩ := Option.ne_none_iff_exists'.mp he
    funext q
    change Function.update c.held loc none q = if loc <+: q then none else c.held q
    by_cases hq : q = loc
    · simp [hq]
    · rw [Function.update_of_ne hq]
      split
      · rename_i hp
        exact h.below hv ⟨hp, Ne.symm hq⟩
      · rfl

/-- The values of a cabinet are those its history leaves. -/
theorem Sound.held_replay {c : Cabinet κ V} (h : c.Sound) {edits : List (Edit κ V)}
    (he : c.Agreed edits) : (c.replay edits).held = PathMap.replay c.held edits := by
  induction edits generalizing c with
  | nil => rfl
  | cons e rest ih =>
    rw [replay_cons, ih (h.change he.1) he.2, h.held_change he.1]
    rfl

/-- A drawer was out, or something was filed below it. -/
theorem mem_drawers_replay {c : Cabinet κ V} {edits : List (Edit κ V)} {q : List κ} :
    q ∈ (c.replay edits).drawers ↔
      q ∈ c.drawers ∨ ∃ loc v, Edit.put loc v ∈ edits ∧ q ∈ Above loc := by
  induction edits generalizing c with
  | nil => simp
  | cons e rest ih =>
    rw [replay_cons, ih]
    cases e with
    | put loc v =>
      simp only [change, file_drawers, Set.mem_union, List.mem_cons, Edit.put.injEq]
      constructor
      · rintro ((hq | hq) | ⟨loc', v', hm, hq⟩)
        · exact .inl hq
        · exact .inr ⟨loc, v, .inl ⟨rfl, rfl⟩, hq⟩
        · exact .inr ⟨loc', v', .inr hm, hq⟩
      · rintro (hq | ⟨loc', v', ⟨rfl, rfl⟩ | hm, hq⟩)
        · exact .inl (.inl hq)
        · exact .inl (.inr hq)
        · exact .inr ⟨loc', v', hm, hq⟩
    | cut loc => simp [change]

end Cabinet
