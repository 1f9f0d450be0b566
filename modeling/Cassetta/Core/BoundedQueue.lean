import Mathlib

/-!
# A bounded queue

A first-in-first-out queue that holds a bounded number of items. Putting into a full queue and
getting from an empty one have no result: whoever does it has to wait.
-/

/-- A queue of at most `size` items, the oldest first. -/
structure BoundedQueue (α : Type) (size : Nat) where
  items : List α
  bounded : items.length ≤ size

namespace BoundedQueue

variable {α : Type} {size : Nat}

def empty : BoundedQueue α size := ⟨[], Nat.zero_le size⟩

def Full (q : BoundedQueue α size) : Prop := q.items.length = size

instance (q : BoundedQueue α size) : Decidable q.Full := inferInstanceAs (Decidable (_ = _))

private theorem length_concat_le {items : List α} (h : items.length < size) (a : α) :
    (items ++ [a]).length ≤ size := by
  rwa [List.length_append, List.length_singleton]

/-- One more item at the end, when there is room. -/
def put (q : BoundedQueue α size) (a : α) : Option (BoundedQueue α size) :=
  if h : q.items.length < size then some ⟨q.items ++ [a], length_concat_le h a⟩ else none

/-- The oldest item, when there is one. -/
def get : BoundedQueue α size → Option (α × BoundedQueue α size)
  | ⟨[], _⟩ => none
  | ⟨a :: rest, h⟩ => some (a, ⟨rest, Nat.le_of_succ_le h⟩)

/-- An empty queue holds nothing. -/
@[simp] theorem empty_items : (empty : BoundedQueue α size).items = [] := rfl

/-- A put is refused exactly if the queue is full. -/
theorem put_eq_none_iff {q : BoundedQueue α size} {a : α} : q.put a = none ↔ q.Full := by
  have hle := q.bounded
  unfold put Full
  split
  · simp
    omega
  · simp
    omega

/-- What is put is last. -/
theorem items_of_put {q q' : BoundedQueue α size} {a : α} (h : q.put a = some q') :
    q'.items = q.items ++ [a] := by
  unfold put at h
  split at h
  · cases h
    rfl
  · cases h

/-- A put succeeds where there is room. -/
theorem put_of_lt {q : BoundedQueue α size} (h : q.items.length < size) (a : α) :
    ∃ q', q.put a = some q' ∧ q'.items = q.items ++ [a] := by
  cases hput : q.put a with
  | none =>
    have hfull : q.items.length = size := put_eq_none_iff.mp hput
    omega
  | some q' => exact ⟨q', rfl, items_of_put hput⟩

/-- A get is refused exactly if the queue is empty. -/
theorem get_eq_none_iff {q : BoundedQueue α size} : q.get = none ↔ q.items = [] := by
  rcases q with ⟨_ | ⟨a, rest⟩, h⟩ <;> simp [get]

/-- What is got was first. -/
theorem items_of_get {q q' : BoundedQueue α size} {a : α} (h : q.get = some (a, q')) :
    q.items = a :: q'.items := by
  rcases q with ⟨_ | ⟨b, rest⟩, hle⟩
  · cases h
  · cases h
    rfl

/-- A get succeeds where there is something. -/
theorem get_of_items {q : BoundedQueue α size} {a : α} {rest : List α} (h : q.items = a :: rest) :
    ∃ q', q.get = some (a, q') ∧ q'.items = rest := by
  cases hget : q.get with
  | none =>
    rw [get_eq_none_iff.mp hget] at h
    cases h
  | some r =>
    obtain ⟨b, q'⟩ := r
    have hitems := items_of_get hget
    rw [h] at hitems
    cases hitems
    exact ⟨q', rfl, rfl⟩

end BoundedQueue
