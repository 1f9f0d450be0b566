import Mathlib

/-!
# One flat folder

A folder maps names to inodes, and an inode has a content. An open file is an inode, so what
is written to it goes where the inode is, whatever has become of the name it was opened
under. `born` remembers the name an inode was created under; nothing reads it back.
-/

/-- Names `κ`, contents `β`. -/
structure Folder (κ β : Type) where
  /-- The entries, in the order they are listed. -/
  entries : List (κ × Nat)
  content : Nat → β
  born : Nat → κ
  /-- The next inode. -/
  next : Nat
  keys : (entries.map Prod.fst).Nodup
  inodes : (entries.map Prod.snd).Nodup
  below : ∀ e ∈ entries, e.2 < next

namespace Folder

variable {κ β : Type} [DecidableEq κ]

/-- A folder with nothing in it. -/
def empty (k : κ) (b : β) : Folder κ β := ⟨[], fun _ => b, fun _ => k, 0, by simp, by simp, by simp⟩

/-- The inode behind a name. -/
def ino (f : Folder κ β) (k : κ) : Option Nat := (f.entries.find? (·.1 = k)).map Prod.snd

/-- The names, as `scandir` lists them. -/
def names (f : Folder κ β) : List κ := f.entries.map Prod.fst

/-- Open, read, close. -/
def read (f : Folder κ β) (k : κ) : Option β := (f.ino k).map f.content

/-! ## Lookup -/

/-- A name has an inode exactly if it is entered with it. -/
theorem ino_eq_some {f : Folder κ β} {k : κ} {i : Nat} : f.ino k = some i ↔ (k, i) ∈ f.entries := by
  unfold ino
  constructor
  · intro h
    obtain ⟨e, he, hi⟩ := Option.map_eq_some_iff.mp h
    have hk : e.1 = k := by simpa using List.find?_some he
    have hm := List.mem_of_find?_eq_some he
    rwa [← hk, ← hi]
  · intro h
    cases hf : f.entries.find? (·.1 = k) with
    | none => simpa using List.find?_eq_none.mp hf (k, i) h
    | some e =>
      have hk : e.1 = k := by simpa using List.find?_some hf
      have he := List.inj_on_of_nodup_map f.keys (List.mem_of_find?_eq_some hf) h hk
      rw [he]
      rfl

/-- A name without an inode is not entered. -/
theorem ino_eq_none {f : Folder κ β} {k : κ} : f.ino k = none ↔ k ∉ f.names := by
  rw [Option.eq_none_iff_forall_ne_some]
  constructor
  · intro h hk
    obtain ⟨e, he, rfl⟩ := List.mem_map.mp hk
    exact h e.2 (ino_eq_some.mpr he)
  · intro h i hi
    exact h (List.mem_map.mpr ⟨_, ino_eq_some.mp hi, rfl⟩)

/-- Inodes in use are below the next one. -/
theorem ino_lt {f : Folder κ β} {k : κ} {i : Nat} (h : f.ino k = some i) : i < f.next :=
  f.below _ (ino_eq_some.mp h)

/-- No two names share an inode. -/
theorem ino_inj {f : Folder κ β} {k l : κ} {i : Nat} (hk : f.ino k = some i)
    (hl : f.ino l = some i) : k = l := by
  have he := List.inj_on_of_nodup_map f.inodes (ino_eq_some.mp hk) (ino_eq_some.mp hl) rfl
  exact congrArg Prod.fst he

/-! ## Creating -/

private theorem nodup_map_snoc {α γ : Type} {g : α → γ} {l : List α} {a : α}
    (h : (l.map g).Nodup) (ha : g a ∉ l.map g) : ((l ++ [a]).map g).Nodup := by
  rw [List.map_append, List.map_singleton, ← List.concat_eq_append]
  exact h.concat ha

omit [DecidableEq κ] in
private theorem entries_fresh (f : Folder κ β) : f.next ∉ f.entries.map Prod.snd := by
  intro h
  obtain ⟨e, he, hi⟩ := List.mem_map.mp h
  exact absurd (f.below e he) (by omega)

/-- Add a name for a new inode. -/
def create (f : Folder κ β) (k : κ) (b : β) (hk : f.ino k = none) : Folder κ β where
  entries := f.entries ++ [(k, f.next)]
  content := Function.update f.content f.next b
  born := Function.update f.born f.next k
  next := f.next + 1
  keys := nodup_map_snoc f.keys (ino_eq_none.mp hk)
  inodes := nodup_map_snoc f.inodes f.entries_fresh
  below := by
    intro e he
    rcases List.mem_append.mp he with he | he
    · exact Nat.lt_succ_of_lt (f.below e he)
    · obtain rfl := List.mem_singleton.mp he
      exact Nat.lt_succ_self _

/-- `os.open` with `O_CREAT | O_EXCL`: the new inode, or `FileExistsError`. -/
def openExcl (f : Folder κ β) (k : κ) (b : β) : Option Nat × Folder κ β :=
  if hk : f.ino k = none then (some f.next, f.create k b hk) else (none, f)

/-- Put a content into an inode. -/
def put (f : Folder κ β) (i : Nat) (b : β) : Folder κ β :=
  { f with content := Function.update f.content i b }

/-- `os.open` with `O_CREAT | O_TRUNC`. -/
def openTrunc (f : Folder κ β) (k : κ) (b : β) : Nat × Folder κ β :=
  if hk : f.ino k = none then (f.next, f.create k b hk)
  else ((f.ino k).get (Option.isSome_iff_ne_none.mpr hk),
    f.put ((f.ino k).get (Option.isSome_iff_ne_none.mpr hk)) b)

/-! ## Removing and replacing -/

/-- `os.unlink`; a name that is not there is left alone. -/
def unlink (f : Folder κ β) (k : κ) : Folder κ β where
  entries := f.entries.filter (·.1 ≠ k)
  content := f.content
  born := f.born
  next := f.next
  keys := f.keys.sublist (List.filter_sublist.map _)
  inodes := f.inodes.sublist (List.filter_sublist.map _)
  below := fun e he => f.below e (List.mem_filter.mp he).1

/-- Give the inode of one name to another, in the place the other had if it had one. -/
def moveTo (f : Folder κ β) (k l : κ) (i : Nat) (hi : f.ino k = some i) : Folder κ β where
  entries :=
    let rest := (f.unlink k).entries
    if (f.unlink k).ino l = none then rest ++ [(l, i)]
    else rest.map fun e => if e.1 = l then (l, i) else e
  content := f.content
  born := f.born
  next := f.next
  keys := by
    simp only
    split
    · rename_i hl
      exact nodup_map_snoc (f.unlink k).keys (ino_eq_none.mp hl)
    · have hsame : ((f.unlink k).entries.map fun e => if e.1 = l then (l, i) else e).map
          Prod.fst = (f.unlink k).entries.map Prod.fst := by
        rw [List.map_map]
        refine List.map_congr_left fun e _ => ?_
        by_cases he : e.1 = l <;> simp [he]
      rw [hsame]
      exact (f.unlink k).keys
  inodes := by
    have hfree : i ∉ (f.unlink k).entries.map Prod.snd := by
      intro h
      obtain ⟨e, he, hei⟩ := List.mem_map.mp h
      obtain ⟨hm, hne⟩ := List.mem_filter.mp he
      have := List.inj_on_of_nodup_map f.inodes hm (ino_eq_some.mp hi) hei
      simp [this] at hne
    simp only
    split
    · exact nodup_map_snoc (f.unlink k).inodes hfree
    · rw [List.map_map]
      refine List.Nodup.map_on ?_ (List.Nodup.of_map _ (f.unlink k).keys)
      intro a ha b hb hab
      by_cases hal : a.1 = l <;> by_cases hbl : b.1 = l
      · exact List.inj_on_of_nodup_map (f.unlink k).keys ha hb (hal.trans hbl.symm)
      · have : i = b.2 := by simpa [hal, hbl] using hab
        exact absurd (List.mem_map.mpr ⟨b, hb, this.symm⟩) hfree
      · have : a.2 = i := by simpa [hal, hbl] using hab
        exact absurd (List.mem_map.mpr ⟨a, ha, this⟩) hfree
      · have : a.2 = b.2 := by simpa [hal, hbl] using hab
        exact List.inj_on_of_nodup_map (f.unlink k).inodes ha hb this
  below := by
    intro e he
    simp only at he
    split at he
    · rcases List.mem_append.mp he with he | he
      · exact (f.unlink k).below e he
      · obtain rfl := List.mem_singleton.mp he
        exact ino_lt hi
    · obtain ⟨e', he', rfl⟩ := List.mem_map.mp he
      split
      · exact ino_lt hi
      · exact (f.unlink k).below e' he'

/-- `os.replace`: `none` when the source is not there. -/
def replace (f : Folder κ β) (k l : κ) : Option (Folder κ β) :=
  match hi : f.ino k with
  | none => none
  | some i => some (f.moveTo k l i hi)

/-- A name that is free is created. -/
theorem openExcl_of_none {f : Folder κ β} {k : κ} (hk : f.ino k = none) (b : β) :
    f.openExcl k b = (some f.next, f.create k b hk) := dif_pos hk

/-- A name that is taken is not opened exclusively. -/
theorem openExcl_of_ne {f : Folder κ β} {k : κ} (hk : f.ino k ≠ none) (b : β) :
    f.openExcl k b = (none, f) := dif_neg hk

/-- A name that is free is created. -/
theorem openTrunc_of_none {f : Folder κ β} {k : κ} (hk : f.ino k = none) (b : β) :
    f.openTrunc k b = (f.next, f.create k b hk) := dif_pos hk

/-- A name that is taken has its content replaced. -/
theorem openTrunc_of_some {f : Folder κ β} {k : κ} {i : Nat} (hk : f.ino k = some i) (b : β) :
    f.openTrunc k b = (i, f.put i b) := by
  have hne : ¬f.ino k = none := by
    rw [hk]
    exact Option.some_ne_none i
  rw [openTrunc, dif_neg hne]
  simp only [hk, Option.get_some]

/-! ## What each call does to a name -/

/-- An empty folder has no names. -/
@[simp] theorem ino_empty (k l : κ) (b : β) : (empty k b).ino l = none := rfl

/-- Writing to an inode keeps the names. -/
@[simp] theorem ino_put (f : Folder κ β) (i : Nat) (b : β) (k : κ) : (f.put i b).ino k = f.ino k :=
  rfl

omit [DecidableEq κ] in
/-- Writing to an inode replaces its content. -/
@[simp] theorem content_put (f : Folder κ β) (i : Nat) (b : β) :
    (f.put i b).content = Function.update f.content i b := rfl

omit [DecidableEq κ] in
/-- Writing to an inode keeps its first name. -/
@[simp] theorem born_put (f : Folder κ β) (i : Nat) (b : β) : (f.put i b).born = f.born := rfl

omit [DecidableEq κ] in
/-- Writing to an inode makes no other. -/
@[simp] theorem next_put (f : Folder κ β) (i : Nat) (b : β) : (f.put i b).next = f.next := rfl

/-- A created inode remembers its name. -/
@[simp] theorem born_create_next (f : Folder κ β) {k : κ} (b : β) (hk : f.ino k = none) :
    (f.create k b hk).born f.next = k := Function.update_self ..

/-- A created inode has the content given. -/
@[simp] theorem content_create_next (f : Folder κ β) {k : κ} (b : β) (hk : f.ino k = none) :
    (f.create k b hk).content f.next = b := Function.update_self ..

/-- The names after a creation. -/
theorem ino_create (f : Folder κ β) {k : κ} (b : β) (hk : f.ino k = none) (l : κ) :
    (f.create k b hk).ino l = if l = k then some f.next else f.ino l := by
  ext i
  rw [ino_eq_some]
  show (l, i) ∈ f.entries ++ [(k, f.next)] ↔ _
  rw [List.mem_append, List.mem_singleton, Prod.mk.injEq, ← ino_eq_some]
  by_cases hl : l = k
  · subst hl
    simp [hk, eq_comm]
  · simp [hl]

/-- The names after a removal. -/
theorem ino_unlink (f : Folder κ β) (k l : κ) :
    (f.unlink k).ino l = if l = k then none else f.ino l := by
  ext i
  rw [ino_eq_some]
  show (l, i) ∈ f.entries.filter (·.1 ≠ k) ↔ _
  rw [List.mem_filter, ← ino_eq_some]
  by_cases hl : l = k <;> simp [hl]

/-- The names after a move. -/
theorem ino_moveTo (f : Folder κ β) {k l : κ} {i : Nat} (hi : f.ino k = some i) (hne : k ≠ l)
    (m : κ) :
    (f.moveTo k l i hi).ino m = if m = l then some i else if m = k then none else f.ino m := by
  ext j
  rw [ino_eq_some]
  show (m, j) ∈ (if (f.unlink k).ino l = none then (f.unlink k).entries ++ [(l, i)]
    else (f.unlink k).entries.map fun e => if e.1 = l then (l, i) else e) ↔ _
  have hrest : (m, j) ∈ (f.unlink k).entries ↔ m ≠ k ∧ f.ino m = some j := by
    rw [← ino_eq_some, ino_unlink]
    by_cases hm : m = k <;> simp [hm]
  split
  · rename_i hl
    rw [List.mem_append, List.mem_singleton, Prod.mk.injEq, hrest]
    by_cases hm : m = l
    · subst hm
      rw [ino_unlink, if_neg hne.symm] at hl
      simp [hl, eq_comm]
    · by_cases hk : m = k <;> simp [hm, hk, hne]
  · rename_i hl
    by_cases hm : m = l
    · subst hm
      obtain ⟨i', hi'⟩ := Option.ne_none_iff_exists'.mp hl
      constructor
      · intro h
        obtain ⟨e, -, he⟩ := List.mem_map.mp h
        split at he
        · simp [(Prod.mk.inj he).2]
        · rename_i hem
          exact absurd (congrArg Prod.fst he) hem
      · intro h
        refine List.mem_map.mpr ⟨(m, i'), ino_eq_some.mp hi', ?_⟩
        simpa using h
    · rw [if_neg hm]
      constructor
      · intro h
        obtain ⟨e, hmem, he⟩ := List.mem_map.mp h
        split at he
        · exact absurd (congrArg Prod.fst he).symm hm
        · subst he
          obtain ⟨hk, hj⟩ := hrest.mp hmem
          simpa [hk] using hj
      · intro h
        by_cases hk : m = k
        · simp [hk] at h
        · rw [if_neg hk] at h
          exact List.mem_map.mpr ⟨(m, j), hrest.mpr ⟨hk, h⟩, by simp [hm]⟩

/-! ## What each call does to what is read -/

/-- What cannot be read is not entered. -/
theorem read_eq_none {f : Folder κ β} {k : κ} : f.read k = none ↔ f.ino k = none :=
  Option.map_eq_none_iff

/-- What is read after a creation. -/
theorem read_create (f : Folder κ β) {k : κ} (b : β) (hk : f.ino k = none) (l : κ) :
    (f.create k b hk).read l = if l = k then some b else f.read l := by
  unfold read
  rw [ino_create]
  show Option.map (Function.update f.content f.next b) _ = _
  by_cases hl : l = k
  · simp [hl]
  · rw [if_neg hl, if_neg hl]
    refine Option.map_congr fun i hi => Function.update_of_ne ?_ _ _
    exact Nat.ne_of_lt (ino_lt hi)

/-- What is read after a write. -/
theorem read_put (f : Folder κ β) (i : Nat) (b : β) (l : κ) :
    (f.put i b).read l = if f.ino l = some i then some b else f.read l := by
  unfold read
  rw [ino_put, content_put]
  by_cases hl : f.ino l = some i
  · simp [hl]
  · rw [if_neg hl]
    refine Option.map_congr fun j hj => Function.update_of_ne ?_ _ _
    rintro rfl
    exact hl hj

/-- What is read after a removal. -/
theorem read_unlink (f : Folder κ β) (k l : κ) :
    (f.unlink k).read l = if l = k then none else f.read l := by
  unfold read
  rw [ino_unlink]
  by_cases hl : l = k
  · simp [hl]
  · rw [if_neg hl, if_neg hl]
    rfl

/-- The names that a removal leaves. -/
theorem names_unlink (f : Folder κ β) (k : κ) : (f.unlink k).names = f.names.filter (· ≠ k) := by
  unfold names unlink
  rw [List.filter_map]
  rfl

/-- What is read after several removals. -/
theorem read_foldl_unlink (f : Folder κ β) (ks : List κ) (l : κ) :
    (ks.foldl unlink f).read l = if l ∈ ks then none else f.read l := by
  induction ks generalizing f with
  | nil => simp
  | cons k ks ih =>
    rw [List.foldl_cons, ih, read_unlink]
    by_cases hl : l = k <;> by_cases hks : l ∈ ks <;> simp [hl, hks]

/-- The names that several removals leave. -/
theorem names_foldl_unlink (f : Folder κ β) (ks : List κ) :
    (ks.foldl unlink f).names = f.names.filter (· ∉ ks) := by
  induction ks generalizing f with
  | nil => simp
  | cons k ks ih =>
    rw [List.foldl_cons, ih, names_unlink, List.filter_filter]
    refine List.filter_congr fun l _ => ?_
    simp [Bool.and_comm]

/-- Removing what is not there changes nothing. -/
theorem unlink_of_none {f : Folder κ β} {k : κ} (h : f.ino k = none) : f.unlink k = f := by
  have he : f.entries.filter (·.1 ≠ k) = f.entries := by
    rw [List.filter_eq_self]
    intro e he
    have hne : e.1 ≠ k := fun hk => ino_eq_none.mp h (List.mem_map.mpr ⟨e, he, hk⟩)
    simpa using hne
  unfold unlink
  congr

/-- What is read after a move. -/
theorem read_moveTo (f : Folder κ β) {k l : κ} {i : Nat} (hi : f.ino k = some i) (hne : k ≠ l)
    (m : κ) : (f.moveTo k l i hi).read m =
      if m = l then some (f.content i) else if m = k then none else f.read m := by
  unfold read
  rw [ino_moveTo f hi hne]
  show Option.map f.content _ = _
  by_cases hl : m = l
  · simp [hl]
  · by_cases hk : m = k
    · subst hk
      simp [hl]
    · simp [hl, hk]

/-- What is not there cannot be moved. -/
theorem replace_of_none {f : Folder κ β} {k l : κ} (h : f.ino k = none) : f.replace k l = none := by
  unfold replace
  split
  · rfl
  · rename_i i hi
    rw [h] at hi
    cases hi

/-- What is there is moved. -/
theorem replace_of_some {f : Folder κ β} {k l : κ} {i : Nat} (h : f.ino k = some i) :
    f.replace k l = some (f.moveTo k l i h) := by
  unfold replace
  split
  · rename_i hn
    rw [h] at hn
    cases hn
  · rename_i j hj
    obtain rfl : i = j := Option.some.inj (h.symm.trans hj)
    rfl

end Folder
