import Cassetta.Guarantee.Conflicts
import Cassetta.Guarantee.ListPick
import Cassetta.Storage.Objects

/-!
# The object store

Seen from outside, the data directory is a cabinet: it files bytes under keys, with the moment
they came, and the directories it makes on the way are its drawers. Every call answers as the
cabinet does, and so what a key gives back is decided by what has been done under it.
-/

namespace Cassetta

open FileTree PathMap

variable {b : Backend} {o : Objects} {key : String}

/-- What a key gives back, and since when. -/
abbrev ObjectCabinet := Cabinet String (Bytes × Nat)

/-- Why the cabinet does not take what is put at a location. -/
inductive PutRefused (c : ObjectCabinet) (loc : List String) : Errno → Prop where
  | drawer : loc ∈ c.drawers → PutRefused c loc .isDir
  | parent {v : Bytes × Nat} : c.held loc.dropLast = some v → PutRefused c loc .exist
  | further {q : List String} {v : Bytes × Nat} :
    q ∈ Cabinet.Above loc.dropLast → c.held q = some v → PutRefused c loc .notDir

/-- What the cabinet answers for a key: by what it holds, or that there is nothing. -/
def foundIn (c : ObjectCabinet) (key : String) (use : Bytes × Nat → ObjectAnswer) :
    ObjectAnswer :=
  match c.held (below key) with
  | some v => use v
  | none => .raised (.fileNotFound key)

/-- The keys the cabinet holds something under that begin with a string: sorted, each once. -/
def ListsKeys (c : ObjectCabinet) (pre : String) (names : List String) : Prop :=
  names.Pairwise (· < ·) ∧ ∀ n, n ∈ names ↔
    ∃ loc v, c.held loc = some v ∧ listedPath loc = n ∧ startsWith n pre = true

/-- The cabinet's answer to a call, and the cabinet after it. -/
def ObjectCall.Answered (c : ObjectCabinet) :
    ObjectCall → ObjectAnswer → ObjectCabinet → Prop
  | .put now key data, a, c' =>
    (c.Open (below key) ∧ a = .done ∧ c' = c.file (below key) (data, now)) ∨
      ∃ e, PutRefused c (below key) e ∧ a = .raised (.osError e) ∧ c' = c
  | .get key, a, c' => a = foundIn c key (fun v => .data v.1) ∧ c' = c
  | .delete key, a, c' => a = foundIn c key (fun _ => .done) ∧ c' = c.take (below key)
  | .list pre, a, c' => (∃ names, a = .keys names ∧ ListsKeys c pre names) ∧ c' = c
  | .exists_ key, a, c' => a = .held (c.held (below key)).isSome ∧ c' = c
  | .getCreationTime key, a, c' => a = foundIn c key (fun v => .moment v.2) ∧ c' = c
  | .getSize key, a, c' => a = foundIn c key (fun v => .size v.1.length) ∧ c' = c

/-- A run of calls that is answered as the cabinet answers. -/
inductive CallsAnswered :
    ObjectCabinet → List ObjectCall → List ObjectAnswer → ObjectCabinet → Prop where
  | nil (c : ObjectCabinet) : CallsAnswered c [] [] c
  | cons {c c' c'' : ObjectCabinet} {call : ObjectCall} {calls : List ObjectCall}
      {a : ObjectAnswer} {as : List ObjectAnswer} : call.Answered c a c' →
      CallsAnswered c' calls as c'' → CallsAnswered c (call :: calls) (a :: as) c''

namespace Objects

/-- The data directory as a cabinet. -/
def cabinet (b : Backend) (o : Objects) : ObjectCabinet where
  held loc := (o.tree.fileAt (b.dataLoc ++ loc)).map fun c =>
    (b.bytesOf c, o.mtime (b.dataLoc ++ loc))
  drawers := {loc | o.tree.get (b.dataLoc ++ loc) = some .dir}

/-- No file is in the way to the data directory, and what is in it is properly named. -/
structure Kept (b : Backend) (o : Objects) : Prop where
  way : ∀ a, a <+: b.dataLoc → o.tree.fileAt a = none
  named : Named o.tree

private theorem held_eq_none_iff {loc : List String} :
    (o.cabinet b).held loc = none ↔ o.tree.fileAt (b.dataLoc ++ loc) = none := by
  simp [cabinet]

private theorem held_eq_some_iff {loc : List String} {v : Bytes × Nat} :
    (o.cabinet b).held loc = some v ↔ ∃ c, o.tree.get (b.dataLoc ++ loc) = some (.file c) ∧
      (b.bytesOf c, o.mtime (b.dataLoc ++ loc)) = v := by
  simp [cabinet, Option.map_eq_some_iff, Tree.fileAt_eq_some_iff]

private theorem mem_drawers {loc : List String} :
    loc ∈ (o.cabinet b).drawers ↔ o.tree.get (b.dataLoc ++ loc) = some .dir := Iff.rfl

/-- What is filed in a tree lies in directories. -/
theorem sound (b : Backend) (o : Objects) : (o.cabinet b).Sound where
  out loc v hv q hq := by
    obtain ⟨c, hc, -⟩ := held_eq_some_iff.mp hv
    refine Tree.get_of_prefix ((List.prefix_append_right_inj _).mpr hq.1) (fun he => ?_) hc
    exact hq.2 (List.append_cancel_left he)
  bare loc hloc := by
    rw [held_eq_none_iff, Tree.fileAt, mem_drawers.mp hloc]

/-- A file behind a key is what the cabinet holds there. -/
theorem readFile_key (hk : ObjectKey key) :
    o.tree.readFile (b.resolve key) = o.tree.fileAt (b.dataLoc ++ below key) := by
  rw [hk.resolve, Tree.readFile_spell]

/-! ## Putting -/

private theorem spell_dropLast (loc : List String) : (spell loc).dropLast = spell loc.dropLast := by
  simp [spell, List.map_dropLast]

private theorem above_dropLast {loc q : List String} (hne : loc ≠ []) (hq : q <+: loc.dropLast) :
    q ∈ Cabinet.Above loc :=
  ⟨hq.trans loc.dropLast_prefix, Tree.ne_of_prefix_dropLast hne hq⟩

private theorem prefix_dropLast {loc q : List String} (hq : q ∈ Cabinet.Above loc) :
    q <+: loc.dropLast := by
  obtain ⟨⟨rest, rfl⟩, hne⟩ := hq
  have hrest : rest ≠ [] := by
    rintro rfl
    simp at hne
  rw [List.dropLast_append_of_ne_nil hrest]
  exact List.prefix_append _ _

private theorem parent_spell {loc : List String} (hne : loc ≠ []) :
    (spell (b.dataLoc ++ loc)).dropLast = spell (b.dataLoc ++ loc.dropLast) := by
  rw [spell_dropLast, List.dropLast_append_of_ne_nil hne]

/-- Where the cabinet is open a way can be made. -/
theorem Kept.passable (h : Kept b o) {loc : List String} (hne : loc ≠ [])
    (hclear : ∀ q ∈ Cabinet.Above loc, (o.cabinet b).held q = none) :
    o.tree.Passable (spell (b.dataLoc ++ loc)).dropLast := by
  rw [parent_spell hne]
  intro pre hpre c hc
  obtain ⟨a, rfl, ha⟩ := eq_spell_of_prefix hpre
  rw [normalize_spell, ← Tree.fileAt_eq_some_iff] at hc
  rcases List.prefix_or_prefix_of_prefix ha (List.prefix_append _ _) with hup | ⟨q, rfl⟩
  · rw [h.way a hup] at hc
    cases hc
  · rw [List.prefix_append_right_inj] at ha
    rw [held_eq_none_iff.mp (hclear q (above_dropLast hne ha))] at hc
    cases hc

/-- What a tree has after directories were made for a file and it was written. -/
theorem Kept.drawers_of_write (h : Kept b o) {t₁ t₂ : DataTree} {loc : List String} {c : Blob}
    (hne : loc ≠ [])
    (ho : (o.cabinet b).Open loc)
    (hm : o.tree.mkdirParents (spell (b.dataLoc ++ loc)).dropLast = (.ok (), t₁))
    (hw : t₁.write (spell (b.dataLoc ++ loc)) c = .ok t₂) (q : List String) :
    t₂.get (b.dataLoc ++ q) = some .dir ↔
      o.tree.get (b.dataLoc ++ q) = some .dir ∨ q ∈ Cabinet.Above loc := by
  have hg : Tree.Grown (spell (b.dataLoc ++ loc)).dropLast o.tree t₁ := by
    simpa [hm] using Tree.grown_mkdirParents o.tree (spell (b.dataLoc ++ loc)).dropLast
  have hpath := parent_spell (b := b) hne
  obtain ⟨-, -, -, hget⟩ := Tree.write_ok hw
  rw [normalize_spell] at hget
  by_cases hq : q = loc
  · subst hq
    rw [hget, if_pos rfl]
    exact iff_of_false (by simp) fun h => h.elim ho.free fun habove => habove.2 rfl
  · rw [hget, if_neg fun he => hq (List.append_cancel_left he)]
    constructor
    · intro hdir
      rcases hg (b.dataLoc ++ q) with he | ⟨-, -, pre, hpre, he⟩
      · exact .inl (he ▸ hdir)
      · obtain ⟨y, rfl, hy⟩ := eq_spell_of_prefix (hpath ▸ hpre)
        rw [normalize_spell] at he
        rw [← he, List.prefix_append_right_inj] at hy
        exact .inr (above_dropLast hne hy)
    · rintro (hdir | habove)
      · exact hg.get_some hdir
      · have hpre : spell (b.dataLoc ++ q) <+: (spell (b.dataLoc ++ loc)).dropLast := by
          rw [hpath]
          exact ((List.prefix_append_right_inj _).mpr (prefix_dropLast habove)).map _
        cases hn : o.tree.get (b.dataLoc ++ q) with
        | none =>
          have hmade := Tree.made_of_passable hpre ((h.passable hne ho.clear).mono hpre)
            (by rwa [normalize_spell])
          rwa [hm, normalize_spell] at hmade
        | some n =>
          cases n with
          | dir => exact hg.get_some hn
          | file c' =>
            have hnone := ho.clear q habove
            rw [held_eq_none_iff, Tree.fileAt_eq_some_iff.mpr hn] at hnone
            cases hnone

/-- Where the cabinet is not open, a `put` fails and leaves everything as it was. -/
theorem put_refused (hk : ObjectKey key) (now : Nat) (data : Bytes)
    (ho : ¬(o.cabinet b).Open (below key)) :
    ∃ e, PutRefused (o.cabinet b) (below key) e ∧
      o.put b now key data = (.raised (.osError e), o) := by
  have hpath := parent_spell (b := b) hk.somewhere
  by_cases hclear : ∀ q ∈ Cabinet.Above (below key), (o.cabinet b).held q = none
  · have hdrawer : below key ∈ (o.cabinet b).drawers := not_not.mp fun hd => ho ⟨hclear, hd⟩
    refine ⟨.isDir, .drawer hdrawer, ?_⟩
    have hparent := Tree.isDir_spell.mpr (Tree.get_dropLast hdrawer)
    rw [List.dropLast_append_of_ne_nil hk.somewhere, ← hpath] at hparent
    have hwrite : o.tree.write (spell (b.dataLoc ++ below key)) (.raw data) = .error .isDir := by
      rw [Tree.write, Tree.resolve_spell hdrawer]
      simp only [mem_drawers.mp hdrawer]
    unfold put
    simp only [hk.resolve, Tree.mkdirParents_dir hparent, hwrite]
  · simp only [not_forall] at hclear
    obtain ⟨q, hq, hheld⟩ := hclear
    obtain ⟨v, hv⟩ := Option.ne_none_iff_exists'.mp hheld
    obtain ⟨c, hc, -⟩ := held_eq_some_iff.mp hv
    by_cases hlast : q = (below key).dropLast
    · subst hlast
      refine ⟨.exist, .parent hv, ?_⟩
      unfold put
      simp only [hk.resolve, hpath, Tree.mkdirParents_file hc]
    · obtain ⟨rest, hrest⟩ := prefix_dropLast hq
      have hne : spell rest ≠ [] := by
        intro he
        obtain rfl := List.map_eq_nil_iff.mp he
        exact hlast (by simpa using hrest)
      refine ⟨.notDir, .further ⟨⟨rest, hrest⟩, hlast⟩ hv, ?_⟩
      have hway := Tree.mkdirParents_past_file hc hne
      rw [← spell_append, List.append_assoc, hrest] at hway
      unfold put
      simp only [hk.resolve, hpath, hway]

/-! ## Taking out and looking -/

/-- A call that looks for a file answers by what the cabinet holds. -/
theorem withFile_key (hk : ObjectKey key) {use : Blob → ObjectAnswer}
    {use' : Bytes × Nat → ObjectAnswer}
    (huse : ∀ c, use c = use' (b.bytesOf c, o.mtime (b.dataLoc ++ below key))) :
    o.withFile b key use = foundIn (o.cabinet b) key use' := by
  unfold withFile foundIn
  rw [readFile_key hk]
  simp only [cabinet]
  cases o.tree.fileAt (b.dataLoc ++ below key) with
  | none => rfl
  | some c => exact huse c

private theorem get_eq_data_iff (hk : ObjectKey key) {data : Bytes} :
    o.get b key = .data data ↔ ∃ t, (o.cabinet b).held (below key) = some (data, t) := by
  have hget : o.get b key = foundIn (o.cabinet b) key fun v => .data v.1 :=
    withFile_key hk fun _ => rfl
  rw [hget, foundIn]
  cases (o.cabinet b).held (below key) with
  | none => simp
  | some v => simp [Prod.ext_iff]

/-- A delete takes the object from the cabinet. -/
theorem Kept.delete (h : Kept b o) (hk : ObjectKey key) :
    ∃ o', o.delete b key = (foundIn (o.cabinet b) key fun _ => .done, o') ∧ Kept b o' ∧
      o'.cabinet b = (o.cabinet b).take (below key) := by
  unfold Objects.delete foundIn
  rw [readFile_key hk, hk.resolve, normalize_spell]
  cases hc : o.tree.fileAt (b.dataLoc ++ below key) with
  | none =>
    have hnone : (o.cabinet b).held (below key) = none := held_eq_none_iff.mpr hc
    refine ⟨o, by simp only [hnone], h, ?_⟩
    ext q v
    · by_cases hq : q = below key <;> simp [hq, hnone]
    · rfl
  | some c =>
    have hget := Tree.get_remove_file (Tree.fileAt_eq_some_iff.mp hc)
    have hfile := Tree.fileAt_remove_file (Tree.fileAt_eq_some_iff.mp hc)
    refine ⟨{ o with tree := o.tree.remove (b.dataLoc ++ below key) }, ?_,
      ⟨fun a ha => ?_, fun q n hq => ?_⟩, ?_⟩
    · simp only [cabinet, hc, Option.map_some]
    · have hfree : a ≠ b.dataLoc ++ below key := by
        rintro rfl
        exact hk.somewhere (by simpa using ha.length_le)
      rw [hfile, Function.update_of_ne hfree, h.way a ha]
    · rw [hget] at hq
      split at hq
      · cases hq
      · exact h.named q n hq
    · ext q v
      · by_cases hq : q = below key
        · simp [cabinet, hq, hfile]
        · have hapart : b.dataLoc ++ q ≠ b.dataLoc ++ below key := fun he =>
            hq (List.append_cancel_left he)
          simp [cabinet, hq, hfile, hapart]
      · by_cases hq : q = below key
        · simp [cabinet, hq, hget, Tree.fileAt_eq_some_iff.mp hc]
        · simp [cabinet, hget, hq]

/-! ## Listing -/

private theorem relPosix_data {loc : List String} (hne : loc ≠ []) :
    b.relPosix (spell (b.dataLoc ++ loc)) = listedPath loc := by
  obtain ⟨k, rest, rfl⟩ := List.exists_cons_of_ne_nil hne
  unfold Backend.relPosix
  rw [b.drop_dataRoot]
  simp [spell, Function.comp_def, listedPath]

private theorem startsWith_or (n pre : String) :
    ¬(pre ≠ "" ∧ ¬startsWith n pre) ↔ startsWith n pre := by
  constructor
  · intro h
    by_cases hpre : pre = ""
    · subst hpre
      simp [startsWith]
    · by_contra hs
      exact h ⟨hpre, hs⟩
  · exact fun h hs => hs.2 h

/-- The files below the data directory are shown by their place. -/
theorem Kept.listedKey_iff (h : Kept b o) {pre n : String} {e : List String × Node Blob}
    (he : e ∈ o.tree.entries) : listedKey b pre e = some n ↔
      ∃ loc c, e = (b.dataLoc ++ loc, .file c) ∧ loc ≠ [] ∧ listedPath loc = n ∧
        startsWith n pre = true := by
  have hroot : normalize b.dataRoot = b.dataLoc := by rw [b.dataRoot_eq, normalize_spell]
  unfold listedKey
  rw [hroot]
  constructor
  · intro hs
    obtain ⟨q, node⟩ := e
    cases node with
    | dir => cases hs
    | file c =>
      simp only at hs
      split at hs
      · rename_i hp
        obtain ⟨loc, rfl⟩ := hp
        have hne : loc ≠ [] := by
          rintro rfl
          rw [List.append_nil] at he
          have hfile := (Tree.get_eq_some_iff (by simp [Backend.dataLoc])).mpr he
          rw [← Tree.fileAt_eq_some_iff, h.way _ (List.prefix_refl _)] at hfile
          cases hfile
        rw [relPosix_data hne] at hs
        split at hs
        · cases hs
        · rename_i hstarts
          obtain rfl := Option.some.inj hs
          exact ⟨loc, c, rfl, hne, rfl, (startsWith_or _ _).mp hstarts⟩
      · cases hs
  · rintro ⟨loc, c, rfl, hne, rfl, hstarts⟩
    simp only [List.prefix_append, if_true, relPosix_data hne]
    rw [if_neg ((startsWith_or _ _).mpr hstarts)]

private theorem Kept.nodup_listed (h : Kept b o) (pre : String) :
    (o.tree.entries.filterMap (listedKey b pre)).Nodup := by
  rw [List.Nodup, List.pairwise_filterMap]
  refine (List.pairwise_map.mp o.tree.nodup).imp_of_mem ?_
  intro e e' he he' hapart n hn n' hn' heq
  obtain ⟨loc, c, rfl, hne, hpath, -⟩ := (h.listedKey_iff he).mp hn
  obtain ⟨loc', c', rfl, hne', hpath', -⟩ := (h.listedKey_iff he').mp hn'
  have hnames : ∀ {x : List String} {n : Node Blob}, (b.dataLoc ++ x, n) ∈ o.tree.entries →
      x ≠ [] → ∀ k ∈ x, FileName k := fun hm hx k hk =>
    h.named _ _ ((Tree.get_eq_some_iff (by simp [hx])).mpr hm) k (List.mem_append_right _ hk)
  apply hapart
  rw [listedPath_inj hne hne' (hnames he hne) (hnames he' hne')
    (hpath.trans (heq.trans hpath'.symm))]

private theorem Kept.ne_nil_of_held (h : Kept b o) {loc : List String} {v : Bytes × Nat}
    (hv : (o.cabinet b).held loc = some v) : loc ≠ [] := by
  rintro rfl
  obtain ⟨c, hc, -⟩ := held_eq_some_iff.mp hv
  rw [List.append_nil, ← Tree.fileAt_eq_some_iff, h.way _ (List.prefix_refl _)] at hc
  cases hc

/-- A listing is sorted, has each key once, and shows those that begin with the prefix. -/
theorem Kept.list (h : Kept b o) (pre : String) :
    ∃ names, o.list b pre = .keys names ∧ ListsKeys (o.cabinet b) pre names := by
  unfold Objects.list
  by_cases hdir : o.tree.isDir b.dataRoot = true
  · rw [if_neg (not_not.mpr hdir)]
    refine ⟨_, rfl, ?_, fun n => ?_⟩
    · have hsorted := List.pairwise_insertionSort (· ≤ ·)
        (o.tree.entries.filterMap (listedKey b pre))
      have hdistinct := (List.perm_insertionSort (· ≤ ·) _).nodup_iff.mpr (h.nodup_listed pre)
      exact (hsorted.and hdistinct).imp fun hle => lt_of_le_of_ne hle.1 hle.2
    · rw [List.mem_insertionSort, List.mem_filterMap]
      constructor
      · rintro ⟨e, he, hs⟩
        obtain ⟨loc, c, rfl, hne, hn, hstarts⟩ := (h.listedKey_iff he).mp hs
        have hget := (Tree.get_eq_some_iff (by simp [hne])).mpr he
        exact ⟨loc, _, held_eq_some_iff.mpr ⟨c, hget, rfl⟩, hn, hstarts⟩
      · rintro ⟨loc, v, hv, hn, hstarts⟩
        have hne := h.ne_nil_of_held hv
        obtain ⟨c, hc, -⟩ := held_eq_some_iff.mp hv
        have he := (Tree.get_eq_some_iff (by simp [hne])).mp hc
        exact ⟨_, he, (h.listedKey_iff he).mpr ⟨loc, c, rfl, hne, hn, hstarts⟩⟩
  · rw [if_pos hdir]
    refine ⟨[], rfl, .nil, fun n => iff_of_false (by simp) ?_⟩
    rintro ⟨loc, v, hv, -, -⟩
    have hne := h.ne_nil_of_held hv
    obtain ⟨c, hc, -⟩ := held_eq_some_iff.mp hv
    refine hdir (Tree.isDir_spell.mpr (Tree.get_of_prefix (List.prefix_append _ loc) ?_ hc))
    simpa using hne

private theorem proper_spelled {loc : List String} (hnames : ∀ k ∈ loc, FileName k)
    (hroot : ∀ k ∈ b.root, FileName k) : Proper (spell (b.dataLoc ++ loc)) := by
  rw [spell_append, ← b.dataRoot_eq]
  exact (Backend.proper_dataRoot hroot).append (proper_spell hnames)

variable (hroot : ∀ k ∈ b.root, FileName k)
include hroot

/-- Where the cabinet is open a `put` files the bytes. -/
theorem Kept.put_open (h : Kept b o) (hk : ObjectKey key) (now : Nat) (data : Bytes)
    (ho : (o.cabinet b).Open (below key)) :
    ∃ o', o.put b now key data = (.done, o') ∧ Kept b o' ∧
      o'.cabinet b = (o.cabinet b).file (below key) (data, now) := by
  have hne := hk.somewhere
  have hx : b.dataLoc ++ below key ≠ [] := by simp [hne]
  have hnd : o.tree.get (normalize (spell (b.dataLoc ++ below key))) ≠ some .dir := by
    rw [normalize_spell]
    exact ho.free
  obtain ⟨t₁, t₂, hm, hw⟩ := Tree.mkdirParents_write_iff (c := Blob.raw data) |>.mpr
    ⟨h.passable hne ho.clear, Tree.opens_spell hx, hnd⟩
  have hg : Tree.Grown (spell (b.dataLoc ++ below key)).dropLast o.tree t₁ := by
    simpa [hm] using Tree.grown_mkdirParents o.tree (spell (b.dataLoc ++ below key)).dropLast
  have hfile := Tree.fileAt_write hw
  rw [normalize_spell, hg.fileAt_eq] at hfile
  have hproper := proper_spelled hk.names hroot
  refine ⟨⟨t₂, Function.update o.mtime (b.dataLoc ++ below key) now⟩, ?_, ⟨fun a ha => ?_, ?_⟩, ?_⟩
  · unfold put
    simp only [hk.resolve, hm, hw, normalize_spell]
  · have hfree : a ≠ b.dataLoc ++ below key := by
      rintro rfl
      exact hne (by simpa using ha.length_le)
    rw [hfile, Function.update_of_ne hfree, h.way a ha]
  · exact (h.named.grown (hproper.of_sublist fun s => List.mem_of_mem_dropLast) hg).write
      hproper hw
  · ext q v
    · by_cases hq : q = below key
      · simp [cabinet, hq, hfile, Backend.bytesOf]
      · have hapart : b.dataLoc ++ q ≠ b.dataLoc ++ below key := fun he =>
          hq (List.append_cancel_left he)
        simp [cabinet, hq, hfile, hapart]
    · exact h.drawers_of_write hne ho hm hw q

private theorem Kept.put_done_iff (h : Kept b o) (hk : ObjectKey key) {now : Nat} {data : Bytes} :
    (o.put b now key data).1 = .done ↔ (o.cabinet b).Open (below key) := by
  constructor
  · intro hdone
    by_contra ho
    obtain ⟨e, -, hput⟩ := put_refused hk now data ho
    rw [hput] at hdone
    cases hdone
  · intro ho
    obtain ⟨o', hput, -⟩ := h.put_open hroot hk now data ho
    rw [hput]

/-- Every call is answered as the cabinet answers it, and leaves the directory in order. -/
theorem Kept.answered (h : Kept b o) {call : ObjectCall} (hplain : call.Plain) :
    call.Answered (o.cabinet b) (o.answer b call).1 ((o.step b call).cabinet b) ∧
      Kept b (o.step b call) := by
  unfold Objects.step
  cases call with
  | put now key data =>
    by_cases ho : (o.cabinet b).Open (below key)
    · obtain ⟨o', hput, hkept, hfile⟩ := h.put_open hroot hplain now data ho
      simp only [answer, hput]
      exact ⟨.inl ⟨ho, rfl, hfile⟩, hkept⟩
    · obtain ⟨e, hrefused, hput⟩ := put_refused hplain now data ho
      simp only [answer, hput]
      exact ⟨.inr ⟨e, hrefused, rfl, rfl⟩, h⟩
  | get key => exact ⟨⟨withFile_key hplain fun _ => rfl, rfl⟩, h⟩
  | delete key =>
    obtain ⟨o', hdelete, hkept, htake⟩ := h.delete hplain
    simp only [answer, hdelete]
    exact ⟨⟨rfl, htake⟩, hkept⟩
  | list pre => exact ⟨⟨h.list pre, rfl⟩, h⟩
  | exists_ key =>
    refine ⟨⟨?_, rfl⟩, h⟩
    simp only [answer, Objects.exists_, Tree.isFile, readFile_key hplain, cabinet,
      Option.isSome_map]
  | getCreationTime key =>
    refine ⟨⟨withFile_key hplain fun c => ?_, rfl⟩, h⟩
    simp only [hplain.resolve, normalize_spell]
  | getSize key => exact ⟨⟨withFile_key hplain fun _ => rfl, rfl⟩, h⟩

end Objects

/-! ## Histories -/

/-- What a call has changed, by its answer. -/
def ObjectCall.edits : ObjectCall → ObjectAnswer → List (Edit String (Bytes × Nat))
  | .put now key data, .done => [.put (below key) (data, now)]
  | .delete key, .done => [.cut (below key)]
  | _, _ => []

/-- What a run of calls has changed. -/
def pastOf (calls : List ObjectCall) (answers : List ObjectAnswer) :
    List (Edit String (Bytes × Nat)) :=
  (List.zipWith ObjectCall.edits calls answers).flatten

/-- A cabinet is changed by what its answer says. -/
theorem ObjectCall.Answered.replay {c c' : ObjectCabinet} {call : ObjectCall} {a : ObjectAnswer}
    (h : call.Answered c a c') : c' = c.replay (call.edits a) ∧ c.Agreed (call.edits a) := by
  cases call with
  | put now key data =>
    rcases h with ⟨ho, rfl, rfl⟩ | ⟨e, -, rfl, rfl⟩
    · exact ⟨rfl, ho, trivial⟩
    · exact ⟨rfl, trivial⟩
  | delete key =>
    obtain ⟨rfl, rfl⟩ := h
    unfold foundIn
    cases hheld : c.held (below key) with
    | none =>
      refine ⟨?_, trivial⟩
      ext q v
      · by_cases hq : q = below key
        · subst hq
          simp [ObjectCall.edits, hheld]
        · simp [ObjectCall.edits, hq]
      · rfl
    | some v => exact ⟨rfl, by simp [Cabinet.Accepts, hheld], trivial⟩
  | get key | list pre | exists_ key | getCreationTime key | getSize key =>
    obtain ⟨-, rfl⟩ := h
    exact ⟨rfl, trivial⟩

/-- Calls that are answered make a history that the cabinet agrees to. -/
theorem CallsAnswered.replay {c c' : ObjectCabinet} {calls : List ObjectCall}
    {as : List ObjectAnswer} (h : CallsAnswered c calls as c') :
    c' = c.replay (pastOf calls as) ∧ c.Agreed (pastOf calls as) := by
  induction h with
  | nil c => exact ⟨rfl, trivial⟩
  | cons hcall _ ih =>
    obtain ⟨rfl, hagreed⟩ := hcall.replay
    obtain ⟨hrest, hagreed'⟩ := ih
    rw [hrest, ← Cabinet.replay_append]
    exact ⟨rfl, Cabinet.agreed_append.mpr ⟨hagreed, hagreed'⟩⟩

/-- The last change at a location has put a value there. -/
def LastPut (past : List (Edit String (Bytes × Nat))) (loc : List String) (v : Bytes × Nat) :
    Prop :=
  ∃ before after, past = before ++ .put loc v :: after ∧ ∀ e ∈ after, ¬e.Touches loc

/-! ## Runs -/

section Runs

variable (hroot : ∀ k ∈ b.root, FileName k)
include hroot

/-- A run is answered as the cabinet answers. -/
theorem Objects.Kept.run (h : Objects.Kept b o) {calls : List ObjectCall}
    (hplain : ∀ call ∈ calls, call.Plain) :
    CallsAnswered (o.cabinet b) calls (o.answers b calls)
        ((Runs.run (Objects.step b) o calls).cabinet b) ∧
      Objects.Kept b (Runs.run (Objects.step b) o calls) := by
  induction calls generalizing o with
  | nil => exact ⟨.nil _, h⟩
  | cons call rest ih =>
    rw [List.forall_mem_cons] at hplain
    obtain ⟨hanswered, hkept⟩ := h.answered hroot hplain.1
    obtain ⟨hrest, hkept'⟩ := ih hkept hplain.2
    exact ⟨.cons hanswered hrest, hkept'⟩

/-- From an empty directory on, a value is there when the last change has put it there. -/
theorem Objects.Kept.held_iff (h : Objects.Kept b o) (hnone : ∀ loc, (o.cabinet b).held loc = none)
    {calls : List ObjectCall} (hplain : ∀ call ∈ calls, call.Plain) (loc : List String)
    (v : Bytes × Nat) :
    ((Runs.run (Objects.step b) o calls).cabinet b).held loc = some v ↔
      LastPut (pastOf calls (o.answers b calls)) loc v := by
  obtain ⟨hreplay, hagreed⟩ := (h.run hroot hplain).1.replay
  rw [hreplay, (Objects.sound b o).held_replay hagreed, funext hnone, replay_eq_some_iff]
  rfl

/-- In every run of calls with keys that name places, from any state of the data directory, each
call is answered as the cabinet of the files answers it. -/
theorem objects_answered (h : Objects.Kept b o) (calls : List ObjectCall)
    (hplain : ∀ call ∈ calls, call.Plain) :
    CallsAnswered (o.cabinet b) calls (o.answers b calls)
      ((Runs.run (Objects.step b) o calls).cabinet b) :=
  (h.run hroot hplain).1

omit hroot in
/-- A small directory, empty. -/
theorem kept_empty : Objects.Kept srvBackend ⟨srvTree, fun _ => 0⟩ :=
  ⟨fun a _ => srvTree_fileAt a, named_of_entries (by decide)⟩

/-- A key, and a shorter one in its way. -/
def objectCalls : List ObjectCall :=
  [.put 5 "a/b" [1], .put 6 "a" [2], .put 7 "a/b/c" [3], .list "a", .delete "a/b", .get "a/b"]

omit hroot in
private theorem plain_objectCalls : ∀ call ∈ objectCalls, call.Plain := by
  have hkey : ∀ key ∈ ["a/b", "a", "a/b/c"], ObjectKey key := by
    intro key hkey
    have hboth : validatePath defaultAllowedChars key = .ok () ∧ below key ≠ [] := by
      revert key
      decide +kernel
    exact ⟨downward_of_validatePath hboth.1, hboth.2⟩
  simp only [objectCalls, List.forall_mem_cons, ObjectCall.Plain]
  exact ⟨hkey _ (by simp), hkey _ (by simp), hkey _ (by simp), trivial, hkey _ (by simp),
    hkey _ (by simp), by simp⟩

omit hroot in
/-- A small run of puts, gets and deletes. -/
theorem objects_answered_small :
    Objects.answers srvBackend ⟨srvTree, fun _ => 0⟩ objectCalls =
        [.done, .raised (.osError .isDir), .raised (.osError .exist), .keys ["a/b"], .done,
          .raised (.fileNotFound "a/b")] ∧
      CallsAnswered (Objects.cabinet srvBackend ⟨srvTree, fun _ => 0⟩) objectCalls
        (Objects.answers srvBackend ⟨srvTree, fun _ => 0⟩ objectCalls)
        ((Runs.run (Objects.step srvBackend) ⟨srvTree, fun _ => 0⟩ objectCalls).cabinet
          srvBackend) :=
  ⟨by decide +kernel, objects_answered (by decide) kept_empty _ plain_objectCalls⟩

/-- After every run of calls from a directory without files: a key gives back what was last put
under it, as long as it was not deleted since; bytes can be put under a key exactly when nothing is
kept under the beginning of its path, nothing was ever put below it, and it was no directory at the
start; and a listing shows exactly the keys under which something is kept. -/
theorem objects_remember (h : Objects.Kept b o) (hnone : ∀ loc, (o.cabinet b).held loc = none)
    (calls : List ObjectCall) (hplain : ∀ call ∈ calls, call.Plain)
    (past : List (Edit String (Bytes × Nat))) (hpast : past = pastOf calls (o.answers b calls))
    (end_ : Objects) (hend : end_ = Runs.run (Objects.step b) o calls) :
    (∀ key, ObjectKey key → ∀ data, end_.get b key = .data data ↔
      ∃ t, LastPut past (below key) (data, t)) ∧
    (∀ key, ObjectKey key → ∀ t data, (end_.put b t key data).1 = .done ↔
      (∀ q ∈ Cabinet.Above (below key), ∀ v, ¬LastPut past q v) ∧
      (∀ loc v, .put loc v ∈ past → below key ∉ Cabinet.Above loc) ∧
      o.tree.get (b.dataLoc ++ below key) ≠ some .dir) ∧
    ∀ pre, ∃ names, end_.list b pre = .keys names ∧ names.Pairwise (· < ·) ∧
      ∀ n, n ∈ names ↔
        startsWith n pre = true ∧ ∃ loc v, LastPut past loc v ∧ listedPath loc = n := by
  subst hpast hend
  obtain ⟨hanswered, hkept⟩ := h.run hroot hplain
  obtain ⟨hreplay, -⟩ := hanswered.replay
  have hheld := h.held_iff hroot hnone hplain
  generalize Runs.run (Objects.step b) o calls = last at *
  generalize pastOf calls (o.answers b calls) = past at *
  have hnever : ∀ q, (∀ v, ¬LastPut past q v) ↔ (last.cabinet b).held q = none := by
    intro q
    rw [Option.eq_none_iff_forall_ne_some]
    exact forall_congr' fun v => not_congr (hheld q v).symm
  refine ⟨fun key hk data => ?_, fun key hk t data => ?_, fun pre => ?_⟩
  · rw [Objects.get_eq_data_iff hk]
    exact exists_congr fun t => hheld _ _
  · rw [hkept.put_done_iff hroot hk, Cabinet.open_iff]
    apply and_congr
    · exact forall₂_congr fun q _ => (hnever q).symm
    · rw [hreplay, Cabinet.mem_drawers_replay, Objects.mem_drawers]
      push Not
      exact and_comm
  · obtain ⟨names, hlist, hsorted, hmem⟩ := hkept.list pre
    refine ⟨names, hlist, hsorted, fun n => ?_⟩
    rw [hmem]
    simp only [hheld]
    constructor
    · rintro ⟨loc, v, hlast, hn, hstarts⟩
      exact ⟨hstarts, loc, v, hlast, hn⟩
    · rintro ⟨hstarts, loc, v, hlast, hn⟩
      exact ⟨loc, v, hlast, hn, hstarts⟩

omit hroot in
/-- The place of what was deleted stays taken. -/
theorem objects_remember_small :
    ((Runs.run (Objects.step srvBackend) ⟨srvTree, fun _ => 0⟩ objectCalls).put srvBackend 8 "a"
      [4]).1 ≠ .done := by
  intro hdone
  have hkey : ObjectKey "a" := (plain_objectCalls (.put 6 "a" [2]) (by simp [objectCalls]))
  have hall := objects_remember (b := srvBackend) (by decide) kept_empty
    (fun loc => Objects.held_eq_none_iff.mpr (srvTree_fileAt _)) objectCalls plain_objectCalls _ rfl
    _ rfl
  obtain ⟨-, hnever, -⟩ := (hall.2.1 "a" hkey 8 [4]).mp hdone
  refine hnever ["a", "b"] ([1], 5) ?_ ⟨by decide +kernel, by decide +kernel⟩
  decide +kernel

end Runs

end Cassetta
