import Cassetta.Cli.Fetching
import Cassetta.Guarantee.CliOut
import Cassetta.Guarantee.EndToEnd
import Cassetta.Guarantee.TwoFactor

/-!
# A delivery by reference, on the recipient's disk

`cassetta download` asks for the files of a reference envelope one after the other and writes what
comes back. This module puts the command and the server together: however the server's other
work falls between and into the command's requests, the files are there byte for byte whenever
the command ends well, and as long as it does not, the bundle waits.
-/

namespace Cassetta

open Prog FileTree

variable {cfg : Config} {env : Environment}

/-! ## Names on the recipient's disk -/

private theorem ReferenceFile.textOf_name (f : ReferenceFile) (str : Json → PyStr) :
    Cli.textOf str f.members "name" = PyStr.ofString f.name := rfl

private theorem ReferenceFile.textOf_url (f : ReferenceFile) (str : Json → PyStr) :
    Cli.textOf str f.members "url" = PyStr.ofString f.url := rfl

namespace Cli

/-- A component as the system has it. -/
def bytesOf (k : String) : List UInt8 := k.toList.flatMap String.utf8EncodeChar

private theorem bytesOf_injective : Function.Injective bytesOf := by
  intro a b h
  rw [← String.toByteArray_inj, ← String.utf8Encode_toList, ← String.utf8Encode_toList]
  exact congrArg List.toByteArray h

private theorem fsencodePoint_toNat {c : Char} (h : c ≠ Char.ofNat 0) :
    fsencodePoint c.toNat = some (String.utf8EncodeChar c) := by
  have hzero : c.toNat ≠ 0 := by
    intro he
    apply h
    rw [← Char.ofNat_toNat c, he]
  have hvalid : c.toNat < 0xD800 ∨ 0xDFFF < c.toNat ∧ c.toNat < 0x110000 := c.valid
  rw [fsencodePoint, if_neg hzero, if_neg (by omega), if_neg (by omega), Char.ofNat_toNat]

private theorem fsencode_ofString {k : String} (h : Char.ofNat 0 ∉ k.toList) :
    fsencode (PyStr.ofString k) = some (bytesOf k) := by
  have hpoints : (PyStr.ofString k).mapM fsencodePoint =
      some (k.toList.map String.utf8EncodeChar) := by
    rw [PyStr.ofString, List.mapM_map]
    generalize k.toList = l at h
    induction l with
    | nil => rfl
    | cons c l ih =>
      rw [List.mem_cons, not_or] at h
      rw [List.mapM_cons, Function.comp_apply, fsencodePoint_toNat (Ne.symm h.1), ih h.2]
      rfl
  rw [fsencode, hpoints]
  rfl

private theorem ofString_injective : Function.Injective PyStr.ofString := by
  intro a b h
  apply String.toList_injective
  exact List.map_injective_iff.mpr (fun c d hcd => Char.toNat_inj.mp hcd) h

private theorem splitOn_map_toNat (l : List Char) (sep : Char) :
    (l.map Char.toNat).splitOn sep.toNat = (l.splitOn sep).map (List.map Char.toNat) := by
  induction l with
  | nil => rfl
  | cons c l ih =>
    simp only [List.splitOn, List.map_cons, List.splitOnP_cons_eq_if_modifyHead] at ih ⊢
    by_cases hc : c = sep
    · simp [hc, ih]
    · have hne : ¬c.toNat = sep.toNat := fun he => hc (Char.toNat_inj.mp he)
      simp only [beq_iff_eq, hc, hne, if_false, ih]
      cases List.splitOnP (· == sep) l <;> rfl

/-- A step of a path, as the system takes it. -/
def Part.ofStep : Step String → Part
  | .up => some .up
  | .into k => (fsencode (PyStr.ofString k)).map .into

/-- pathlib cuts a name the same way on both sides. -/
theorem parts_ofString (name : String) :
    parts (PyStr.ofString name) = (steps name).map Part.ofStep := by
  have hsplit : (PyStr.ofString name).splitOn '/'.toNat =
      (segments name).map PyStr.ofString := by
    rw [PyStr.ofString, splitOn_map_toNat, segments, List.map_map]
    exact List.map_congr_left fun l _ => by simp [PyStr.ofString]
  have hnil : ∀ s : String, PyStr.ofString s = [] ↔ s = "" := fun s =>
    ⟨fun h => ofString_injective h, fun h => h ▸ rfl⟩
  rw [parts, hsplit, steps, List.filter_map, List.map_map, List.map_filterMap,
    ← List.filterMap_eq_map, List.filterMap_filter]
  refine List.filterMap_congr fun s _ => ?_
  have hdot : PyStr.ofString s = PyStr.ofString "." ↔ s = "." :=
    ⟨fun h => ofString_injective h, congrArg _⟩
  have hup : PyStr.ofString s = PyStr.ofString ".." ↔ s = ".." :=
    ⟨fun h => ofString_injective h, congrArg _⟩
  simp only [Function.comp_apply, component, Part.ofText, hnil, hdot, hup, ne_eq]
  by_cases hempty : s = ""
  · simp [hempty]
  by_cases hone : s = "."
  · simp [hone]
  by_cases htwo : s = ".."
  · simp [htwo, Part.ofStep]
  · simp [hempty, hone, htwo, Part.ofStep]

/-- A name that goes straight down and can be handed to the system. -/
structure Nameable (name : String) : Prop extends Downward name where
  encodable : ∀ k ∈ below name, Char.ofNat 0 ∉ k.toList

/-- Where a name lies in an output directory. -/
def placeOf (out : Location) (name : String) : Location := out ++ (below name).map bytesOf

private theorem Nameable.encoded_dest {name : String} (h : Nameable name) (out : Location) :
    encoded (dest (spell out) (PyStr.ofString name)) = some (spell (placeOf out name)) := by
  have hrelative : (PyStr.ofString name).head? ≠ some '/'.toNat := by
    have hrel := h.relative
    rw [isAbsolute, startsWith] at hrel
    cases hchars : name.toList with
    | nil => simp [PyStr.ofString, hchars]
    | cons c rest =>
      rw [hchars] at hrel
      simp only [PyStr.ofString, hchars, List.map_cons, List.head?_cons, ne_eq,
        Option.some.injEq, Char.toNat_inj]
      rintro rfl
      simp [List.isPrefixOf] at hrel
  rw [encoded_eq_some_iff, dest, if_neg hrelative, parts_ofString, h.spelled]
  simp only [spell, placeOf, List.map_append, List.map_map]
  congr 1
  refine List.map_congr_left fun k hk => ?_
  simp [Part.ofStep, fsencode_ofString (h.encodable k hk)]

/-! ## What is written -/

/-- The files of a bundle can be laid out side by side. -/
structure SideBySide (files : List (String × Bytes)) : Prop where
  nameable : ∀ e ∈ files, Nameable e.1
  down : ∀ e ∈ files, below e.1 ≠ []
  apart : ∀ e ∈ files, ∀ e' ∈ files, ¬StrictlyInside (below e.1) (below e'.1)
  same : ∀ e ∈ files, ∀ e' ∈ files, below e.1 = below e'.1 → e.2 = e'.2

/-- A response with the bytes of a file, or with the first of them, or with none. -/
def Response.Brings (files : List (String × Bytes)) (name : String) : Response → Prop
  | .fails _ => True
  | .stream chunks none => (name, chunks.flatten) ∈ files
  | .stream chunks (some _) => ∃ data, (name, data) ∈ files ∧ chunks.flatten <+: data

/-- Nothing is below a directory yet, and no file is on the way to it. -/
structure Fresh (out : Location) (tree : Tree (List UInt8) (List UInt8)) : Prop where
  passable : tree.Passable (spell out)
  empty : ∀ loc, out <+: loc → loc ≠ out → tree.get loc = none

/-- Below a directory there are the files of the given names and the directories on their ways;
the rest of the disk is as it was. -/
structure Holds (out : Location) (files : List (String × Bytes)) (names : List String)
    (tree tree' : Tree (List UInt8) (List UInt8)) : Prop where
  root : tree'.get out = some .dir
  outside : ∀ loc, ¬out <+: loc → tree'.get loc = tree.get loc
  file : ∀ n ∈ names, ∃ data, (n, data) ∈ files ∧
    tree'.get (placeOf out n) = some (.file data)
  nothing_else : ∀ loc node, out <+: loc → loc ≠ out → tree'.get loc = some node →
    (∃ n ∈ names, loc = placeOf out n) ∨ node = .dir ∧ ∃ n ∈ names, loc <+: placeOf out n

section Writing

variable {out : Location} {files : List (String × Bytes)} {names : List String}
  {tree t t₁ t₂ : Tree (List UInt8) (List UInt8)} {name : String}

private theorem placeOf_inj {n n' : String} :
    placeOf out n = placeOf out n' ↔ below n = below n' := by
  rw [placeOf, placeOf, List.append_cancel_left_eq]
  exact ⟨fun h => List.map_injective_iff.mpr bytesOf_injective h, congrArg _⟩

private theorem placeOf_prefix_iff {n n' : String} :
    placeOf out n <+: placeOf out n' ↔ below n <+: below n' := by
  rw [placeOf, placeOf, List.prefix_append_right_inj]
  constructor
  · intro h
    rw [List.prefix_map_iff] at h
    obtain ⟨l, hl, heq⟩ := h
    rwa [List.map_injective_iff.mpr bytesOf_injective heq]
  · exact fun h => h.map _

/-- The beginnings of a plain path lead to the locations above. -/
theorem normalize_prefix_of_spell {pre : Steps} {loc : Location} (h : pre <+: spell loc) :
    normalize pre <+: loc ∧ pre = spell (normalize pre) := by
  obtain ⟨l, hl, rfl⟩ := List.prefix_map_iff.mp h
  rw [← spell, normalize_spell]
  exact ⟨hl, rfl⟩

/-- The output directory is made, and there is nothing in it. -/
theorem Fresh.holds (h : Fresh out tree) :
    ∃ t, tree.mkdirParents (spell out) = (.ok (), t) ∧ Holds out files [] t t := by
  obtain ⟨t, ht⟩ := h.passable.mkdirParents
  have hdir := Tree.isDir_spell.mp (Tree.isDir_of_mkdirParents ht)
  refine ⟨t, ht, hdir, fun _ _ => rfl, by simp, fun loc node hin hne hget => ?_⟩
  have hgrown := Tree.grown_mkdirParents tree (spell out)
  rw [ht] at hgrown
  rcases hgrown loc with hsame | ⟨-, -, pre, hp, heq⟩
  · rw [hsame, h.empty loc hin hne] at hget
    cases hget
  · exact absurd ((normalize_prefix_of_spell hp).1.eq_of_length_le
      (heq ▸ hin.length_le)) (heq ▸ hne)

/-- No file is in the way of another. -/
theorem SideBySide.meet (h : SideBySide files) {e e' : String × Bytes} (he : e ∈ files)
    (he' : e' ∈ files) (hp : placeOf out e.1 <+: placeOf out e'.1) :
    placeOf out e.1 = placeOf out e'.1 := by
  rw [placeOf_prefix_iff] at hp
  rw [placeOf_inj]
  by_contra hdiff
  exact h.apart e he e' he' ⟨hp, Ne.symm hdiff⟩

private theorem SideBySide.placeOf_ne (h : SideBySide files) {e : String × Bytes} (he : e ∈ files) :
    placeOf out e.1 ≠ out := by
  simp [placeOf, h.down e he]

/-- The way to the output directory is made. -/
theorem Holds.above (h : Holds out files names tree t) {loc : Location} (hp : loc <+: out) :
    t.get loc = some .dir := by
  by_cases heq : loc = out
  · rw [heq, h.root]
  · exact Tree.get_of_prefix hp heq h.root

/-- There is room for a further file. -/
theorem Holds.room (h : Holds out files names tree t) (hside : SideBySide files)
    {e : String × Bytes} (he : e ∈ files) (c : List UInt8) :
    ∃ t₁ t₂, t.mkdirParents (spell (placeOf out e.1)).dropLast = (.ok (), t₁) ∧
      t₁.write (spell (placeOf out e.1)) c = .ok t₂ := by
  have hne : placeOf out e.1 ≠ [] := by simp [placeOf, hside.down e he]
  have hdown : out <+: placeOf out e.1 := List.prefix_append _ _
  apply Tree.mkdirParents_write_iff.mpr
  refine ⟨fun pre hp c' hc => ?_, Tree.opens_spell hne, fun hdir => ?_⟩
  · have hshort : pre <+: spell (placeOf out e.1) := hp.trans (List.dropLast_prefix _)
    obtain ⟨hloc, hspell⟩ := normalize_prefix_of_spell hshort
    rcases List.prefix_or_prefix_of_prefix hloc hdown with habove | hbelow
    · rw [h.above habove] at hc
      cases hc
    · by_cases hout : normalize pre = out
      · rw [hout, h.root] at hc
        cases hc
      rcases h.nothing_else _ _ hbelow hout hc with ⟨n, hn, heq⟩ | ⟨hdir, -⟩
      · obtain ⟨data, hmem, -⟩ := h.file n hn
        have hsame := hside.meet hmem he (heq ▸ hloc)
        rw [← heq] at hsame
        rw [hspell, hsame] at hp
        exact Tree.ne_of_prefix_dropLast (by simpa [spell] using hne) hp rfl
      · cases hdir
  · rw [normalize_spell] at hdir
    rcases h.nothing_else _ _ hdown (hside.placeOf_ne he) hdir with ⟨n, hn, heq⟩ | ⟨-, n, hn, hp⟩
    · obtain ⟨data, -, hget⟩ := h.file n hn
      rw [← heq, hdir] at hget
      cases hget
    · obtain ⟨data, hmem, hget⟩ := h.file n hn
      have hsame := hside.meet he hmem hp
      rw [← hsame, hdir] at hget
      cases hget

/-- A file that is written is one more that the directory holds. -/
theorem Holds.writing (h : Holds out files names tree t) (hside : SideBySide files)
    {data : Bytes} (he : (name, data) ∈ files)
    (hmake : t.mkdirParents (spell (placeOf out name)).dropLast = (.ok (), t₁))
    (hwrite : t₁.write (spell (placeOf out name)) data = .ok t₂) :
    Holds out files (names ++ [name]) tree t₂ := by
  have hdown : out <+: placeOf out name := List.prefix_append _ _
  have hgrown := Tree.grown_mkdirParents t (spell (placeOf out name)).dropLast
  rw [hmake] at hgrown
  obtain ⟨-, -, -, hget⟩ := Tree.write_ok hwrite
  rw [normalize_spell] at hget
  have hway : ∀ loc, t₁.get loc = t.get loc ∨
      t.get loc = none ∧ t₁.get loc = some .dir ∧ loc <+: placeOf out name := by
    intro loc
    refine (hgrown loc).imp_right fun ⟨hnone, hdir, pre, hp, heq⟩ => ⟨hnone, hdir, ?_⟩
    exact heq ▸ (normalize_prefix_of_spell (hp.trans (List.dropLast_prefix _))).1
  refine ⟨?_, fun loc hout => ?_, fun n hn => ?_, fun loc node hin hne hnode => ?_⟩
  · rw [hget, if_neg (Ne.symm (hside.placeOf_ne he)), hgrown.get_some h.root]
  · have hloc : loc ≠ placeOf out name := fun heq => hout (heq ▸ hdown)
    rw [hget, if_neg hloc, ← h.outside loc hout]
    rcases hway loc with hsame | ⟨hnone, -, hp⟩
    · exact hsame
    · rcases List.prefix_or_prefix_of_prefix hp hdown with habove | hbelow
      · rw [h.above habove] at hnone
        cases hnone
      · exact absurd hbelow hout
  · rcases List.mem_append.mp hn with hn | hn
    · obtain ⟨data', hmem, hold⟩ := h.file n hn
      by_cases heq : placeOf out n = placeOf out name
      · have hdata : data' = data := hside.same _ hmem _ he (placeOf_inj.mp heq)
        exact ⟨data', hmem, by rw [hget, if_pos heq, hdata]⟩
      · exact ⟨data', hmem, by rw [hget, if_neg heq, hgrown.get_some hold]⟩
    · obtain rfl := List.mem_singleton.mp hn
      exact ⟨data, he, by rw [hget, if_pos rfl]⟩
  · by_cases heq : loc = placeOf out name
    · exact .inl ⟨name, by simp, heq⟩
    rw [hget, if_neg heq] at hnode
    rcases hway loc with hsame | ⟨-, hdir, hp⟩
    · rw [hsame] at hnode
      rcases h.nothing_else loc node hin hne hnode with ⟨n, hn, hplace⟩ | ⟨hdir, n, hn, hp⟩
      · exact .inl ⟨n, by simp [hn], hplace⟩
      · exact .inr ⟨hdir, n, by simp [hn], hp⟩
    · rw [hdir] at hnode
      exact .inr ⟨(Option.some.inj hnode).symm, name, by simp, hp⟩

/-- One file: it is there if all of it came, and otherwise the command stops. -/
theorem Holds.fetch (h : Holds out files names tree t) (hside : SideBySide files) {name : String}
    (hname : name ∈ files.map Prod.fst) {response : Response} (hbrings : response.Brings files name)
    (opened : List (PyStr × Location)) :
    ∃ r s, writeFileStreaming response (PyStr.ofString name)
        (dest (spell out) (PyStr.ofString name)) ⟨t, opened⟩ = (r, s) ∧
      (r = .ok () ↔ response.Whole) ∧
      (response.Whole → Holds out files (names ++ [name]) tree s.tree) := by
  obtain ⟨e, he, rfl⟩ := List.mem_map.mp hname
  have hpath := (hside.nameable e he).encoded_dest out
  cases response with
  | fails why =>
    have hstop : (writeFileStreaming (.fails why) (PyStr.ofString e.1)
        (dest (spell out) (PyStr.ofString e.1)) ⟨t, opened⟩).1 ≠ .ok () := by
      unfold writeFileStreaming
      rw [encoded_dropLast hpath]
      dsimp only
      split <;> rintro ⟨⟩
    exact ⟨_, _, rfl, iff_of_false hstop id, False.elim⟩
  | stream chunks broken =>
    obtain ⟨t₁, t₂, hmake, hwrite⟩ := h.room hside he chunks.flatten
    have hrun : ∀ broken, writeFileStreaming (.stream chunks broken) (PyStr.ofString e.1)
        (dest (spell out) (PyStr.ofString e.1)) ⟨t, opened⟩ =
        (broken.elim (.ok ()) .error,
          ⟨t₂, opened ++ [(PyStr.ofString e.1, normalize (spell (placeOf out e.1)))]⟩) := by
      intro broken
      simp only [writeFileStreaming, encoded_dropLast hpath, hmake, hpath, hwrite]
      cases broken <;> rfl
    refine ⟨_, _, hrun broken, ?_⟩
    cases broken with
    | some why => exact ⟨iff_of_false (by rintro ⟨⟩) id, False.elim⟩
    | none => exact ⟨iff_of_true rfl trivial, fun _ => h.writing hside hbrings hmake hwrite⟩

/-- The loop over the entries: it comes to its end exactly if all of every file came, and then
they are there. -/
theorem Holds.downloadAll (h : Holds out files names tree t) (hside : SideBySide files)
    (str : Json → PyStr) {entries : List ReferenceFile}
    (hentries : ∀ f ∈ entries, f.name ∈ files.map Prod.fst ∧ f.url ≠ "")
    {server : Nat → Response}
    (hserver : ∀ i f, entries[i]? = some f → (server i).Brings files f.name)
    (opened : List (PyStr × Location)) :
    ∃ r s, Cli.downloadAll str (spell out) server (entries.map ReferenceFile.json) ⟨t, opened⟩ =
        (r, s) ∧ (r = .ok () ↔ ∀ i < entries.length, (server i).Whole) ∧
      (r = .ok () → Holds out files (names ++ entries.map (·.name)) tree s.tree) := by
  induction entries generalizing names t server opened with
  | nil => exact ⟨_, _, rfl, by simp, fun _ => by simpa using h⟩
  | cons f rest ih =>
    rw [List.forall_mem_cons] at hentries
    obtain ⟨⟨hname, hurl⟩, hrest⟩ := hentries
    obtain ⟨r, ⟨t', opened'⟩, hrun, hok, hholds⟩ :=
      h.fetch hside hname (hserver 0 f rfl) opened
    have hlater : ∀ i g, rest[i]? = some g → (server (i + 1)).Brings files g.name :=
      fun i g hg => hserver (i + 1) g hg
    have hnames : PyStr.ofString f.name ≠ [] := by
      obtain ⟨e, he, heq⟩ := List.mem_map.mp hname
      intro hnil
      exact (hside.nameable e he).ne_empty (heq.trans (ofString_injective hnil))
    have hurls : PyStr.ofString f.url ≠ [] := fun hnil => hurl (ofString_injective hnil)
    rw [List.map_cons, ReferenceFile.json, Cli.downloadAll, f.textOf_name,
      f.textOf_url, if_neg (not_or.mpr ⟨hnames, hurls⟩), hrun]
    cases r with
    | error why =>
      have hbroken : ¬(server 0).Whole := fun hw => by cases hok.mpr hw
      exact ⟨_, _, rfl, iff_of_false (by rintro ⟨⟩) fun hall => hbroken (hall 0 (by simp)),
        by rintro ⟨⟩⟩
    | ok u =>
      have hwhole := hok.mp rfl
      obtain ⟨r, s, hrun', hok', hholds'⟩ := ih (hholds hwhole) hrest hlater opened'
      refine ⟨r, s, hrun', hok'.trans ⟨fun hall i hi => ?_, fun hall i hi => ?_⟩, fun hr => ?_⟩
      · cases i with
        | zero => exact hwhole
        | succ i => exact hall i (Nat.succ_lt_succ_iff.mp hi)
      · exact hall (i + 1) (Nat.succ_lt_succ hi)
      · have hlast := hholds' hr
        rwa [List.append_assoc] at hlast

/-- The command on a reference envelope, with nothing in its output directory. -/
theorem Fresh.download (h : Fresh out tree) (hside : SideBySide files) (str : Json → PyStr)
    {encode : Token → PyStr} {bundle expiresAt : Json} {e : ReferenceEnvelope}
    (htoken : encode e.downloadToken ≠ []) (hne : e.files ≠ [])
    (hentries : ∀ f ∈ e.files, f.name ∈ files.map Prod.fst ∧ f.url ≠ "")
    {server : Nat → Response}
    (hserver : ∀ i f, e.files[i]? = some f → (server i).Brings files f.name) :
    ∃ r s, Cli.download str (spell out) server (e.json encode bundle expiresAt) tree = (r, s) ∧
      (r = .ok () ↔ ∀ i < e.files.length, (server i).Whole) ∧
      (r = .ok () → Holds out files (e.files.map (·.name))
        (tree.mkdirParents (spell out)).2 s.tree) := by
  obtain ⟨t, hmake, hholds⟩ := h.holds
  obtain ⟨r, s, hrun, hok, hlast⟩ := hholds.downloadAll hside str hentries hserver []
  have hfiles : referenceFiles (e.json encode bundle expiresAt) =
      some (e.files.map ReferenceFile.json) := by
    have hread : referenceFiles (e.json encode bundle expiresAt) =
        if PyStr.ofString "reference" = PyStr.ofString "reference" ∧
          encode e.downloadToken ≠ [] ∧ e.files.map ReferenceFile.json ≠ []
        then some (e.files.map ReferenceFile.json) else none := rfl
    rw [hread, if_pos ⟨rfl, htoken, by simpa using hne⟩]
  rw [hmake]
  cases r with
  | ok u =>
    have hdownload : Cli.download str (spell out) server (e.json encode bundle expiresAt) tree =
        (.ok u, s) := by
      simp only [Cli.download, hfiles, hmake, hrun]
    exact ⟨_, _, hdownload, hok, hlast⟩
  | error why =>
    refine ⟨_, _, rfl, ?_⟩
    have hstop : (Cli.download str (spell out) server (e.json encode bundle expiresAt) tree).1 ≠
        .ok () := by
      cases why <;> simp [Cli.download, hfiles, hmake, hrun]
    have hcut : ¬∀ i < e.files.length, (server i).Whole := fun hall => by cases hok.mpr hall
    exact ⟨iff_of_false hstop hcut, fun hr => absurd hr hstop⟩

end Writing

end Cli

/-! ## What goes out on a stream -/

/-- What is still to come on a stream. -/
def System.left (sys : System) (k : Nat) : Bytes :=
  (sys.openStream k).elim [] fun o => o.stream.unread

section Streams

variable {sys : System} {k : Nat}

/-- What an event puts on a stream was the next to come, or the stream is broken off. -/
theorem System.yields_left (hk : k < sys.streams.length) (e : Event) :
    k < (sys.step cfg env e).streams.length ∧
      sys.yields k e ++ (sys.step cfg env e).left k <+: sys.left k := by
  have hstreams : (sys.step cfg env e).streams =
      sys.streamsAfter cfg (runE (execAny cfg env) (e.program cfg sys) sys.server).2.disk e
        (runE (execAny cfg env) (e.program cfg sys) sys.server).1 := rfl
  have hleft : ∀ sys' : System, sys'.streams[k]? = sys.streams[k]? → sys'.left k = sys.left k :=
    fun sys' h => by rw [System.left, System.openStream, h, System.left, System.openStream]
  generalize runE (execAny cfg env) (e.program cfg sys) sys.server = x at hstreams
  cases e with
  | chunk j =>
    simp only [System.streamsAfter] at hstreams
    cases ho : sys.openStream j with
    | none =>
      simp only [ho] at hstreams
      have hnone : sys.yields k (.chunk j) = [] := by
        simp only [System.yields]
        split
        · rename_i hj
          rw [← hj, ho]
          rfl
        · rfl
      rw [hnone, hleft _ (congrArg (·[k]?) hstreams)]
      exact ⟨hstreams ▸ hk, List.prefix_refl _⟩
    | some o =>
      simp only [ho] at hstreams
      refine ⟨by rw [hstreams, List.length_set]; exact hk, ?_⟩
      by_cases hj : j = k
      · subst hj
        simp only [System.yields, System.left, System.openStream, hstreams,
          List.getElem?_set_self hk, if_true] at ho ⊢
        rw [ho]
        split
        · rename_i hend
          simp [hend]
        · simp [Download.Stream.advance]
      · have hother : sys.yields k (.chunk j) = [] := if_neg hj
        rw [hother, hleft _ (by rw [hstreams, List.getElem?_set_ne hj])]
        exact List.prefix_refl _
  | disconnect j =>
    simp only [System.streamsAfter] at hstreams
    refine ⟨by rw [hstreams, List.length_set]; exact hk, ?_⟩
    by_cases hj : j = k
    · subst hj
      simp [System.yields, System.left, System.openStream, hstreams, List.getElem?_set_self hk]
    · rw [hleft _ (by rw [hstreams, List.getElem?_set_ne hj])]
      exact List.prefix_refl _
  | download req =>
    have hsame : (sys.step cfg env (.download req)).streams[k]? = sys.streams[k]? ∧
        k < (sys.step cfg env (.download req)).streams.length := by
      rw [hstreams]
      rcases x with ⟨e | ⟨_ | _ | st | _⟩, s⟩
      case ok.stream =>
        simp only [System.streamsAfter, List.length_append]
        exact ⟨List.getElem?_append_left hk, Nat.lt_add_right _ hk⟩
      all_goals exact ⟨rfl, hk⟩
    rw [hleft _ hsame.1]
    exact ⟨hsame.2, List.prefix_refl _⟩
  | _ =>
    have hsame := hleft _ (congrArg (·[k]?) hstreams)
    exact ⟨hstreams ▸ hk, by rw [hsame]; exact List.prefix_refl _⟩

/-- What goes out on a stream in a run is the beginning of what was to come. -/
theorem System.sends_prefix (hk : k < sys.streams.length) (events : List Event) :
    (System.sends cfg env k sys events).flatten <+: sys.left k := by
  induction events generalizing sys with
  | nil => exact List.nil_prefix
  | cons e rest ih =>
    obtain ⟨hk', hnow⟩ := @System.yields_left cfg env sys k hk e
    rw [System.sends, List.flatten_cons]
    exact ((List.prefix_append_right_inj _).mpr (ih hk')).trans hnow

/-- One run after the other. -/
theorem System.run_append (sys : System) (events rest : List Event) :
    sys.run cfg env (events ++ rest) = (sys.run cfg env events).run cfg env rest :=
  Runs.run_append _ sys events rest

/-- What is sent in one run and in the next. -/
theorem System.sends_append (k : Nat) (sys : System) (events rest : List Event) :
    System.sends cfg env k sys (events ++ rest) =
      System.sends cfg env k sys events ++
        System.sends cfg env k (sys.run cfg env events) rest := by
  induction events generalizing sys with
  | nil => rfl
  | cons e events ih => rw [List.cons_append, System.sends, System.sends, ih]; rfl

/-- A stream that is open has been opened. -/
theorem System.lt_of_openStream {o : OpenStream} (ho : sys.openStream k = some o) :
    k < sys.streams.length := by
  by_contra hlen
  rw [System.openStream, List.getElem?_eq_none (not_lt.mp hlen)] at ho
  cases ho

/-- A GET that is answered, as a step of the system. -/
theorem System.step_download {req : Download.Request} {st : Download.Stream} {s : Server}
    (hrun : runE (exec cfg env) (Download.downloadFile cfg req) sys.server = (.ok st, s)) :
    (sys.step cfg env (.download req)).server = s ∧
      (sys.step cfg env (.download req)).streamed = sys.streamed ∧
      ∃ found, (sys.step cfg env (.download req)).openStream sys.streams.length =
        some ⟨st, found⟩ := by
  have hprogram : runE (execAny cfg env) ((Event.download req).program cfg sys) sys.server =
      (.ok (.stream st), s) := by
    rw [Event.program, runE_bind, runE_execAny_plain, hrun]
    rfl
  have hstreams : (sys.step cfg env (.download req)).streams =
      sys.streams ++ [some ⟨st, cfg.backend.manifestBlob s.disk st.bundlePath⟩] := by
    rw [System.step, hprogram]
    rfl
  refine ⟨?_, ?_, cfg.backend.manifestBlob s.disk st.bundlePath, ?_⟩
  · rw [System.step, hprogram]
    rfl
  · rw [System.step_streamed]
    exact List.append_nil _
  · rw [System.openStream, hstreams, List.getElem?_concat_length]
    rfl

end Streams

/-- What a GET is answered with is what the handler has returned. -/
theorem Download.downloadFile_of_get {req : Download.Request} {s s' : Server}
    {st : Download.Stream}
    (h : runE (exec cfg env) (Download.getDownload cfg req) s = (.ok st, s')) :
    runE (exec cfg env) (Download.downloadFile cfg req) s = (.ok st, s') := by
  rw [Download.getDownload] at h
  revert h
  cases routeParam "/download/" (String.ofList (req.rawPath.toList.takeWhile (· ≠ '?'))) with
  | none => exact fun h => absurd (congrArg Prod.fst h) (by simp)
  | some path => exact id

namespace Parcel

variable {p : Parcel} {files : List (String × Bytes)} {start sys : System}

/-- A GET that is answered opens a stream of its file, of the length that is announced. -/
theorem Course.opened (hb : p.Begun cfg files start) (h : Course cfg p start sys)
    (hback : ∀ e ∈ files, p.stored cfg start.server e.1 = some e.2) {name : String}
    {req : Download.Request} (hreq : p.Fetches cfg name req) {st : Download.Stream} {s : Server}
    (hrun : runE (exec cfg env) (Download.downloadFile cfg req) sys.server = (.ok st, s)) :
    (name, st.unread) ∈ files ∧ st.contentLength = st.unread.length := by
  obtain ⟨claims, path, nm, m, hadm, -⟩ := Download.streams_iff.mp ⟨st, s, hrun⟩
  obtain ⟨key, hbearer, -⟩ := hadm.signed
  obtain rfl : p.claims = claims := by
    rw [hreq.toAsks.bearer_eq hb] at hbearer
    exact (Token.signed.inj (Option.some.inj hbearer)).1
  have htime : sys.server.reading < p.deadline := by
    obtain ⟨exp, nbf, iat, jti, hexp, -, -, -, -, -, hlate⟩ := hadm.timely
    rw [deadline, hexp]
    exact not_le.mp (of_decide_eq_false hlate)
  have hpending : Pending cfg p start sys := by
    refine h.stage.resolve_right fun hdone => ?_
    obtain ⟨recipient, iat, jti, -, -, hclaims⟩ := hb.minted
    have hpath : path = p.path := by
      have hbound := hadm.bound
      rw [hclaims] at hbound
      exact (Option.some.inj hbound).symm
    have hmanifest := hadm.manifest
    rw [hpath, hb.readMeta] at hmanifest
    have hdir := Backend.dir_of_metaAt hmanifest
    rw [hdone.gone.dir] at hdir
    cases hdir
  have hreturns : Returns (exec cfg env) (Download.downloadFile cfg req) (fun st' _ => st' = st)
      sys.server := returns_iff_run.mpr ⟨st, s, hrun, rfl⟩
  obtain ⟨f, hf, hfn, -, data, hstored, hst⟩ := (hb.returns_get_iff h.keys h.wall htime
    (hpending.there hb h.standing).bundle hreq.toAsks (hb.lets (.inr hreq.sender))).mp hreturns
  obtain ⟨-, -, -, hsizes⟩ := hb.written.checked
  obtain ⟨data', hmem, hlen⟩ := hsizes f hf
  have hname : name ∈ p.bundle.names := hfn ▸ List.mem_map_of_mem hf
  rw [hpending.stored name hname, ← hfn, hback _ hmem] at hstored
  obtain rfl := Option.some.inj hstored
  rw [← hst, ← hfn]
  exact ⟨hmem, hlen.symm⟩

/-- What comes back on a GET is of its file. -/
theorem Course.brings (hb : p.Begun cfg files start) (h : Course cfg p start sys)
    (hback : ∀ e ∈ files, p.stored cfg start.server e.1 = some e.2) {name : String}
    {req : Download.Request} (hreq : p.Fetches cfg name req) {during : List Event}
    {response : Cli.Response} (hresponse : sys.Answers cfg env req during response) :
    response.Brings files name := by
  have hleft : ∀ {st s}, runE (exec cfg env) (Download.downloadFile cfg req) sys.server =
      (.ok st, s) → (System.sends cfg env sys.streams.length
        (sys.step cfg env (.download req)) during).flatten <+: st.unread := by
    intro st s hrun
    obtain ⟨-, -, found, hopen⟩ := @System.step_download cfg env sys req st s hrun
    have hleft : (sys.step cfg env (.download req)).left sys.streams.length = st.unread := by
      rw [System.left, hopen]
      rfl
    rw [← hleft]
    exact System.sends_prefix (System.lt_of_openStream hopen) during
  cases hresponse with
  | refused hrun => trivial
  | broken hrun hsome =>
    obtain ⟨hmem, -⟩ := h.opened hb hback hreq (Download.downloadFile_of_get hrun)
    exact ⟨_, hmem, hsome.trans (hleft (Download.downloadFile_of_get hrun))⟩
  | whole hrun hall hlength =>
    obtain ⟨hmem, hlen⟩ := h.opened hb hback hreq (Download.downloadFile_of_get hrun)
    have hall' := (hleft (Download.downloadFile_of_get hrun)).eq_of_length (by
      rw [← hall]
      exact Int.ofNat.inj (hlength.trans hlen))
    rw [Cli.Response.Brings, hall, hall']
    exact hmem

/-- The files of a delivery that read back can be laid out side by side elsewhere. -/
theorem Begun.sideBySide (hb : p.Begun cfg files start)
    (hback : ∀ e ∈ files, p.stored cfg start.server e.1 = some e.2)
    (hnames : ∀ n ∈ p.bundle.names, Cli.Nameable n) : Cli.SideBySide files := by
  have hnameable : ∀ e ∈ files, Cli.Nameable e.1 := fun e he =>
    hnames e.1 ((hb.written.checked.2.2.1 e.1).mpr (List.mem_map_of_mem he))
  have hbundle := hb.there.bundle
  rw [hb.readMeta] at hbundle
  have hdir := Backend.dir_of_metaAt hbundle
  have hfile : ∀ e ∈ files, ∃ c, start.server.disk.tree.get (p.loc cfg.backend ++ below e.1) =
      some (.file c) ∧ cfg.backend.bytesOf c = e.2 := by
    intro e he
    have hread := hback e he
    rw [stored, Backend.openBundleFileRead, (hnameable e he).joinPath, hb.spelled] at hread
    split at hread
    · obtain ⟨c, hc, heq⟩ := Option.map_eq_some_iff.mp hread
      have hget := (Tree.readFile_eq_some_iff.mp hc).2
      rw [normalize_append_spell, normalize_spell] at hget
      exact ⟨c, hget, heq⟩
    · cases hread
  refine ⟨hnameable, fun e he hnil => ?_, fun e he e' he' hin => ?_, fun e he e' he' heq => ?_⟩
  · obtain ⟨c, hc, -⟩ := hfile e he
    rw [hnil, List.append_nil, hdir] at hc
    cases hc
  · obtain ⟨c, hc, -⟩ := hfile e he
    obtain ⟨c', hc', -⟩ := hfile e' he'
    have hnone := Tree.get_below_file hc ((List.prefix_append_right_inj _).mpr hin.1)
      fun hsame => hin.2 (List.append_cancel_left hsame).symm
    rw [hnone] at hc'
    cases hc'
  · obtain ⟨c, hc, hdata⟩ := hfile e he
    obtain ⟨c', hc', hdata'⟩ := hfile e' he'
    rw [heq, hc'] at hc
    obtain rfl := Node.file.inj (Option.some.inj hc)
    rw [← hdata, ← hdata']

/-- A download URL is its base and its raw path, as the command sends it. -/
theorem base_append_rawPath (hbase : Pathless cfg.publicBaseUrl) (path name : String) :
    rstripSlash cfg.publicBaseUrl ++ rawPath (buildDownloadUrl cfg path name) =
      buildDownloadUrl cfg path name := by
  rw [rawPath_buildDownloadUrl hbase, buildDownloadUrl]
  simp only [String.append_assoc]

/-- The GET of the command is one of the recipient. -/
theorem Begun.fetches_getFile (hb : p.Begun cfg files start) (hbase : Pathless cfg.publicBaseUrl)
    {f : ReferenceFile} (hf : f ∈ p.envelope.files) :
    p.Fetches cfg f.name (Cli.getFile p.envelope.downloadToken f.url) := by
  obtain ⟨expiresAt, henvelope⟩ := hb.envelope
  obtain ⟨recipient, iat, jti, hne, -, hclaims⟩ := hb.minted
  have htoken : p.envelope.downloadToken = .signed p.claims cfg.jwtPrimaryKey :=
    congrArg ReferenceEnvelope.downloadToken henvelope
  have hmem := hf
  rw [congrArg ReferenceEnvelope.files henvelope] at hmem
  obtain ⟨g, -, rfl⟩ := List.mem_map.mp hmem
  refine ⟨⟨⟨_, hf, rfl, base_append_rawPath hbase p.path g.name⟩, rfl⟩, ?_⟩
  rw [Cli.getFile, htoken, Cli.decodeRecipient, hclaims]
  show Option.filter (· ≠ "") (some recipient) = some recipient
  simp [hne]

/-- The command's entries are the files of the delivery, in the order of the manifest. -/
theorem Begun.entries (hb : p.Begun cfg files start) :
    p.envelope.files ≠ [] ∧ p.envelope.files.map (·.name) = p.bundle.names ∧
      ∀ f ∈ p.envelope.files, f.name ∈ files.map Prod.fst ∧ f.url ≠ "" := by
  obtain ⟨expiresAt, henvelope⟩ := hb.envelope
  obtain ⟨hne, -, hnames, -⟩ := hb.written.checked
  have hfiles := congrArg ReferenceEnvelope.files henvelope
  rw [hfiles]
  refine ⟨by simpa [buildReferenceEnvelopeWithPath] using hne, ?_, fun f hf => ?_⟩
  · simp [buildReferenceEnvelopeWithPath, BundleMeta.names]
  · obtain ⟨g, hg, rfl⟩ := List.mem_map.mp hf
    refine ⟨(hnames _).mp (List.mem_map_of_mem hg), fun hnil => ?_⟩
    have hchars := congrArg String.toList hnil
    simp [buildDownloadUrl] at hchars

end Parcel

/-! ## The command in a run -/

/-- What `cassetta download` is given for a parcel: where to write, on which disk, how JSON is
written, and what comes back on the GETs of the files. -/
structure Fetching where
  out : Cli.Location
  tree : Tree (List UInt8) (List UInt8)
  str : Json → PyStr
  encode : Token → PyStr
  bundle : Json
  expiresAt : Json
  server : Nat → Cli.Response

/-- The command on a parcel. -/
def Fetching.download (c : Fetching) (p : Parcel) : Except Cli.Stop Unit × Cli.Local :=
  Cli.download c.str (spell c.out) c.server (p.envelope.json c.encode c.bundle c.expiresAt) c.tree

/-- The command on a parcel of which the files read back, when what comes back is of its files. -/
theorem Parcel.Begun.download {p : Parcel} {files : List (String × Bytes)} {start : System}
    (hb : p.Begun cfg files start)
    (hback : ∀ e ∈ files, p.stored cfg start.server e.1 = some e.2)
    (hnames : ∀ n ∈ p.bundle.names, Cli.Nameable n) {c : Fetching}
    (hfresh : Cli.Fresh c.out c.tree) (htoken : ∀ t, c.encode t ≠ [])
    (hbrings : ∀ i f, p.envelope.files[i]? = some f → (c.server i).Brings files f.name) :
    ((c.download p).1 = .ok () ↔ ∀ i < p.envelope.files.length, (c.server i).Whole) ∧
      ((c.download p).1 = .ok () → Cli.Holds c.out files p.bundle.names
        (c.tree.mkdirParents (spell c.out)).2 (c.download p).2.tree) := by
  obtain ⟨hne, heq, hentries⟩ := hb.entries
  obtain ⟨r, s, hdownload, hok, hholds⟩ := hfresh.download (hb.sideBySide hback hnames) c.str
    (htoken _) hne hentries hbrings
  have hresult : c.download p = (r, s) := hdownload
  rw [hresult]
  exact ⟨hok, fun hr => heq ▸ hholds hr⟩

/-- A GET that is answered while the run goes on. -/
theorem System.gets_of_answers {sys : System} {req : Download.Request} {during : List Event}
    {response : Cli.Response} (h : System.Answers cfg env sys req during response) :
    System.Gets cfg env sys (.download req :: during) req response :=
  .inr ⟨[], during, [], by simp, h⟩

/-- The command on a parcel, when what comes back is what the GETs of a run bring. -/
theorem Parcel.Begun.fetching {p : Parcel} {files : List (String × Bytes)} {start : System}
    (hroot : ∀ k ∈ cfg.backend.root, FileName k) (hbase : Pathless cfg.publicBaseUrl)
    (hb : p.Begun cfg files start) (hback : ∀ e ∈ files, p.stored cfg start.server e.1 = some e.2)
    (hnames : ∀ n ∈ p.bundle.names, Cli.Nameable n) {events : List Event}
    (hrun : Runs.Guarded (System.step cfg env) (p.Undisturbed cfg env) start events)
    {c : Fetching} (hfresh : Cli.Fresh c.out c.tree) (htoken : ∀ t, c.encode t ≠ [])
    (hserver : ∀ i f, p.envelope.files[i]? = some f → System.Gets cfg env start events
      (Cli.getFile p.envelope.downloadToken f.url) (c.server i)) :
    ((c.download p).1 = .ok () ↔ ∀ i < p.envelope.files.length, (c.server i).Whole) ∧
      ((c.download p).1 = .ok () → Cli.Holds c.out files p.bundle.names
        (c.tree.mkdirParents (spell c.out)).2 (c.download p).2.tree) := by
  refine hb.download hback hnames hfresh htoken fun i f hf => ?_
  have hfetches := hb.fetches_getFile hbase (List.mem_of_getElem? hf)
  rcases hserver i f hf with hlost | ⟨before, during, after, hevents, hanswers⟩
  · rw [hlost]
    trivial
  · rw [hevents] at hrun
    have hcourse : Parcel.Course cfg p start (start.run cfg env before) :=
      (Runs.guarded_append.mp hrun).1.invariant (fun _ _ h hu => h.step hroot hb hu) hb.course
    exact hcourse.brings hb hback hfetches hanswers

/-- After any pick by reference of a bundle whose names do not meet, in every run in which nothing
but the recipient's GETs touches it: the command whose GETs are among them comes to a good end
exactly if all of each file came; then the files and their directories are all there is in its
output directory, byte for byte, and nothing else has changed; and if it does not, the bundle
and its claim are there, or every file has been streamed to its last byte. -/
theorem download_delivers (hroot : ∀ k ∈ cfg.backend.root, FileName k)
    (hbase : Pathless cfg.publicBaseUrl) (p : Parcel) (files : List (String × Bytes))
    (sys : System) (hs : Standing sys.server) (r : PickRequest)
    (hpick : p.PickedIn cfg env files sys r)
    (hapart : cfg.backend.Apart (p.loc cfg.backend) p.bundle files)
    (hnames : ∀ n ∈ p.bundle.names, Cli.Nameable n) (events : List Event)
    (hrun : Runs.Guarded (System.step cfg env) (p.Undisturbed cfg env)
      (sys.step cfg env (.pick r)) events)
    (c : Fetching) (hfresh : Cli.Fresh c.out c.tree) (htoken : ∀ t, c.encode t ≠ [])
    (hserver : ∀ i f, p.envelope.files[i]? = some f → System.Gets cfg env
      (sys.step cfg env (.pick r)) events (Cli.getFile p.envelope.downloadToken f.url)
      (c.server i)) :
    ((c.download p).1 = .ok () ↔ ∀ i < p.envelope.files.length, (c.server i).Whole) ∧
      ((c.download p).1 = .ok () → Cli.Holds c.out files p.bundle.names
        (c.tree.mkdirParents (spell c.out)).2 (c.download p).2.tree) ∧
      ((c.download p).1 ≠ .ok () →
        p.There cfg ((sys.step cfg env (.pick r)).run cfg env events).server ∨
          ∀ n ∈ p.bundle.names, n ∈ p.fetched (sys.step cfg env (.pick r))
            ((sys.step cfg env (.pick r)).run cfg env events)) := by
  have hb := hpick.begun hroot hs
  have hback := hb.written.apart_iff.mpr hapart
  obtain ⟨hok, hholds⟩ := hb.fetching hroot hbase hback hnames hrun hfresh htoken hserver
  refine ⟨hok, hholds, fun _ => ?_⟩
  have hend : Parcel.Course cfg p (sys.step cfg env (.pick r))
      ((sys.step cfg env (.pick r)).run cfg env events) :=
    hrun.invariant (fun _ _ h hu => h.step hroot hb hu) hb.course
  rcases hend.stage with hpending | hdone
  · exact .inl (hpending.there hb hend.standing)
  · exact .inr hdone.fetched

/-- The command for the one file of the small server, on an empty disk. -/
def smallFetching : Fetching where
  out := [[111]]
  tree := Tree.empty
  str _ := []
  encode _ := [1]
  bundle := .null
  expiresAt := .null
  server _ := .stream [[1]] none

/-- The command's GET on the small server. -/
def smallGet : Download.Request :=
  Cli.getFile (firstParcel "p").envelope.downloadToken
    (buildDownloadUrl srvConfig (inboxPath "bob:b" "p") "p")

/-- The base URL of the small server has no path. -/
theorem pathless_local : Pathless srvConfig.publicBaseUrl :=
  ⟨"http", "localhost:16001", by decide, by simp, by simp⟩

/-- The output directory of the small fetching is empty. -/
theorem fresh_small : Cli.Fresh smallFetching.out smallFetching.tree := by
  refine ⟨by decide, fun loc hp _ => ?_⟩
  have hget : smallFetching.tree.get loc = if loc = [] then some .dir else none :=
    Tree.get_empty loc
  rw [hget, if_neg]
  rintro rfl
  simp [smallFetching] at hp

/-- The names of the small bundle can be files. -/
theorem nameable_small : ∀ n ∈ (firstParcel "p").bundle.names, Cli.Nameable n := by
  intro n hn
  obtain rfl := List.mem_singleton.mp hn
  exact ⟨downward_of_validatePath
    (show validatePath defaultAllowedChars "p" = .ok () by decide), by decide⟩

/-- `alice` broadcasts a bundle of two files. -/
def pairSystem : System :=
  srvSystem.run srvConfig .core
    [.plain (.broadcast alice "p" (.multipart [⟨"a", [1], none⟩, ⟨"b", [2, 3], none⟩]))]

/-- What `bob` gets when he picks it. -/
def pairParcel : Parcel :=
  let bundle : BundleMeta := ⟨1, 0, some "alice:a", 5000000, "application/octet-stream", 2,
    [⟨"a", 1, "application/octet-stream"⟩, ⟨"b", 2, "application/octet-stream"⟩]⟩
  let claims : Claims :=
    { buildClaims (inboxPath "bob:b" "p") bundle "bob:b" 300 5 with jti := some 1 }
  ⟨buildReferenceEnvelopeWithPath srvConfig bundle (inboxPath "bob:b" "p")
    (.signed claims srvConfig.jwtPrimaryKey) 305, claims⟩

/-- The pick, and the system it leaves. -/
def pairPicked : System := pairSystem.step srvConfig .core (.pick (.rest bob "bob:b" "p"))

/-- The command's GETs of the two files. -/
def pairGet (name : String) : Download.Request :=
  Cli.getFile pairParcel.envelope.downloadToken
    (buildDownloadUrl srvConfig (inboxPath "bob:b" "p") name)

/-- The two GETs, each with its stream to the end, and a second that goes by between them. -/
def pairEvents : List Event :=
  [.download (pairGet "a"), .chunk 0, .chunk 0, .tick 1000000, .download (pairGet "b"), .chunk 1,
    .chunk 1]

/-- The command, with the bytes of each file coming back. -/
def pairFetching : Fetching :=
  { smallFetching with server := fun i => .stream [if i = 0 then [1] else [2, 3]] none }

private theorem picked_pair : pairParcel.PickedIn srvConfig .core [("a", [1]), ("b", [2, 3])]
    pairSystem (.rest bob "bob:b" "p") where
  answered := by decide +kernel
  token := ⟨srvConfig.jwtPrimaryKey, rfl⟩
  isInbox := by decide +kernel
  straight := by decide +kernel
  written := by
    have h : (srvBackend.writeWhole 0 (inboxPath "bob:b" "p") [("a", [1]), ("b", [2, 3])]
        pairParcel.bundle (Disk.init srvTree)).toOption.any (fun after =>
          pairParcel.bundle.names.all fun n => pairParcel.stored srvConfig pairSystem.server n =
            srvBackend.openBundleFileRead after.tree (inboxPath "bob:b" "p") n) = true := by
      decide +kernel
    obtain ⟨after, hafter, hsame⟩ := exists_ok_of_any h
    exact ⟨0, Disk.init srvTree, after, hafter, fun n hn =>
      of_decide_eq_true (List.all_eq_true.mp hsame n hn)⟩
  addressed := by decide
  used o ho := by
    have hnone : pairSystem.streams = [] := by decide +kernel
    rw [hnone] at ho
    cases ho
  keys := by decide +kernel
  timely := by decide +kernel

private theorem standing_pair : Standing pairSystem.server :=
  @Standing.step srvConfig .core srvSystem (by decide) standing_srvSystem
    (.plain (.broadcast alice "p" (.multipart [⟨"a", [1], none⟩, ⟨"b", [2, 3], none⟩])))

private theorem nameable_pair : ∀ n ∈ pairParcel.bundle.names, Cli.Nameable n := by
  intro n hn
  have hvalid : ∀ n ∈ pairParcel.bundle.names, validatePath defaultAllowedChars n = .ok () ∧
      ∀ k ∈ below n, Char.ofNat 0 ∉ k.toList := by decide
  exact ⟨downward_of_validatePath (hvalid n hn).1, (hvalid n hn).2⟩

private theorem aside_tick (p : Parcel) (sys : System) (micros : Nat) :
    p.Aside srvConfig sys (sys.step srvConfig .core (.tick micros)) :=
  ⟨fun _ _ => rfl, fun _ _ => rfl, rfl, rfl, rfl, fun _ ho _ => ho⟩

private theorem undisturbed_pair : Runs.Guarded (System.step srvConfig .core)
    (pairParcel.Undisturbed srvConfig .core) pairPicked pairEvents := by
  have hb := picked_pair.begun (by decide) standing_pair
  refine ⟨.inl ⟨"a", _, rfl, ?_, by decide +kernel⟩,
    .inr (.inl (Parcel.streams_of_any (.inl rfl) (by decide +kernel))),
    .inr (.inl (Parcel.streams_of_any (.inl rfl) (by decide +kernel))),
    .inr (.inr (aside_tick _ _ _)), .inl ⟨"b", _, rfl, ?_, by decide +kernel⟩,
    .inr (.inl (Parcel.streams_of_any (.inl rfl) (by decide +kernel))),
    .inr (.inl (Parcel.streams_of_any (.inl rfl) (by decide +kernel))), trivial⟩
  · exact hb.fetches_getFile pathless_local (.head _)
  · exact hb.fetches_getFile pathless_local (.tail _ (.head _))

private theorem answers_pair {sys : System} {name : String} {data : Bytes} {during : List Event}
    (hsends : (System.sends srvConfig .core sys.streams.length
      (sys.step srvConfig .core (.download (pairGet name))) during).flatten = data)
    (hlength : (runE (exec srvConfig .core) (Download.getDownload srvConfig (pairGet name))
      sys.server).1.toOption.any (fun st => st.contentLength = (data.length : Int)) = true) :
    sys.Answers srvConfig .core (pairGet name) during (.stream [data] none) := by
  obtain ⟨st, hst, hlen⟩ := exists_ok_of_any hlength
  refine .whole (Prod.ext hst rfl) ?_ ?_
  · simpa using hsends.symm
  · simpa using (of_decide_eq_true hlen).symm

/-- Two files are fetched, and both are there. -/
theorem download_delivers_small :
    (pairFetching.download pairParcel).1 = .ok () ∧
      (pairFetching.download pairParcel).2.tree.get (Cli.placeOf [[111]] "a") =
        some (.file [1]) ∧
      (pairFetching.download pairParcel).2.tree.get (Cli.placeOf [[111]] "b") =
        some (.file [2, 3]) := by
  have hserver : ∀ i f, pairParcel.envelope.files[i]? = some f →
      System.Gets srvConfig .core pairPicked pairEvents
        (Cli.getFile pairParcel.envelope.downloadToken f.url) (pairFetching.server i) := by
    intro i f hf
    rcases i with _ | _ | i
    · obtain rfl := Option.some.inj hf
      refine .inr ⟨[], [.chunk 0, .chunk 0], _, rfl, ?_⟩
      exact answers_pair (by decide +kernel) (by decide +kernel)
    · obtain rfl := Option.some.inj hf
      refine .inr ⟨[.download (pairGet "a"), .chunk 0, .chunk 0, .tick 1000000],
        [.chunk 1, .chunk 1], [], rfl, ?_⟩
      exact answers_pair (by decide +kernel) (by decide +kernel)
    · cases hf
  have hall := download_delivers (by decide) pathless_local pairParcel [("a", [1]), ("b", [2, 3])]
    pairSystem standing_pair _ picked_pair
    ⟨by decide +kernel, by decide +kernel, by decide +kernel⟩
    nameable_pair pairEvents undisturbed_pair pairFetching fresh_small
    (fun _ => List.cons_ne_nil _ _) hserver
  have hok := hall.1.mpr fun i _ => trivial
  have hholds := hall.2.1 hok
  obtain ⟨data, hdata, hget⟩ := hholds.file "a" (by decide)
  obtain ⟨data', hdata', hget'⟩ := hholds.file "b" (by decide)
  obtain rfl : data = [1] := by simpa using hdata
  obtain rfl : data' = [2, 3] := by simpa using hdata'
  exact ⟨hok, hget, hget'⟩

end Cassetta
