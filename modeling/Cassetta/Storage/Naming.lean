import Cassetta.Storage.PrefixFree

/-!
# Names that the operating system takes

`pathlib` joins whatever it is given. The operating system takes a component of at most 255 bytes
and a path of at most 4095, and neither with a NUL; a call that is to make something at another
path raises `OSError` or `ValueError`, and leaves at most some directories on the way there.
-/

namespace Cassetta

open FileTree

/-! ## Paths -/

/-- How many bytes a component takes, with the slash before it. -/
def stepBytes : Step String → Nat
  | .into k => 1 + k.utf8ByteSize
  | .up => 3

/-- What the operating system asks of one component. -/
def stepTaken : Step String → Bool
  | .into k => k.utf8ByteSize ≤ 255 && !k.toList.contains '\x00'
  | .up => true

/-- A path that the operating system takes. -/
def OsPath (path : List (Step String)) : Prop :=
  (∀ step ∈ path, stepTaken step = true) ∧ (path.map stepBytes).sum ≤ 4095

instance (path : List (Step String)) : Decidable (OsPath path) :=
  inferInstanceAs (Decidable (_ ∧ _))

/-- All that the writer of a bundle makes is taken: its directory, its files and its manifest. -/
structure TakesBundle (Takes : List (Step String) → Prop) (dir : List (Step String))
    (names : List String) : Prop where
  directory : Takes dir
  files : ∀ n ∈ names, Takes (joinPath dir n)
  manifest : Takes (Backend.tmpPath dir)

/-- A host that takes every path takes every bundle. -/
theorem takesBundle_true (dir : List (Step String)) (names : List String) :
    TakesBundle (fun _ => True) dir names := ⟨trivial, fun _ _ => trivial, trivial⟩

/-- Whether a bundle is taken does not depend on the order of its names. -/
theorem takesBundle_congr {Takes : List (Step String) → Prop} {dir : List (Step String)}
    {names names' : List String} (h : ∀ n, n ∈ names ↔ n ∈ names') :
    TakesBundle Takes dir names ↔ TakesBundle Takes dir names' := by
  constructor
  · rintro ⟨hdir, hfiles, hman⟩
    exact ⟨hdir, fun n hn => hfiles n ((h n).mpr hn), hman⟩
  · rintro ⟨hdir, hfiles, hman⟩
    exact ⟨hdir, fun n hn => hfiles n ((h n).mp hn), hman⟩

/-! ## Refusals -/

/-- Nothing but directories has been made. -/
structure Widened (d d' : Disk) : Prop where
  writers : d'.writers = d.writers
  nextWriter : d'.nextWriter = d.nextWriter
  commits : d'.commits = d.commits
  files : d'.tree.fileAt = d.tree.fileAt
  dirs : ∀ q, d.tree.dirAt q = true → d'.tree.dirAt q = true

/-- What the operating system raises at a path that it does not take, and the disk it leaves. -/
structure Refusal where
  error : List (Step String) → StorageError
  left : List (Step String) → Disk → Disk
  unlike : ∀ path q kind, error path ≠ .bundlePathConflict q kind
  widened : ∀ path d, Widened d (left path d)

/-- The simplest: an `OSError`, and nothing on disk. -/
def Refusal.plain : Refusal where
  error _ := .osError .noEntry
  left _ d := d
  unlike := by simp
  widened _ _ := ⟨rfl, rfl, rfl, rfl, fun _ h => h⟩

/-- The path at which a call makes something. -/
def BackendOp.makes (b : Backend) (d : Disk) : BackendOp → Option (List (Step String))
  | .openBundleWrite _ path => some (b.resolve path)
  | .writeFile _ handle name _ => (d.writers handle).map (·.target name)
  | .commit _ handle _ => (d.writers handle).map (Backend.tmpPath ·.bundleDir)
  | _ => none

namespace Backend

variable (b : Backend) (refusal : Refusal)

/-- `open_bundle_write`, where the operating system refuses paths. -/
def openOs (now : Nat) (path : String) (d : Disk) : Except StorageError Nat × Disk :=
  if OsPath (b.resolve path) then b.openBundleWrite now path d
  else (.error (refusal.error (b.resolve path)), refusal.left (b.resolve path) d)

/-- The disk after a call, where the operating system refuses paths. -/
def osStep (d : Disk) (op : BackendOp) : Disk :=
  match (op.makes b d).filter fun path => ¬OsPath path with
  | some path => refusal.left path d
  | none => b.step d op

/-- A call does what it does, or widens the disk at most. -/
theorem osStep_cases (d : Disk) (op : BackendOp) :
    b.osStep refusal d op = b.step d op ∨ Widened d (b.osStep refusal d op) := by
  unfold osStep
  split
  · exact .inr (refusal.widened _ _)
  · exact .inl rfl

end Backend

/-- Directories alone make no bundle and part none. -/
theorem PrefixFree.widened {b : Backend} {d d' : Disk} (h : PrefixFree b d) (hd : Widened d d') :
    PrefixFree b d' := h.of_fileAt hd.files hd.writers hd.nextWriter

end Cassetta
