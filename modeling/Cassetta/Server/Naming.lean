import Cassetta.Server.Faults
import Cassetta.Server.Looking
import Cassetta.Storage.Naming

/-!
# A server on an operating system

The calls that make something raise where the operating system does not take the path. The server
of this module does so, and is the one behind the calls everywhere else; a program that makes
nothing runs on both alike, and one that goes through on it goes through on the other.
-/

namespace Cassetta

open FileTree Prog

/-! ## A server that refuses paths -/

/-- The path at which a call makes something. -/
def Call.makes (b : Backend) (d : Disk) : Call → Option (List (Step String))
  | .openBundleWrite path => some (b.resolve path)
  | .writeFile handle name _ => (d.writers handle).map (·.target name)
  | .commit handle _ => (d.writers handle).map (Backend.tmpPath ·.bundleDir)
  | _ => none

/-- A call that makes nothing. -/
def Call.Makeless : Call → Prop
  | .openBundleWrite _ | .writeFile .. | .commit .. => False
  | _ => True

/-- A call that only looks makes nothing. -/
theorem Call.Looks.makeless (c : Call) (h : c.Looks) : c.Makeless := by
  cases c <;> trivial

private theorem Call.Makeless.makes_eq {b : Backend} {d : Disk} {c : Call} (h : c.Makeless) :
    c.makes b d = none := by
  cases c <;> first | rfl | cases h

/-- Answer a call, where the operating system refuses paths. -/
def execOs (cfg : Config) (env : Environment) (refusal : Refusal) (c : Call) (s : Server) :
    c.Answer × Server :=
  match c.raises, (c.makes cfg.backend s.disk).filter fun path => ¬OsPath path with
  | some raise, some path => (raise (refusal.error path), s.setDisk (refusal.left path s.disk))
  | _, _ => exec cfg env c s

/-- A server that answers as the one behind the calls, but for calls that make something at a path
that is not taken: these raise. -/
structure Refusing (h : (c : Call) → Server → c.Answer × Server) (cfg : Config)
    (env : Environment) (Takes : List (Step String) → Prop) : Prop where
  same : ∀ c s, (∀ path, c.makes cfg.backend s.disk = some path → Takes path) →
    h c s = exec cfg env c s
  refuse : ∀ c s path, c.makes cfg.backend s.disk = some path → ¬Takes path →
    ∃ raise e d, c.raises = some raise ∧ h c s = (raise e, s.setDisk d)

/-- The server behind the calls takes every path. -/
theorem refusing_exec (cfg : Config) (env : Environment) :
    Refusing (exec cfg env) cfg env fun _ => True :=
  ⟨fun _ _ _ => rfl, fun _ _ _ _ hno => absurd trivial hno⟩

/-- The operating system refuses the others. -/
theorem refusing_execOs (cfg : Config) (env : Environment) (refusal : Refusal) :
    Refusing (execOs cfg env refusal) cfg env OsPath := by
  constructor
  · intro c s htakes
    have hnone : (c.makes cfg.backend s.disk).filter (fun path => ¬OsPath path) = none := by
      rw [Option.filter_eq_none_iff]
      intro path hpath
      simpa using htakes path hpath
    rw [execOs, hnone]
    cases c.raises <;> rfl
  · intro c s path hpath hno
    have hsome : (c.makes cfg.backend s.disk).filter (fun path => ¬OsPath path) = some path := by
      rw [hpath]
      simp [hno]
    have hraises : ∃ raise, c.raises = some raise := by
      cases c with
      | openBundleWrite path => exact ⟨_, rfl⟩
      | writeFile handle name data => exact ⟨_, rfl⟩
      | commit handle m => exact ⟨_, rfl⟩
      | _ => cases hpath
    obtain ⟨raise, hraise⟩ := hraises
    refine ⟨raise, refusal.error path, refusal.left path s.disk, hraise, ?_⟩
    rw [execOs, hraise, hsome]

namespace Refusing

variable {cfg : Config} {env : Environment} {h : (c : Call) → Server → c.Answer × Server}
  {Takes : List (Step String) → Prop} {s : Server} {α : Type}

/-- A program that makes nothing runs as on the server behind the calls. -/
theorem runE_eq (hh : Refusing h cfg env Takes) {x : Handler α} (hx : OnlyE Call.Makeless x)
    (s : Server) : runE h x s = runE (exec cfg env) x s := by
  have hsame : ∀ (s : Server) (c : Call), c.Makeless → h c s = exec cfg env c s := by
    refine fun s c hc => hh.same c s fun path hpath => ?_
    rw [hc.makes_eq] at hpath
    cases hpath
  exact runE_eq_of_guarded hsame (hx.wpE s)

private theorem returns_makeless (hh : Refusing h cfg env Takes) {x : Handler α}
    (hx : OnlyE Call.Makeless x) {Q : α → Server → Prop} :
    Returns h x Q s ↔ Returns (exec cfg env) x Q s := by
  rw [returns_iff_run, returns_iff_run, hh.runE_eq hx]

/-- A property that no refusal has is one of the answer to a call that makes something exactly if
the path is taken and it is one of the answer behind. -/
theorem answered_iff (hh : Refusing h cfg env Takes) {c : Call} {path : List (Step String)}
    (hmakes : c.makes cfg.backend s.disk = some path) {P : c.Answer × Server → Prop}
    (hfail : ∀ raise, c.raises = some raise → ∀ e d, ¬P (raise e, s.setDisk d)) :
    P (h c s) ↔ Takes path ∧ P (exec cfg env c s) := by
  by_cases htakes : Takes path
  · have hsame : h c s = exec cfg env c s := by
      apply hh.same
      intro p hp
      rwa [← Option.some.inj (hmakes.symm.trans hp)]
    rw [hsame, and_iff_right htakes]
  · obtain ⟨raise, e, d, hraise, hrefused⟩ := hh.refuse c s path hmakes htakes
    rw [hrefused]
    exact iff_of_false (hfail raise hraise e d) fun hno => htakes hno.1

/-- Opening goes through where the path is taken and the bundle can be opened, if what comes after
it does not go on from a failure. -/
theorem returns_openBundleWrite (hh : Refusing h cfg env Takes) {path : String}
    {f : Except StorageError Nat → Handler α} {Q : α → Server → Prop}
    (hf : ∀ e s', ¬Returns h (f (.error e)) Q s') :
    Returns h (openBundleWrite path >>= f) Q s ↔ Takes (cfg.backend.resolve path) ∧
      ∃ k d', cfg.backend.openBundleWrite s.wall path s.disk = (.ok k, d') ∧
        Returns h (f (.ok k)) Q (s.setDisk d') := by
  have hcall : Returns h (openBundleWrite path >>= f) Q s ↔
      True ∧ Returns h (f (h (.openBundleWrite path) s).1) Q (h (.openBundleWrite path) s).2 :=
    wpE_bind _ _ _
  have hanswer := hh.answered_iff (c := .openBundleWrite path) (s := s) rfl
    (P := fun r => Returns h (f r.1) Q r.2) (by rintro _ ⟨⟩ e d; exact hf e _)
  rw [hcall, true_and, hanswer]
  apply and_congr_right
  intro _
  rcases hopen : cfg.backend.openBundleWrite s.wall path s.disk with ⟨r, d'⟩
  have hexec : exec cfg env (.openBundleWrite path) s = (r, s.setDisk d') := by
    rw [exec, hopen]
    rfl
  rw [hexec]
  cases r with
  | ok k => simp
  | error e => simpa using hf e (s.setDisk d')

/-- A file is written where the host takes its path and the storage writes it. -/
theorem returns_writeFile (hh : Refusing h cfg env Takes) {handle : Nat} {w : Writer}
    (hw : s.disk.writers handle = some w) {name : String} {data : Bytes}
    {Q : Nat → Server → Prop} :
    Returns h (writeFile handle name data) Q s ↔ Takes (w.target name) ∧
      ∃ n d', Backend.writeFile s.wall handle name data s.disk = (.ok n, d') ∧
        Q n (s.setDisk d') := by
  have hmakes : (Call.writeFile handle name data).makes cfg.backend s.disk =
      some (w.target name) := by
    rw [Call.makes, hw]
    rfl
  have hcall : ∀ h : (c : Call) → Server → c.Answer × Server,
      Returns h (writeFile handle name data) Q s ↔
        True ∧ wpE h (fun _ _ => True) (orRaise (h (.writeFile handle name data) s).1) Q
          (fun _ _ => False) (h (.writeFile handle name data) s).2 := fun h => wpE_bind _ _ _
  have hanswer := hh.answered_iff hmakes (P := fun r =>
    wpE h (fun _ _ => True) (orRaise r.1) Q (fun _ _ => False) r.2) (by rintro _ ⟨⟩ e d h; exact h)
  rw [← @Cassetta.returns_writeFile cfg env, hcall, hcall, true_and, true_and, hanswer]
  exact and_congr_right fun _ => wpE_orRaise_congr

/-- A bundle is committed where the host takes its manifest and the storage commits it. -/
theorem returns_commit (hh : Refusing h cfg env Takes) {handle : Nat} {w : Writer}
    (hw : s.disk.writers handle = some w) {m : BundleMeta} {Q : Unit → Server → Prop} :
    Returns h (commit handle m) Q s ↔ Takes (Backend.tmpPath w.bundleDir) ∧
      ∃ d', Backend.commit s.wall handle m s.disk = (.ok (), d') ∧ Q () (s.setDisk d') := by
  have hmakes : (Call.commit handle m).makes cfg.backend s.disk =
      some (Backend.tmpPath w.bundleDir) := by
    rw [Call.makes, hw]
    rfl
  have hcall : ∀ h : (c : Call) → Server → c.Answer × Server,
      Returns h (commit handle m) Q s ↔
        True ∧ wpE h (fun _ _ => True) (orRaise (h (.commit handle m) s).1) Q
          (fun _ _ => False) (h (.commit handle m) s).2 := fun h => wpE_bind _ _ _
  have hanswer := hh.answered_iff hmakes (P := fun r =>
    wpE h (fun _ _ => True) (orRaise r.1) Q (fun _ _ => False) r.2) (by rintro _ ⟨⟩ e d h; exact h)
  rw [← @Cassetta.returns_commit cfg env, hcall, hcall, true_and, true_and, hanswer]
  exact and_congr_right fun _ => wpE_orRaise_congr

/-- The clock is read as on the server behind the calls. -/
theorem returns_now (hh : Refusing h cfg env Takes) {f : Nat → Handler α} {Q : α → Server → Prop} :
    Returns h (now >>= f) Q s ↔ Returns h (f s.reading) Q (exec cfg env .now s).2 := by
  have hrun : runE h now s = (.ok s.reading, (exec cfg env .now s).2) :=
    hh.runE_eq (onlyE_performE (c := Call.now) trivial) s
  exact returns_bind hrun

/-- The check of a token makes nothing. -/
theorem returns_verifyToken (hh : Refusing h cfg env Takes) {claims : Claims} {key : SigningKey}
    {refusal : TokenError → Exc} {Q : Claims → Server → Prop} (ht : claims.Timely s.reading) :
    Returns h (verifyToken (.signed claims key) refusal) Q s ↔
      (key = s.slots.primary ∨ (resolveSecondary s.slots s.mono).1 = some key) ∧
        Q claims (s.verified cfg env) := by
  have hmakeless : OnlyE Call.Makeless (verifyToken (.signed claims key) refusal) := by
    refine OnlyE.bind (onlyE_performE trivial) fun keys => ?_
    refine OnlyE.bind (onlyE_performE trivial) fun t => ?_
    split <;> trivial
  rw [hh.returns_makeless hmakeless]
  exact Cassetta.returns_verifyToken ht

end Refusing

end Cassetta
