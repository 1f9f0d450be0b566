import Cassetta.Claims.Contract
import Cassetta.Guarantee.Claiming
import Cassetta.Storage.Removal

/-!
# What always stands

Three things hold of every state a server can reach: the names in its tree are file names, its
sidecars and locks come in pairs, and the `jti` of every sidecar is used up.
-/

namespace Cassetta

open Prog FileTree

variable {cfg : Config} {env : Environment}

/-! ## Names -/

/-- Every entry has a proper name, and every open writer a proper directory. -/
structure WellNamed (d : Disk) : Prop where
  tree : Named d.tree
  writers : ∀ k w, d.writers k = some w → Proper w.bundleDir

namespace WellNamed

variable {b : Backend} {d : Disk}

/-- Closing a writer, or noting down what it has written. -/
theorem update (h : WellNamed d) {t : DataTree} (ht : Named t) (now : Nat) {k : Nat}
    {o : Option Writer} (ho : ∀ w ∈ o, Proper w.bundleDir) :
    WellNamed { d.setTree now t with writers := Function.update d.writers k o } := by
  refine ⟨ht, fun k' w hw => ?_⟩
  by_cases hk : k' = k
  · subst hk
    exact ho w (by simpa using hw)
  · exact h.writers k' w (by simpa [Function.update_of_ne hk] using hw)

/-- A named tree keeps a disk well named. -/
theorem setTree (h : WellNamed d) {t : DataTree} (ht : Named t) (now : Nat) :
    WellNamed (d.setTree now t) := ⟨ht, h.writers⟩

/-- An open keeps a disk well named. -/
theorem openBundleWrite (h : WellNamed d) (hroot : ∀ k ∈ b.root, FileName k) (now : Nat)
    (path : String) : WellNamed (b.openBundleWrite now path d).2 := by
  have hproper := Backend.proper_resolve hroot path
  rcases Backend.openBundleWrite_cases (b := b) now path d with
    ⟨e, t, heq, hg⟩ | ⟨e, heq⟩ | ⟨t, t', -, hg, hmk, heq⟩
  · rw [heq]
    exact h.setTree (h.tree.grown hproper hg) now
  · rw [heq]
    exact h
  · rw [heq]
    have htree : Named t' :=
      (h.tree.grown hproper hg).grown hproper (Tree.grown_of_mkdir hmk)
    refine ⟨htree, fun k w hw => ?_⟩
    by_cases hk : k = d.nextWriter
    · subst hk
      obtain rfl : ⟨b.resolve path, []⟩ = w := by simpa using hw
      exact hproper
    · exact h.writers k w (by simpa [Function.update_of_ne hk] using hw)

/-- A write keeps a disk well named. -/
theorem writeFile (h : WellNamed d) (now handle : Nat) (name : String) (data : Bytes) :
    WellNamed (Backend.writeFile now handle name data d).2 := by
  rcases Backend.writeFile_cases now handle name data d with
    ⟨e, heq⟩ | ⟨w, hw, -, -, ⟨e, t, heq, hg⟩ | ⟨t, t', hg, hwr, heq⟩⟩
  · rw [heq]
    exact h
  · rw [heq]
    exact h.setTree (h.tree.grown (proper_joinPath (h.writers handle w hw) name) hg) now
  · rw [heq]
    have hproper : Proper (w.target name) := proper_joinPath (h.writers handle w hw) name
    refine h.update ((h.tree.grown hproper hg).write hproper hwr) now fun w' hw' => ?_
    obtain rfl := Option.some.inj hw'
    exact h.writers handle w hw

/-- A commit keeps a disk well named. -/
theorem commit (h : WellNamed d) (now handle : Nat) (m : BundleMeta) :
    WellNamed (Backend.commit now handle m d).2 := by
  unfold Backend.commit
  split
  · exact h
  rename_i w hw
  have hdir := h.writers handle w hw
  have htmp : Proper (Backend.tmpPath w.bundleDir) :=
    hdir.append fun k hk => by simp at hk; subst hk; decide
  have hmeta : Proper (Backend.metaPath w.bundleDir) :=
    hdir.append fun k hk => by simp at hk; subst hk; decide
  have hne :
    normalize (Backend.tmpPath w.bundleDir) ≠ normalize (Backend.metaPath w.bundleDir) := by
    simp [Backend.normalize_tmpPath, Backend.normalize_metaPath, Backend.tmp_ne_manifest]
  split
  · exact h
  split
  · exact h
  rename_i t ht
  have htree := h.tree.write htmp ht
  split
  · exact h.setTree htree now
  · rename_i t' hr
    have hup :=
      (h.setTree htree now).update (htree.rename hmeta hne hr) now (k := handle) (o := none)
      (by simp)
    exact ⟨hup.tree, hup.writers⟩

/-- An abort keeps a disk well named. -/
theorem abort (h : WellNamed d) (now handle : Nat) : WellNamed (Backend.abort now handle d) := by
  unfold Backend.abort
  split
  · exact h
  · exact h.update (h.tree.rmtree _) now (by simp)

/-- A delete keeps a disk well named. -/
theorem deleteBundle (h : WellNamed d) (now : Nat) (path : String) :
    WellNamed (b.deleteBundle now path d).2 := by
  refine ⟨Backend.named_deleteBundle h.tree now path, fun k w hw => ?_⟩
  rw [(Backend.deleteBundle_rest now path d).1] at hw
  exact h.writers k w hw

/-- A call keeps a disk well named. -/
theorem exec {s : Server} (h : WellNamed s.disk) (hroot : ∀ k ∈ cfg.backend.root, FileName k)
    (c : Call) : WellNamed (Cassetta.exec cfg env c s).2.disk := by
  cases c with
  | openBundleWrite path => exact h.openBundleWrite hroot s.wall path
  | writeFile handle name data => exact h.writeFile s.wall handle name data
  | commit handle m => exact h.commit s.wall handle m
  | abort handle => exact h.abort s.wall handle
  | deleteBundle path => exact h.deleteBundle s.wall path
  | _ => exact h

end WellNamed

/-! ## All three -/

/-- What holds of a server whenever no handler is at work. -/
structure Standing (s : Server) : Prop where
  named : WellNamed s.disk
  paired : s.claims.Paired
  used : ∀ c ∈ s.claims.sidecars, c.jti < s.nextId

/-- Both readings of a claim-store call leave the same store. -/
theorem execClaim_claims (c : ClaimCall) (s : Server) :
    (execClaim c s).2.claims = (s.claims.call c).2 := by
  cases c with
  | issue claim =>
    simp only [ClaimStore.call]
    split
    · rename_i cs' heq
      exact congrArg Prod.snd heq
    · rename_i e cs' heq
      exact congrArg Prod.snd heq
  | get jti =>
    simp only [ClaimStore.call]
    split <;> rfl
  | markFetched jti name =>
    simp only [ClaimStore.call]
    split
    · rename_i claim cs' heq
      exact congrArg Prod.snd heq
    · rename_i e cs' heq
      exact congrArg Prod.snd heq
  | delete jti => rfl
  | iterAll => rfl

/-- An event keeps a server standing. -/
theorem Standing.step {sys : System} (hroot : ∀ k ∈ cfg.backend.root, FileName k)
    (h : Standing sys.server) (e : Event) : Standing (sys.step cfg env e).server := by
  have htrue : sys.Calls cfg env (fun _ _ => True) e := wpE_trivial _
  refine ⟨?_, ?_, ?_⟩
  · refine System.step_server (I := fun s => WellNamed s.disk) ?_ ?_ htrue h.named
    · rintro s (c | c) hs -
      · exact hs.exec hroot c
      · show WellNamed (execClaim c s).2.disk
        rwa [execClaim_disk]
    · intro s hs
      rwa [Event.outside_disk]
  · refine System.step_server (I := fun s => s.claims.Paired) ?_ ?_ htrue h.paired
    · rintro s (c | c) hs -
      · show (exec cfg env c s).2.claims.Paired
        rwa [exec_claims]
      · show (execClaim c s).2.claims.Paired
        rw [execClaim_claims]
        exact hs.call c
    · intro s hs
      rwa [Event.outside_claims]
  · obtain ⟨-, hid, hfrom⟩ := @System.step_claims cfg env sys h.paired.toSound e
    intro c hc
    rcases hfrom c hc with ⟨c₀, hc₀, hj, -⟩ | ⟨-, -, hlt⟩
    · rw [hj]
      exact (h.used c₀ hc₀).trans_le hid
    · exact hlt

/-- Whatever happens, from a start where it does. -/
theorem Standing.run {sys : System} (hroot : ∀ k ∈ cfg.backend.root, FileName k)
    (h : Standing sys.server) (events : List Event) :
    Standing (sys.run cfg env events).server :=
  Runs.run_invariant (I := fun sys : System => Standing sys.server)
    (fun _ e hs => hs.step hroot e) h
    events

end Cassetta
