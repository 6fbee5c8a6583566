import GnomeBuildMeta.Initramfs.Dependable
import GnomeBuildMeta.Initramfs.FileDependencies

/-!
# Lookups in the initramfs

What a file needs is looked up: a library in one directory after the other, the
first library of a feature that is there, a firmware file under one extension or
another, a unit or its template.  The script does this on the host.  In a target
root that careful runs have filled, the same lookups come to the same paths.
-/

namespace GnomeBuildMeta.Initramfs

open GnomeBuildMeta.Control GnomeBuildMeta.Posix GnomeBuildMeta.Words

/-! ## Fewer files -/

/-- What is looked up and is there is still there when the files of `e` become those of `e'`. -/
structure StillThere (e e' : Exists) (paths : List Chars) : Prop where
  fewer : ∀ p, e' p = true → e p = true
  kept : ∀ p ∈ paths, e p = true → e' p = true

/-- A lookup whose paths are still there comes to them again. -/
def Carries (e e' : Exists) (lookup : Exists → Raising (List Chars)) : Prop :=
  ∀ paths, lookup e = .ok paths → StillThere e e' paths → lookup e' = .ok paths

variable {e e' : Exists} {tools : Tools}

theorem StillThere.mono {paths some' : List Chars} (there : StillThere e e' paths) (fewer : some' ⊆ paths) :
    StillThere e e' some' :=
  ⟨there.fewer, fun p inside => there.kept p (fewer inside)⟩

/-- A lookup for each element of a list. -/
theorem Carries.each {β : Type} (lookup : Exists → β → Raising (List Chars)) {list : List β}
    (each : ∀ b ∈ list, Carries e e' fun e => lookup e b) :
    Carries e e' fun e => list.mapM (lookup e) >>= fun paths => pure paths.flatten := by
  intro paths done there
  obtain ⟨lists, found, last⟩ := bind_ok_iff.mp done
  cases last
  refine bind_ok_iff.mpr ⟨lists, mapM_ok_congr found fun b inside some' listed one => ?_, rfl⟩
  exact each b inside some' one (there.mono fun p member => List.mem_flatten.mpr ⟨some', listed, member⟩)

namespace Env.Alike

variable {env env' : Env} {root : FileSystem String} {source : Text}

theorem reproduced (alike : env.Alike env') {d : Text} :
    Reproduced env' root d ↔ Reproduced env root d := by
  unfold Reproduced
  simp only [alike.host, alike.copyOf]

theorem careful (alike : env.Alike env') (careful : Careful env root source) : Careful env' root source where
  skipped t d visited needs copied present := by
    rw [alike.host] at copied present
    exact alike.reproduced.mpr (careful.skipped t d
      (alike.symm.visited (fun t => by rw [alike.host]) visited) (alike.symm.dep needs) copied present)
  noDetour t link visited found relative := by
    rw [alike.host] at found
    exact careful.noDetour t link (alike.symm.visited (fun t => by rw [alike.host]) visited) found relative

theorem between (alike : env.Alike env') {s : State} (between : Between env s) : Between env' s where
  sound := ⟨alike.mirrors between.sound.mirrors, by
    unfold LinksComplete
    rw [alike.host]
    exact between.sound.links⟩
  dependencies t member d needs := by
    unfold Complete
    rw [alike.host]
    exact between.dependencies t member d (alike.symm.dep needs)

end Env.Alike

/-- A careful run that raises nothing, in a process with orders of its own. -/
def CarefulStep (env : Env) (s : State) (source : Text) (s' : State) : Prop :=
  Careful env s.root source ∧ ∃ env', env.Alike env' ∧ Step env' s source s'

variable {host : FileSystem String} {hash : HashOrder} {uid gid : Nat}

end GnomeBuildMeta.Initramfs
