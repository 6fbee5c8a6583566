import GnomeBuildMeta.Posix.Resolve

/-!
# Permission bits

Changing permission bits moves nothing: every text still leads to the same
location.
-/

namespace GnomeBuildMeta.Posix

variable {α : Type}

namespace Node

@[simp] theorem setPerm_setPerm (perm old : Nat) (node : Node α) :
    (node.setPerm old).setPerm perm = node.setPerm perm := by
  cases node <;> rfl

end Node

/-- A tree without its permission bits. -/
def Tree.shape (look : Tree α) : Tree α := fun p => (look p).map (Node.setPerm 0)

theorem scan_shape (look : Tree α) (follow : Bool) (cwd : Path α) (text : PathText α) :
    scan look.shape follow cwd text = scan look follow cwd text := by
  induction text generalizing cwd with
  | nil => rfl
  | cons piece rest ih =>
      cases piece with
      | empty | cur => exact ih cwd
      | up => exact ih cwd.tail
      | name n =>
          cases found : look (n :: cwd) with
          | none =>
              have found' : look.shape (n :: cwd) = none := by simp [Tree.shape, found]
              simp only [scan, found, found']
          | some node =>
              have found' : look.shape (n :: cwd) = some (node.setPerm 0) := by
                simp [Tree.shape, found]
              cases node with
              | dir perm =>
                  simp only [scan, found, found', Node.setPerm]
                  exact ih (n :: cwd)
              | file _ _ | symlink _ | chardev _ _ =>
                  simp only [scan, found, found', Node.setPerm]

variable [DecidableEq α]

theorem walk_shape (look : Tree α) (follow : Bool) (budget : Nat) (cwd : Path α)
    (text : PathText α) : walk look.shape follow budget cwd text = walk look follow budget cwd text := by
  induction budget generalizing cwd text with
  | zero => simp only [walk, scan_shape]
  | succ budget ih =>
      simp only [walk, scan_shape]
      cases scan look follow cwd text with
      | done result => rfl
      | link dir target rest => exact ih _ _

namespace FileSystem

/-- The same entries, links and contents. -/
def SameShape (fs fs' : FileSystem α) : Prop := Tree.shape fs.get = Tree.shape fs'.get

theorem SameShape.locate {fs fs' : FileSystem α} (same : fs.SameShape fs') (follow : Bool)
    (text : PathText α) : fs.locate follow text = fs'.locate follow text := by
  rw [FileSystem.locate, ← walk_shape, same, walk_shape, FileSystem.locate]

theorem SameShape.isSome_get {fs fs' : FileSystem α} (same : fs.SameShape fs') (p : Path α) :
    (fs.get p).isSome = (fs'.get p).isSome := by
  have here := congrArg Option.isSome (congrFun same p)
  simpa [Tree.shape] using here

theorem SameShape.mem_listdir {fs fs' : FileSystem α} (same : fs.SameShape fs') (p : Path α)
    (n : α) : n ∈ fs.listdir p ↔ n ∈ fs'.listdir p := by
  rw [mem_listdir_iff, mem_listdir_iff, ← Option.isSome_iff_exists, ← Option.isSome_iff_exists,
    same.isSome_get]

theorem sameShape_chmodAt (fs : FileSystem α) (p : Path α) (perm : Nat) :
    fs.SameShape (fs.chmodAt p perm) := by
  funext q
  rw [Tree.shape, Tree.shape, get_chmodAt]
  split
  · cases fs.get q <;> simp
  · rfl

/-- Setting the bits of several entries to one value. -/
theorem get_chmodAll (fs : FileSystem α) (locations : List (Path α)) (perm : Nat) (q : Path α) :
    (locations.foldl (fun fs p => fs.chmodAt p perm) fs).get q =
      if q ∈ locations then (fs.get q).map (Node.setPerm perm) else fs.get q := by
  induction locations generalizing fs with
  | nil => rfl
  | cons p locations ih =>
      rw [List.foldl_cons, ih, get_chmodAt]
      by_cases here : q = p
      · subst here
        cases fs.get q <;> simp
      · simp [here]

theorem sameShape_chmodAll (fs : FileSystem α) (locations : List (Path α)) (perm : Nat) :
    fs.SameShape (locations.foldl (fun fs p => fs.chmodAt p perm) fs) := by
  induction locations generalizing fs with
  | nil => rfl
  | cons p locations ih => exact (fs.sameShape_chmodAt p perm).trans (ih _)

end FileSystem

end GnomeBuildMeta.Posix
