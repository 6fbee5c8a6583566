import GnomeBuildMeta.Posix.Operations
import GnomeBuildMeta.Posix.RealPath

/-!
# copy-initramfs.py

The script copies a file with everything it depends on into a target root.  It
first builds a graph over path texts and then copies along it, dependencies
first.  The host is only read and the target root only written, so they are kept
apart; nothing is looked up in the target root but the destinations of copies,
which no link of it leads to.
-/

namespace GnomeBuildMeta.Initramfs

open GnomeBuildMeta.Posix

/-- A path as the script has it, split at its slashes. -/
abbrev Text := PathText String

instance Text.lawfulBEq : LawfulBEq Text := inferInstance

/-- Why a run ends early; `outOfFuel` is of the model only. -/
inductive Halt where
  | raised
  | failed (e : Errno)
  | outOfFuel
  deriving DecidableEq, Repr

/-- What a run depends on besides its arguments. -/
structure Env where
  host : FileSystem String
  /-- What reading a regular file yields, by the kind that its name or its first bytes tell. -/
  fileDependencies : Text → Except Halt (List Text)
  /-- The order in which Python goes through the set of dependencies of a path. -/
  order : Text → List Text → List Text
  order_perm : ∀ target deps, (order target deps).Perm deps
  uid : Nat
  gid : Nat

/-! ## Dependencies -/

/-- The path of what a link leads to from its directory. -/
def linkDependency (dir : Path String) (link : Text) : Text :=
  if isabs link then link else absText (normFrom dir link)

def getDependencies (env : Env) (path : Text) : Except Halt (List Text) :=
  match env.host.lstat path with
  | some (.symlink link) => .ok [linkDependency (env.host.realpath (dirname path)) link]
  | _ => if env.host.isdir path then .ok [] else env.fileDependencies path

/-! ## Copying -/

/-- `reallinkpath`, as the location that its text is normalised to. -/
def reallinkpath (host : FileSystem String) (path : Text) : Path String :=
  lexical (host.realpath (dirname path)) (basename path)

def isAlreadyCopied (host root : FileSystem String) (target : Text) : Bool :=
  root.lexists (textOf (reallinkpath host target))

/-- Some result of a system call. -/
def ofErrno {σ : Type} : Except Errno σ → Except Halt σ
  | .ok s => .ok s
  | .error e => .error (.failed e)

/-- `shutil.copy2` of a regular file; the copy belongs to the user. -/
def copy2 (env : Env) (root : FileSystem String) (source dest : Text) :
    Except Halt (FileSystem String) :=
  match env.host.stat source with
  | some (.file stat data) =>
      ofErrno (root.writeFile dest { stat with uid := env.uid, gid := env.gid } data)
  -- what reading a device yields is not part of a file system here
  | _ => .error .raised

/-- `shutil.copystat` of a directory -/
def copystat (env : Env) (root : FileSystem String) (source dest : Text) :
    Except Halt (FileSystem String) :=
  match env.host.stat source with
  | some (.dir perm) => ofErrno (root.chmod dest perm)
  | _ => .error .raised

def copy (env : Env) (source : Option Text) (target : Text) (root : FileSystem String) :
    Except Halt (FileSystem String) :=
  let dest := textOf (reallinkpath env.host target)
  if root.lexists dest then .ok root
  else
    match source with
    | none => ofErrno (root.mkdir dest 0o755)
    | some source =>
        match env.host.readlink source with
        | some link => ofErrno (root.symlink link dest)
        | none =>
            if env.host.isdir source then do
              let root ← ofErrno (root.mkdir dest 0o755)
              copystat env root source dest
            else copy2 env root source dest

/-! ## The graph -/

/-- The dictionaries `dependencies` and `source_of`. -/
structure Graph where
  dependencies : Text → Option (List Text)
  sourceOf : Text → Option (Option Text)

namespace Graph

def empty : Graph := ⟨fun _ => none, fun _ => none⟩

/-- `dependencies[target] = set()` -/
def newSet (g : Graph) (target : Text) : Graph :=
  { g with dependencies := fun t => if t = target then some [] else g.dependencies t }

/-- `dependencies[target].add(dep)` -/
def add (g : Graph) (target dep : Text) : Graph :=
  { g with
    dependencies := fun t =>
      if t = target then (g.dependencies t).map fun deps => deps.insert dep else g.dependencies t }

/-- `source_of[target] = source` -/
def setSource (g : Graph) (target : Text) (source : Option Text) : Graph :=
  { g with sourceOf := fun t => if t = target then some source else g.sourceOf t }

end Graph

/-- What `queue` holds, the last entry first. -/
abbrev Queue := List (Text × Text)

/-- The directories of a destination that the host does not have, up to the first it has. -/
def addParents (host : FileSystem String) : Nat → Graph → (prev dir : Text) → Graph × Text
  | 0, g, prev, dir => (g.add prev dir, dir)
  | fuel + 1, g, prev, dir =>
      if dir ≠ [.empty, .empty] ∧ host.lexists dir = false then
        let g := (g.add prev dir).newSet dir
        let g := if (g.sourceOf dir).isSome then g else g.setSource dir none
        addParents host fuel g dir (dirname dir)
      else (g.add prev dir, dir)

/-- One round of the loop, after `queue.pop()`. -/
def expand (env : Env) (root : FileSystem String) (g : Graph) (source target : Text) (queue : Queue) :
    Except Halt (Graph × Queue) :=
  if isAlreadyCopied env.host root target then .ok (g, queue)
  else if (g.dependencies target).isSome then .ok (g, queue)
  else if env.host.lexists source = false then .ok (g.newSet target, queue)
  else do
    let deps ← getDependencies env source
    let g := deps.foldl (fun g dep => g.add target dep) ((g.newSet target).setSource target source)
    let queue := deps.foldl (fun queue dep => (dep, dep) :: queue) queue
    if source = target then
      return (g.add target (dirname target), (dirname target, dirname target) :: queue)
    else
      -- every directory is shorter than what lies in it
      let (g, d) := addParents env.host (weight target) g target (dirname target)
      return (g, (d, d) :: queue)

def buildGraph (env : Env) (root : FileSystem String) : Nat → Graph → Queue → Except Halt Graph
  | _, g, [] => .ok g
  | 0, _, _ :: _ => .error .outOfFuel
  | fuel + 1, g, (source, target) :: queue => do
      let (g, queue) ← expand env root g source target queue
      buildGraph env root fuel g queue

/-! ## The copies -/

/-- The set `processed`, the target root, and the paths that `copy` was called for. -/
structure Copying where
  processed : List Text
  root : FileSystem String
  copied : List Text

def process (env : Env) (g : Graph) : Nat → Copying → Text → Except Halt Copying
  | 0, _, _ => .error .outOfFuel
  | fuel + 1, c, target =>
      if target ∈ c.processed then .ok c
      else
        let c := { c with processed := target :: c.processed }
        match g.sourceOf target with
        | none => .ok c
        | some source => do
            let deps := env.order target ((g.dependencies target).getD [])
            let c ← deps.foldlM (process env g fuel) c
            let root ← copy env source target c.root
            return { c with root := root, copied := c.copied ++ [target] }

/-- A run for one source and its destination in the target root. -/
def main (env : Env) (fuel : Nat) (source dest : Text) (root : FileSystem String) :
    Except Halt Copying := do
  let g ← buildGraph env root fuel .empty [(source, dest)]
  process env g fuel ⟨[], root, []⟩ dest

end GnomeBuildMeta.Initramfs
