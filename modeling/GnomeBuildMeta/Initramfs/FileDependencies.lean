import GnomeBuildMeta.Initramfs.Analysis
import GnomeBuildMeta.Initramfs.HashOrder
import GnomeBuildMeta.Initramfs.UnitDependencies
import GnomeBuildMeta.Posix.Text
import GnomeBuildMeta.Words.Utf8

/-!
# What a file depends on

A unit is told by its extension, everything else by its first bytes: an ELF file
names libraries, features, modules, firmware and its interpreter, and a compressed
file is looked into.  What elftools, the decompressors, the JSON parser and
`modinfo` return is given.
-/

namespace GnomeBuildMeta.Initramfs

open GnomeBuildMeta.Control GnomeBuildMeta.Posix GnomeBuildMeta.Words

abbrev Bytes := List UInt8

/-- A call that may raise; which exception it is makes no difference to a run. -/
abbrev Raising := Except Unit

/-- What `os.path.exists` tells. -/
abbrev Exists := Chars → Bool

def raiseNone {α : Type} : Option α → Raising α
  | some a => .ok a
  | none => .error ()

/-- `bytes.decode('utf-8')` -/
def decode (bytes : Bytes) : Raising Chars := raiseNone (decodeUtf8 bytes)

/-! ## What the libraries return -/

structure Feature where
  feature : Option Chars
  sonames : List Chars

structure Note where
  type : Nat
  name : Chars
  desc : Bytes

/-- What is read of an ELF file; a section that is missing or of another kind has no value. -/
structure Elf where
  needed : Option (List Chars)
  dlopenNotes : Option (List Note)
  modinfo : Option Bytes
  interps : List Chars

structure Tools where
  libdirs : List Chars
  /-- `DLOPEN_NOTE_IGNORE`, split at its colons -/
  ignores : List Chars
  readElf : Bytes → Option Elf
  /-- the description of a note as text without its trailing NULs, through `json.loads` -/
  loads : Bytes → Option (List Feature)
  xz : Bytes → Option Bytes
  zstd : Bytes → Option Bytes
  /-- `modinfo -0 -n` for the kernel version -/
  modinfo : Chars → Option Chars
  /-- how deep Python lets the calls for compressed files go -/
  depth : Nat

/-! ## The resolvers, with the root `/` -/

def libraryAt (libdir name : Chars) : Chars := joinPath (joinPath ['/'] (relpathRoot libdir)) name

/-- `LibraryResolver.resolve_library`; without any `--libdir` there is nothing to go through. -/
def resolveLibrary (exists? : Exists) (libdirs : List Chars) (name : Chars) : Raising Chars :=
  match libdirs with
  | [] => .error ()
  | first :: _ => .ok (((libdirs.map (libraryAt · name)).find? exists?).getD (libraryAt first name))

/-- `ModuleResolver.resolve_module` -/
def resolveModule (tools : Tools) (name : Bytes) : Raising Chars := do
  let name ← decode name
  let output ← raiseNone (tools.modinfo name)
  return output.rdropWhile (· = '\x00')

def firmwareDir : Chars := "/usr/lib/firmware".toList

/-- `ModuleResolver.resolve_firmware`; the last resort has an extension of its own. -/
def resolveFirmware (exists? : Exists) (path : Bytes) : Raising Chars := do
  let name ← decode path
  let path := joinPath firmwareDir name
  return (([[], ".xz".toList, ".zst".toList].map (path ++ ·)).find? exists?).getD (path ++ ".zstd".toList)

/-! ## ELF files -/

/-- The first library of a feature that is there. -/
def findLibrary (exists? : Exists) (libdirs : List Chars) : List Chars → Raising (Option Chars)
  | [] => .ok none
  | soname :: rest => do
      let resolved ← resolveLibrary exists? libdirs soname
      if exists? resolved then return some resolved else findLibrary exists? libdirs rest

/-- A feature that is not ignored needs one of its libraries. -/
def featureDependencies (tools : Tools) (exists? : Exists) (feature : Feature) : Raising (List Chars) :=
  if feature.feature.any (· ∈ tools.ignores) then .ok []
  else do
    let library ← findLibrary exists? tools.libdirs feature.sonames
    let library ← raiseNone library
    return [library]

def noteDependencies (tools : Tools) (exists? : Exists) (note : Note) : Raising (List Chars) :=
  if note.type ≠ 0x407c0c0a ∨ note.name ≠ "FDO".toList then .ok []
  else do
    let doc ← raiseNone (tools.loads note.desc)
    let paths ← doc.mapM (featureDependencies tools exists?)
    return paths.flatten

/-- `depends` -/
def dependsKey : Bytes := [0x64, 0x65, 0x70, 0x65, 0x6e, 0x64, 0x73]

/-- `firmware` -/
def firmwareKey : Bytes := [0x66, 0x69, 0x72, 0x6d, 0x77, 0x61, 0x72, 0x65]

/-- What a key of `.modinfo` makes of its value. -/
def entryDependencies (tools : Tools) (exists? : Exists) (entry : Bytes) : Raising (List Chars) :=
  let key := entry.takeWhile (· ≠ 61)
  let value := if 61 ∈ entry then some (entry.dropWhile (· ≠ 61)).tail else none
  if key = dependsKey then do
    let value ← raiseNone value
    if value = [] then return [] else (value.splitOn 44).mapM (resolveModule tools)
  else if key = firmwareKey then do
    let value ← raiseNone value
    (value.splitOn 44).mapM (resolveFirmware exists?)
  else return []

/-- `get_dependencies_modules` of a section -/
def getDependenciesModules (tools : Tools) (exists? : Exists) (modinfo : Bytes) : Raising (List Chars) := do
  let paths ← (words (· = 0) modinfo).mapM (entryDependencies tools exists?)
  return paths.flatten

def getDependenciesElf (tools : Tools) (exists? : Exists) (data : Bytes) : Raising (List Chars) := do
  let elf ← raiseNone (tools.readElf data)
  let libs ← (elf.needed.getD []).mapM (resolveLibrary exists? tools.libdirs)
  let dlopen ← (elf.dlopenNotes.getD []).mapM (noteDependencies tools exists?)
  let modules ← getDependenciesModules tools exists? (elf.modinfo.getD [])
  return libs ++ dlopen.flatten ++ modules ++ elf.interps

/-! ## Files of any kind -/

def elfMagic : Bytes := [0x7f, 0x45, 0x4c, 0x46]

def xzMagic : Bytes := [0xfd, 0x37, 0x7a, 0x58, 0x5a]

def zstdMagic : Bytes := [0x28, 0xb5, 0x2f, 0xfd]

/-- `get_dependencies_file`, `get_dependencies_xz` and `get_dependencies_zstd` -/
def getDependenciesFile (tools : Tools) (exists? : Exists) : Nat → Bytes → Raising (List Chars)
  | 0, _ => .error ()
  | depth + 1, data =>
      if data.take 4 = elfMagic then getDependenciesElf tools exists? data
      else if data.take 5 = xzMagic then do
        let inner ← raiseNone (tools.xz data)
        getDependenciesFile tools exists? depth inner
      else if data.take 4 = zstdMagic then do
        let inner ← raiseNone (tools.zstd data)
        getDependenciesFile tools exists? depth inner
      else return []

def unitExtensions : List Chars :=
  [".service", ".socket", ".mount", ".automount", ".path", ".slice", ".target", ".timer"].map String.toList

/-- What `get_dependencies` yields for the content of a file with that extension. -/
def analyse (tools : Tools) (set : SetOrder) (exists? : Exists) (ext : Chars) (data : Bytes) :
    Raising (List Chars) :=
  if ext ∈ unitExtensions then do
    let content ← decode data
    (getDependenciesSystemd (systemdResolver exists? ['/']) set content).mapError fun _ => ()
  else getDependenciesFile tools exists? tools.depth data

/-! ## The analysis on a host -/

def pathOf (path : Chars) : Text := (path.splitOn '/').map pieceOf

def existsIn (fs : FileSystem String) : Exists := fun path => (fs.stat (pathOf path)).isSome

/-- The extension of a path is that of its last piece. -/
def extOf (t : Text) : Chars :=
  match basename t with
  | .name n => (splitext n.toList).2
  | _ => []

/-- The orders in which a process goes through its sets. -/
structure HashOrder where
  units : SetOrder
  order : Text → List Text → List Text
  order_perm : ∀ target deps, (order target deps).Perm deps

/-- What a run depends on: the host, the libraries, and the process. -/
def Tools.env (tools : Tools) (host : FileSystem String) (hash : HashOrder) (uid gid : Nat) : Env where
  host := host
  fileDependencies t :=
    -- a link does not come here
    match host.lstat t with
    | some (.file _ data) =>
        ((analyse tools hash.units (existsIn host) (extOf t) data).map fun paths => paths.map pathOf).mapError
          fun _ => .raised
    | _ => .error .raised
  order := hash.order
  order_perm := hash.order_perm
  uid := uid
  gid := gid

/-- The last piece of a path to something other than a directory. -/
theorem basename_of_leaf {env : Env} {t : Text} {node : Node String}
    (found : env.host.lstat t = some node) (leaf : node.isDir = false) :
    ∃ n, basename t = .name n ∧ reallinkpath env.host t = n :: env.host.realpath (dirname t) := by
  obtain ⟨n, location⟩ := reallinkpath_of_leaf found leaf
  rw [reallinkpath] at location ⊢
  cases last : basename t with
  | name m => exact ⟨m, rfl, rfl⟩
  | up =>
      rw [last] at location
      have length := congrArg List.length location
      simp [lexical] at length
  | cur | empty =>
      rw [last] at location
      exact absurd location.symm (List.cons_ne_self _ _)

section

variable (tools : Tools) (host : FileSystem String) (hash hash' : HashOrder) (uid gid : Nat)

/-- What a file depends on is told by its name and its content. -/
theorem env_byLocation : (tools.env host hash uid gid).ByLocation where
  same t t' node found found' leaf location := by
    obtain ⟨n, last, here⟩ := basename_of_leaf found leaf
    obtain ⟨n', last', here'⟩ := basename_of_leaf found' leaf
    obtain rfl : n = n' := (List.cons.inj (here.symm.trans (location.trans here'))).1
    have ext : extOf t = extOf t' := by rw [extOf, extOf, last, last']
    change host.lstat t = some node at found
    change host.lstat t' = some node at found'
    simp only [Tools.env, found, found', ext]
  ends t impossible := by
    simp only [Tools.env] at impossible
    split at impossible
    · cases result : analyse tools hash.units (existsIn host) (extOf t) _ with
      | ok paths =>
          rw [result] at impossible
          cases impossible
      | error e =>
          rw [result] at impossible
          cases impossible
    · cases impossible

theorem analyse_sameReports (set set' : SetOrder) (exists? : Exists) (ext : Chars) (data : Bytes) :
    SameReports (analyse tools set exists? ext data) (analyse tools set' exists? ext data) := by
  rw [analyse, analyse]
  split
  · exact .bind _ fun content => (getDependenciesSystemd_sameReports _ set set' content).mapError _
  · exact .refl _

/-- Another process finds the same dependencies. -/
theorem env_alike : (tools.env host hash uid gid).Alike (tools.env host hash' uid gid) where
  host := rfl
  uid := rfl
  gid := rfl
  reports t := by
    simp only [Tools.env]
    split
    · exact ((analyse_sameReports tools _ _ _ _ _).map pathOf).mapError _
    · exact .refl _

end

end GnomeBuildMeta.Initramfs
