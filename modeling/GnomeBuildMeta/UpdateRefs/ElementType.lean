import Mathlib.Data.List.Basic

/-!
# update-refs.py

`get_element_type` looks for the first file that gives sources: the element, and
what it includes, depth first.  The files are those that BuildStream composites.
-/

namespace GnomeBuildMeta.UpdateRefs

abbrev Text := List Char

inductive ElementType where
  | notTrackable
  | dependency
  | gnome
  deriving DecidableEq

structure Source where
  kind : Option Text
  url : Option Text
  deriving DecidableEq

/-- The value of `sources`: a list, or a mapping with the directives `(<)` and `(>)`, or `(=)`. -/
inductive Sources where
  | list (entries : List Source)
  | extend (before after : List Source)
  | overwrite (entries : List Source)
  deriving DecidableEq

structure File where
  sources : Option Sources
  /-- `(@)`; a name alone is a list of one. -/
  includes : List Text
  deriving DecidableEq

/-- What a name leads to; `empty` is a file in which YAML finds no document. -/
inductive Document where
  | missing
  | empty
  | mapping (data : File)
  deriving DecidableEq

/-- A name with a colon is one of another project, and so is what BuildStream finds there. -/
structure Project where
  files : Text → Document
  /-- The composited sources of a file of another project. -/
  junction : Text → Option Sources
  local_of_there : ∀ name, files name ≠ .missing → ':' ∉ name

inductive Error where
  | fileNotFound
  | attribute
  | key
  | recursion
  deriving DecidableEq

def sourceType (first : Source) : ElementType :=
  if first.kind ∈ [some "tar".toList, some "zip".toList, some "remote".toList, some "local".toList] then
    .notTrackable
  else if first.kind ∈ [some "anitya".toList, some "pypi".toList] then .dependency
  else if "gnome:".toList <+: first.url.getD [] then .gnome
  else .dependency

def freedesktopSdk : Text := "freedesktop-sdk.bst:".toList

/-- The loop over the includes. -/
def firstType (getType : Text → Except Error (Option ElementType)) :
    List Text → Except Error (Option ElementType)
  | [] => .ok none
  | i :: rest =>
      if freedesktopSdk <+: i then firstType getType rest
      else do
        match ← getType i with
        | some trackable => return some trackable
        | none => firstType getType rest

/-- The fuel bounds the depth of the calls. -/
def getElementType (p : Project) : Nat → Text → Except Error (Option ElementType)
  | 0, _ => .error .recursion
  | fuel + 1, filepath =>
      match p.files filepath with
      | .missing => .error .fileNotFound
      | .empty => .error .attribute
      | .mapping data =>
          match data.sources with
          | some (.list (first :: _)) => .ok (some (sourceType first))
          | some (.extend _ _) => .error .key
          | some (.overwrite _) => .error .key
          | some (.list []) => firstType (getElementType p fuel) data.includes
          | none => firstType (getElementType p fuel) data.includes

/-- The lists of elements that are to be tracked. -/
structure Tracked where
  gnomeElements : List Text
  dependenciesElements : List Text
  deriving DecidableEq

/-- `os.path.join(start, path)`. -/
def join (start path : Text) : Text := start ++ '/' :: path

/-- `os.path.relpath` for a path that starts with `start`, as those of `os.walk` do. -/
def relpath (filepath start : Text) : Text := filepath.drop (start.length + 1)

theorem relpath_join (start path : Text) : relpath (join start path) start = path := by
  rw [relpath, join, ← List.drop_drop, List.drop_left, List.drop_one, List.tail_cons]

def elementsDir : Text := "elements".toList

/-- A file in the loop over the `.bst` files. -/
def track (getType : Text → Except Error (Option ElementType)) (found : Tracked) (filepath : Text) :
    Except Error Tracked := do
  let elementName := relpath filepath elementsDir
  match ← getType filepath with
  | some .gnome => return { found with gnomeElements := found.gnomeElements ++ [elementName] }
  | some .dependency => return { found with dependenciesElements := found.dependenciesElements ++ [elementName] }
  | _ => return found

def scan (getType : Text → Except Error (Option ElementType)) (elements : List Text) : Except Error Tracked :=
  elements.foldlM (track getType) ⟨[], []⟩

end GnomeBuildMeta.UpdateRefs
