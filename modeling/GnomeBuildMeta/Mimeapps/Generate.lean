import GnomeBuildMeta.Containers.Dict
import Mathlib.Data.List.Infix
import Mathlib.Data.String.Basic

/-!
# generate.py

The applications are gathered by the types they support, sorted twice, and
overridden by the quirks.  What the interpreter does with two applications that
its second order does not compare consistently is left open: `listSort` stands
for `list.sort` with a comparison.
-/

namespace GnomeBuildMeta.Mimeapps

open Containers

abbrev Text := List Char

/-- A value of the quirks file; numbers, booleans and dates are not told apart. -/
inductive Value where
  | string (text : Text)
  | array (values : List Value)
  | table (entries : List (Text × Value))
  | other

abbrev Table := List (Text × Value)

inductive Error where
  | typeError
  | attributeError
  | keyError
  | valueError
  deriving DecidableEq

/-- `Gio.AppInfo`, by its id and the types it supports. -/
structure App where
  id : Text
  types : List Text

/-! ## Python -/

def asString : Value → Except Error Text
  | .string text => .ok text
  | _ => .error .typeError

def iterate : Option Value → Except Error (List Value)
  | some (.string text) => .ok (text.map fun c => .string [c])
  | some (.array values) => .ok values
  | some (.table entries) => .ok (entries.map fun e => .string e.1)
  | _ => .error .typeError

/-- `separator.join(value)` -/
def join (separator : Text) (value : Option Value) : Except Error Text := do
  let texts ← (← iterate value).mapM asString
  return separator.intercalate texts

/-- `text in value` -/
def isIn (text : Text) : Option Value → Except Error Bool
  | some (.string whole) => .ok (decide (text <:+: whole))
  | some (.array values) => .ok (values.any fun value => match value with
      | .string other => decide (other = text)
      | _ => false)
  | some (.table entries) => .ok (entries.any fun e => decide (e.1 = text))
  | _ => .error .typeError

def removesuffix (text suffix : Text) : Text :=
  if suffix <:+ text then text.take (text.length - suffix.length) else text

/-- What `str.strip` takes for whitespace. -/
def isspace (c : Char) : Bool :=
  (0x09 ≤ c.toNat && c.toNat ≤ 0x0d) || (0x1c ≤ c.toNat && c.toNat ≤ 0x20) || c.toNat = 0x85 ||
    c.toNat = 0xa0 || c.toNat = 0x1680 || (0x2000 ≤ c.toNat && c.toNat ≤ 0x200a) ||
    c.toNat = 0x2028 || c.toNat = 0x2029 || c.toNat = 0x202f || c.toNat = 0x205f ||
    c.toNat = 0x3000

def strip (text : Text) : Text := ((text.dropWhile isspace).reverse.dropWhile isspace).reverse

/-- `sorted(texts)` -/
def sorted (texts : List Text) : List Text := texts.insertionSort (· ≤ ·)

/-! ## The applications -/

def suffix : Text := ".desktop".toList

abbrev Types := Dict Text (List Text)

/-- The inner loop of the gathering. -/
def addType (id : Text) (types : Types) (type : Text) : Types :=
  match types.lookup type with
  | some apps => types.set type (apps ++ [id])
  | none => types.set type [id]

def addApp (skipApps : Option Value) (types : Types) (app : App) : Except Error Types := do
  if ← isIn (removesuffix app.id suffix) skipApps then return types
  else return app.types.foldl (addType app.id) types

def load (skipApps : Option Value) (apps : List App) : Except Error Types :=
  apps.foldlM (addApp skipApps) Dict.empty

/-- `quirks.incubating.get(a) == b` -/
def incubates (incubating : Table) (a b : Text) : Bool :=
  match incubating.lookup a with
  | some (.string text) => decide (text = b)
  | _ => false

def cmpIncubating (incubating : Table) (a b : Text) : Int :=
  let a := removesuffix a suffix
  let b := removesuffix b suffix
  if incubates incubating a b then -1
  else if incubates incubating b a then 1
  else 0

section Sorting

variable (listSort : (Text → Text → Bool) → List Text → List Text)

/-- The two sorts; fewer than two applications are not compared. -/
def sortApps (incubating : Option Value) (apps : List Text) : Except Error (List Text) :=
  if apps.length < 2 then .ok (sorted apps)
  else
    match incubating with
    | some (.table entries) =>
        .ok (listSort (fun a b => decide (cmpIncubating entries a b < 0)) (sorted apps))
    | _ => .error .attributeError

/-! ## Overrides -/

structure Overrides where
  types : Types
  overridden : Dict Text Text

def Overrides.apply (s : Overrides) (override : Text × Value) : Except Error Overrides := do
  let ty := override.1
  let overridden :=
    if (s.overridden.lookup ty).isSome then s.overridden
    else
      match s.types.lookup ty with
      | some apps => s.overridden.set ty ([' '].intercalate apps)
      | none => s.overridden.set ty "<none>".toList
  match override.2 with
  | .array [] =>
      if (s.types.lookup ty).isSome then return ⟨s.types.erase ty, overridden⟩
      else throw .keyError
  | .array values => do
      let names ← values.mapM asString
      return ⟨s.types.set ty (names.map (· ++ suffix)), overridden⟩
  | value => do
      let name ← asString value
      return ⟨s.types.set ty [name ++ suffix], overridden⟩

/-- `quirks.override.items()` -/
def items : Option Value → Except Error Table
  | some (.table entries) => .ok entries
  | _ => .error .attributeError

/-! ## The output -/

def stripHeading : Option Value → Except Error Text
  | some (.string text) => .ok (strip text)
  | _ => .error .attributeError

def render (heading : Text) (s : Overrides) : Text :=
  heading ++ "\n\n[Default Applications]\n".toList ++
    ((sorted s.types.keys).flatMap fun type =>
      type ++ ['='] ++ [';'].intercalate ((s.types.lookup type).getD []) ++ ['\n']) ++
    if s.overridden.keys = [] then []
    else
      "\n# Tracking data to catch stale overrides:\n".toList ++
        (sorted s.overridden.keys).flatMap fun type =>
          "#OVERRIDE ".toList ++ type ++ " WAS ".toList ++ (s.overridden.lookup type).getD [] ++
            ['\n']

/-- The text that is written to the output, for the quirks and the applications found. -/
def generate (quirks : Table) (apps : List App) : Except Error Text := do
  let dataDirs ← join [':'] (quirks.lookup "datadirs".toList)
  if '\u0000' ∈ dataDirs then throw .valueError
  let types ← load (quirks.lookup "skip_apps".toList) apps
  let types ← types.mapM (sortApps listSort (quirks.lookup "incubating".toList))
  let overrides ← items (quirks.lookup "override".toList)
  let s ← overrides.foldlM Overrides.apply ⟨types, Dict.empty⟩
  let heading ← stripHeading (quirks.lookup "heading".toList)
  return render heading s

end Sorting

end GnomeBuildMeta.Mimeapps
