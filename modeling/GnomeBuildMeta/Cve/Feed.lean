import Mathlib.Algebra.Group.Int.Defs
import Mathlib.Data.List.Infix
import Mathlib.Data.String.Basic

/-!
# The feeds

What `update_year` takes from the parsed text of a feed.  A feed whose shape
differs from what is looked up in it ends the script with an exception.
-/

namespace GnomeBuildMeta.Cve

abbrev Text := List Char

/-- What `json.load` returns; a float that is not finite has no value. -/
inductive Json where
  | null
  | bool (value : Bool)
  | int (value : Int)
  | float (value : Option Rat)
  | string (text : Text)
  | array (values : List Json)
  | object (entries : List (Text × Json))

inductive Error where
  | keyError
  | typeError
  | indexError
  | attributeError
  /-- The value has no type that the database takes. -/
  | bindingError
  deriving DecidableEq

namespace Json

/-! ## Python -/

/-- `value[key]` -/
def item (key : Text) : Json → Except Error Json
  | .object entries =>
      match entries.lookup key with
      | some value => .ok value
      | none => .error .keyError
  | _ => .error .typeError

/-- `value[0]` -/
def first : Json → Except Error Json
  | .array (value :: _) => .ok value
  | .string (c :: _) => .ok (.string [c])
  | .array [] | .string [] => .error .indexError
  | .object _ => .error .keyError
  | _ => .error .typeError

/-- `value.get(key, default)` -/
def get (value : Json) (key : Text) (default : Json) : Except Error Json :=
  match value with
  | .object entries => .ok ((entries.lookup key).getD default)
  | _ => .error .attributeError

/-- `for element in value` -/
def iterate : Json → Except Error (List Json)
  | .array values => .ok values
  | .string text => .ok (text.map fun c => .string [c])
  | .object entries => .ok (entries.map fun e => .string e.1)
  | _ => .error .typeError

/-- `if value` -/
def truthy : Json → Bool
  | .null => false
  | .bool value => value
  | .int value => value ≠ 0
  | .float value => value ≠ some 0
  | .string text => text ≠ []
  | .array values => !values.isEmpty
  | .object entries => !entries.isEmpty

/-- `value.split(':')` -/
def split : Json → Except Error (List Text)
  | .string text => .ok (text.splitOn ':')
  | _ => .error .attributeError

/-- A parameter of `c.execute`; integers have 64 bits. -/
def bind : Json → Except Error Unit
  | .array _ | .object _ => .error .bindingError
  | .int value => if -2 ^ 63 ≤ value ∧ value < 2 ^ 63 then .ok () else .error .bindingError
  | _ => .ok ()

end Json

/-! ## The vulnerabilities -/

structure Vuln where
  cveId : Json
  summary : Json
  score : Json

structure ProductVuln where
  cveId : Json
  vendor : Text
  name : Text
  version : Text

def cveId (item : Json) : Except Error Json := do
  (← (← item.item "cve".toList).item "CVE_data_meta".toList).item "ID".toList

def extractVuln (item : Json) : Except Error Vuln := do
  let id ← cveId item
  let description ← (← item.item "cve".toList).item "description".toList
  let summary ← (← (← description.item "description_data".toList).first).item "value".toList
  let metric ← (← item.item "impact".toList).get "baseMetricV2".toList (.object [])
  let score ← (← metric.get "cvssV2".toList (.object [])).get "baseScore".toList .null
  return ⟨id, summary, score⟩

def Vuln.insert (row : Vuln) : Except Error Unit := do
  row.cveId.bind
  row.summary.bind
  row.score.bind

/-- The loop over `extract_vulns(tree)`, which inserts each row before the next one is extracted. -/
def insertVulns (tree : Json) : Except Error (List Vuln) := do
  (← (← tree.item "CVE_Items".toList).iterate).mapM fun item => do
    let row ← extractVuln item
    row.insert
    return row

/-! ## The products -/

def extractCpeMatch (cveId vulnSoftware : Json) : Except Error (List ProductVuln) := do
  if (← vulnSoftware.item "vulnerable".toList).truthy then
    let productName ← vulnSoftware.item "cpe23Uri".toList
    match ((← productName.split).drop 3).take 3 with
    | [vendor, name, version] => return [⟨cveId, vendor, name, version⟩]
    | _ => return []
  else return []

def extractCpeMatches (cveId cpeMatch : Json) : Except Error (List ProductVuln) := do
  return (← (← cpeMatch.iterate).mapM (extractCpeMatch cveId)).flatten

/-- A node that is a text: `in` looks for a part of it, and it has no items. -/
def extractFromText (text : Text) : Except Error (List ProductVuln) :=
  if "cpe_match".toList <:+: text then .error .typeError else .error .attributeError

def isCpeMatch : Json → Bool
  | .string text => text = "cpe_match".toList
  | _ => false

mutual

def extractProductVulnsSub (cveId : Json) : Json → Except Error (List ProductVuln)
  | .object entries =>
      match entries.lookup "cpe_match".toList with
      | some cpeMatch => extractCpeMatches cveId cpeMatch
      | none => extractChildren cveId entries
  | .array values => if values.any isCpeMatch then .error .typeError else .error .attributeError
  | .string text => extractFromText text
  | _ => .error .typeError

/-- `for child in node.get("children", [])`, for the entries of a node. -/
def extractChildren (cveId : Json) : List (Text × Json) → Except Error (List ProductVuln)
  | [] => .ok []
  | (key, value) :: rest =>
      if key = "children".toList then
        match value with
        | .array nodes => extractNodes cveId nodes
        | .string text => do return (← text.mapM fun c => extractFromText [c]).flatten
        | .object entries => do return (← entries.mapM fun e => extractFromText e.1).flatten
        | _ => .error .typeError
      else extractChildren cveId rest

def extractNodes (cveId : Json) : List Json → Except Error (List ProductVuln)
  | [] => .ok []
  | node :: rest => do
      let found ← extractProductVulnsSub cveId node
      return found ++ (← extractNodes cveId rest)

end

def extractItem (item : Json) : Except Error (List ProductVuln) := do
  let id ← cveId item
  let nodes ← (← (← item.item "configurations".toList).item "nodes".toList).iterate
  return (← nodes.mapM (extractProductVulnsSub id)).flatten

def extractProductVulns (tree : Json) : Except Error (List ProductVuln) := do
  return (← (← (← tree.item "CVE_Items".toList).iterate).mapM extractItem).flatten

/-- Both loops over the tree; the rows are what the tables get. -/
def insertFeed (tree : Json) : Except Error (List Vuln × List ProductVuln) := do
  let vulns ← insertVulns tree
  let products ← extractProductVulns tree
  products.forM fun row => row.cveId.bind
  return (vulns, products)

end GnomeBuildMeta.Cve
