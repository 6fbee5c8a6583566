import GnomeBuildMeta.Initramfs.ParseSystemd

/-!
# The syntax of unit files

A unit file is a list of items, each of one or more lines, and may end within a
continuation.  `UnitText.map` is what systemd.syntax makes of it.
-/

namespace GnomeBuildMeta.Initramfs

/-! ## Items -/

/-- A line within a continuation, a part without its backslash. -/
inductive Inner where
  | comment (line : Chars)
  | part (line : Chars)
  deriving DecidableEq

inductive Item where
  | header (name : Chars)
  | blank (space : Chars)
  | comment (line : Chars)
  | assign (key value : Chars)
  | continued (key first : Chars) (inner : List Inner) (last : Chars)
  deriving DecidableEq

def isBlank (c : Char) : Bool := c = ' ' || c = '\t'

def IsLine (line : Chars) : Prop := ∀ c ∈ line, c ∉ lineBoundaries

def keyStart : Option Char → Prop
  | none => False
  | some c => c ∉ ['#', ';', '[', ' ', '\t']

structure IsKey (key : Chars) : Prop where
  isLine : IsLine key
  start : keyStart key.head?
  plain : '=' ∉ key

/-- A line that continues a value, whether it ends with a backslash or not. -/
structure IsPart (line : Chars) : Prop where
  isLine : IsLine line
  plain : startsComment line = false

def Inner.Proper : Inner → Prop
  | .comment line => IsLine line ∧ startsComment line = true
  | .part line => IsPart line

def Item.Proper : Item → Prop
  | .header name => IsLine name
  | .blank space => ∀ c ∈ space, isBlank c = true
  | .comment line => IsLine line ∧ startsComment line = true
  | .assign key value => IsKey key ∧ IsLine value ∧ endsWithBackslash value = false
  | .continued key first inner last =>
      IsKey key ∧ IsLine first ∧ (∀ i ∈ inner, i.Proper) ∧ IsPart last ∧ endsWithBackslash last = false

def Inner.text : Inner → Chars
  | .comment line => line
  | .part line => line ++ ['\\']

def assignment (key value : Chars) : Chars := key ++ '=' :: value

/-- The first lines of an assignment that is continued. -/
def openLines (key first : Chars) (inner : List Inner) : List Chars :=
  assignment key (first ++ ['\\']) :: inner.map Inner.text

def Item.lines : Item → List Chars
  | .header name => ['[' :: (name ++ [']'])]
  | .blank space => [space]
  | .comment line => [line]
  | .assign key value => [assignment key value]
  | .continued key first inner last => openLines key first inner ++ [last]

/-- An assignment that the text breaks off in. -/
structure Broken where
  key : Chars
  first : Chars
  inner : List Inner

structure Broken.Proper (broken : Broken) : Prop where
  key : IsKey broken.key
  first : IsLine broken.first
  inner : ∀ i ∈ broken.inner, i.Proper

def Broken.lines (broken : Broken) : List Chars := openLines broken.key broken.first broken.inner

structure UnitText where
  items : List Item
  proper : ∀ item ∈ items, item.Proper
  rest : Option Broken
  proper_rest : ∀ broken ∈ rest, broken.Proper

def UnitText.lines (u : UnitText) : List Chars :=
  u.items.flatMap Item.lines ++ (u.rest.map Broken.lines).getD []

abbrev UnitMap := Chars → Option (Chars → Option (List Chars))

/-- The section that the text is in, and the map so far. -/
structure Reading where
  current : Option Chars
  map : UnitMap

def Reading.start : Reading := ⟨none, fun _ => none⟩

/-- The name of a key ends before the blanks in front of the equals sign. -/
def keyName (key : Chars) : Chars := key.rdropWhile isBlank

def trimmed (value : Chars) : Chars := value.dropWhile isBlank

/-- The value of an assignment comes last, and an empty one clears the list. -/
def Reading.assign (r : Reading) (key value : Chars) : Reading :=
  match r.current with
  | none => r
  | some name =>
      let entries := (r.map name).getD fun _ => none
      let values := if trimmed value = [] then [] else (entries (keyName key)).getD [] ++ [trimmed value]
      { r with map := Function.update r.map name (some (Function.update entries (keyName key) (some values))) }

/-- A backslash gives a space, and a comment gives nothing. -/
def Inner.joined : Inner → Chars
  | .comment _ => []
  | .part line => line ++ [' ']

def openValue (first : Chars) (inner : List Inner) : Chars :=
  first ++ ' ' :: inner.flatMap Inner.joined

/-- The key and the value of an item that is an assignment. -/
def Item.assigns : Item → Option (Chars × Chars)
  | .assign key value => some (key, value)
  | .continued key first inner last => some (key, openValue first inner ++ last)
  | _ => none

def Reading.item (r : Reading) (item : Item) : Reading :=
  match item with
  | .header name =>
      ⟨some name, Function.update r.map name (some ((r.map name).getD fun _ => none))⟩
  | item =>
      match item.assigns with
      | some (key, value) => r.assign key value
      | none => r

def readItems (items : List Item) : Reading := items.foldl Reading.item .start

def UnitText.map (u : UnitText) : UnitMap :=
  match u.rest with
  | none => (readItems u.items).map
  | some broken => ((readItems u.items).assign broken.key (openValue broken.first broken.inner)).map

def sectionOf (items : List Item) : Option Chars := (readItems items).current

/-- The key that the end of a continuation leaves behind, until an empty line. -/
def keyAfter (key : Option Chars) : Item → Option Chars
  | .header _ | .comment _ => key
  | .blank _ | .assign _ _ => none
  | .continued key _ _ last => if last = [] then none else some key

def staleKey (items : List Item) : Option Chars := items.foldl keyAfter none

/-- No blank stands beside the equals sign. -/
def Tight (key value : Chars) : Prop := keyName key = key ∧ trimmed value = value

def looksLikeHeader (line : Chars) : Bool := line.head? = some '['

def Inner.Plain : Inner → Prop
  | .comment _ => True
  | .part line => looksLikeHeader (line ++ ['\\']) = false

def AssignedIn (name : Chars) (items : List Item) : Prop :=
  ∃ early item late, items = early ++ item :: late ∧ item.assigns.isSome ∧ sectionOf early = some name

/-- An item that the parser takes the right way after the items before it. -/
def Item.Fits (before : List Item) : Item → Prop
  | .header name => ¬ AssignedIn name before
  | .blank space => space = [] ∧ staleKey before = none
  | .comment _ => True
  | .assign key value => staleKey before = none ∧ sectionOf before ≠ none ∧ Tight key value
  | .continued key first inner last =>
      staleKey before = none ∧ sectionOf before ≠ none ∧ Tight key (openValue first inner ++ last) ∧
        (∀ i ∈ inner, i.Plain) ∧ looksLikeHeader last = false

/-- What a text may break off in: an assignment that makes no difference. -/
def Broken.Fits (before : List Item) (broken : Broken) : Prop :=
  staleKey before = none ∧ (∀ i ∈ broken.inner, i.Plain) ∧
    ((readItems before).assign broken.key (openValue broken.first broken.inner)).map = (readItems before).map

structure UnitText.Fits (u : UnitText) : Prop where
  items : ∀ early item late, u.items = early ++ item :: late → item.Fits early
  rest : ∀ broken ∈ u.rest, broken.Fits u.items

end GnomeBuildMeta.Initramfs
