import GnomeBuildMeta.Words.Utf8
import GnomeBuildMeta.Zswap.Generator

/-!
# What becomes of a setup unit

systemd takes the command lines out of the service, cuts them into words and
expands these, and `zswap-setup` reads them with clap.  Neither of the two is
part of the repository: a reader is any system that does what they document, on
files of the form that the generator writes.
-/

namespace GnomeBuildMeta.Zswap

open Words

/--
`SetupCommand`, with the fields of `CreateArgs` and `StopArgs`.  A path is a text
here, so it is one in UTF-8, which `path.display()` shows as it is.
-/
inductive SetupCommand where
  | create (swapfile label : Text) (size : Nat)
  | stop (swapfile label : Text)
  deriving DecidableEq

def fileText (lines : List Text) : Text := lines.flatMap (· ++ ['\n'])

structure Reader where
  /-- The values that a file assigns to a setting below a heading. -/
  assigned : (heading setting text : Text) → List Text
  /-- The commands of a value, each by its words without quotes. -/
  commands : Text → Option (List (List Text))
  /-- A word of a unit, by the unit's name, once its specifiers are expanded. -/
  specifiers : (unit word : Text) → Option Text
  /-- The words once variables are expanded. -/
  environment : List Text → List Text
  /-- `Cli::parse` for a setup command. -/
  parse : List Text → Option SetupCommand

/-- The words of a command of a unit once everything is expanded. -/
def Reader.expanded (r : Reader) (unit : Text) (words : List Text) : Option (List Text) := do
  let words ← words.mapM (r.specifiers unit)
  return r.environment words

/-- The commands of a setting of the service. -/
def Reader.read (r : Reader) (u : UnitFile) (setting : Text) : Option (List (List Text)) := do
  let commands ← (r.assigned "Service".toList setting (fileText u.lines)).mapM r.commands
  commands.flatten.mapM (r.expanded u.name)

/-! ## The files -/

/-- A section of a unit file, with its settings in their order. -/
structure Section where
  heading : Text
  settings : List (Text × Text)

def Section.lines (s : Section) : List Text :=
  ('[' :: s.heading ++ [']']) :: s.settings.map fun entry => entry.1 ++ '=' :: entry.2

def Letters (text : Text) : Prop := ∀ c ∈ text, c.isAlpha = true

instance (text : Text) : Decidable (Letters text) :=
  decidable_of_iff (text.all Char.isAlpha = true) List.all_eq_true

def lineEnds : Text := ['\n', '\r', '\u0000']

def NoLineEnd (text : Text) : Prop := ∀ c ∈ text, c ∉ lineEnds

instance (text : Text) : Decidable (NoLineEnd text) :=
  decidable_of_iff (text.all (fun c => decide (c ∉ lineEnds)) = true) (by simp [NoLineEnd])

/-- A value that ends with its line, which is not continued on the next one. -/
def OneLine (value : Text) : Prop := NoLineEnd value ∧ value.getLast? ≠ some '\\'

instance (value : Text) : Decidable (OneLine value) := inferInstanceAs (Decidable (_ ∧ _))

/-- Every line of the section is one line, and it is no comment. -/
structure Section.Proper (s : Section) : Prop where
  heading : Letters s.heading
  keys : ∀ entry ∈ s.settings, entry.1 ≠ [] ∧ Letters entry.1
  values : ∀ entry ∈ s.settings, OneLine entry.2

/-- The values of a setting in all sections with a heading. -/
def valuesOf (heading setting : Text) (sections : List Section) : List Text :=
  (sections.filter fun s => s.heading = heading).flatMap fun s =>
    (s.settings.filter fun entry => entry.1 = setting).map Prod.snd

/-- A line has less than a mebibyte. -/
def Short (line : Text) : Prop := (utf8 line).length < 2 ^ 20

instance (line : Text) : Decidable (Short line) := inferInstanceAs (Decidable (_ < _))

/-- The settings that are read. -/
def readSettings : List (Text × Text) :=
  [("Service".toList, "ExecStart".toList), ("Service".toList, "ExecStop".toList),
    ("Swap".toList, "What".toList)]

/-! ## Documented behaviour -/

/-- What systemd takes for whitespace. -/
def isWhite (c : Char) : Bool := c = ' ' || c = '\t' || c = '\n' || c = '\r'

/-- The bytes that an escaped part of a unit name stands for. -/
def unescapeBytes : Text → Option (List UInt8)
  | [] => some []
  | '\\' :: 'x' :: high :: low :: rest => do
      let high ← hexValue high
      let low ← hexValue low
      return UInt8.ofNat (16 * high + low) :: (← unescapeBytes rest)
  | '\\' :: _ => none
  | '-' :: rest => do return 0x2f :: (← unescapeBytes rest)
  | c :: rest => do return String.utf8EncodeChar c ++ (← unescapeBytes rest)
where
  hexValue (c : Char) : Option Nat := (List.range 16).find? fun value => Nat.digitChar value = c

/-- The unescaped text of an instance. -/
def unescaped (text : Text) : Option Text := do
  let bytes ← unescapeBytes text
  let name ← bytes.toByteArray.utf8Decode?
  return name.toList

/-- A value that neither starts nor ends with whitespace. -/
structure Trimmed (value : Text) : Prop where
  first : value.head?.any (fun c => !isWhite c) = true
  last : value.getLast?.any (fun c => !isWhite c) = true

/-- No `$name` as a word, no `${name}` and no `$$`. -/
structure Literal (word : Text) : Prop where
  first : word.head? ≠ some '$'
  dollar : ¬ ['$', '$'] <:+: word
  brace : ¬ ['$', '\x7b'] <:+: word

/-- The characters of a value that mean something to the reader. -/
def special : Text := ['"', '\u0027', '%', '\\'] ++ lineEnds

/-- A value with a program of the service and its arguments, nothing of which is quoted. -/
structure CommandLine (value program : Text) (args : List Text) : Prop where
  plain : ∀ c ∈ value, c ∈ special → c = '%'
  words : words isWhite value = program :: args
  known : program ∈ ["udevadm".toList, zswapSetup]

/-- An argument that is taken for an option. -/
def Hyphened (word : Text) : Prop := ∃ c rest, word = '-' :: c :: rest

/-- What is documented of the parts of a reader. -/
structure Documented (r : Reader) : Prop where
  assigned : ∀ {heading setting} {sections : List Section}, (heading, setting) ∈ readSettings →
    (∀ s ∈ sections, s.Proper) → (∀ line ∈ sections.flatMap Section.lines, Short line) →
      (∀ value ∈ valuesOf heading setting sections, Trimmed value) →
        r.assigned heading setting (fileText (sections.flatMap Section.lines)) =
          valuesOf heading setting sections
  /-- A file with a line of a mebibyte is not read at all. -/
  tooLong : ∀ {heading setting} {sections : List Section}, (∀ s ∈ sections, s.Proper) →
    (∃ line ∈ sections.flatMap Section.lines, ¬ Short line) →
      r.assigned heading setting (fileText (sections.flatMap Section.lines)) = []
  commands : ∀ {value program args}, CommandLine value program args → [';'] ∉ args →
    r.commands value = some [program :: args]
  /-- Where there are several commands, the first one ends before a lone semicolon. -/
  separated : ∀ {value program args commands}, CommandLine value program args →
    r.commands value = some commands →
      commands.head? = some (program :: args.takeWhile fun word => word ≠ [';'])
  specifiers : ∀ {unit word}, '%' ∉ word → r.specifiers unit word = some word
  instance' : ∀ {escaped name}, unescaped escaped = some name → name ≠ [] → '\u0000' ∉ name →
    r.specifiers ("zswap-setup@".toList ++ escaped ++ ".service".toList) "%I".toList = some name
  environment : ∀ {words}, (∀ word ∈ words, Literal word) → r.environment words = words
  create : ∀ {swapfile label size}, swapfile ≠ [] → ¬ Hyphened swapfile → ¬ Hyphened label →
    size < 2 ^ 64 →
      r.parse [zswapSetup, "create".toList, swapfile, label, (Nat.repr size).toList] =
        some (.create swapfile label size)
  stop : ∀ {swapfile label}, swapfile ≠ [] → ¬ Hyphened swapfile → ¬ Hyphened label →
    r.parse [zswapSetup, "stop".toList, swapfile, label] = some (.stop swapfile label)
  /-- The values are the arguments in their order; one `--` may stand between them. -/
  positional : ∀ {args swapfile label size},
    r.parse (zswapSetup :: "create".toList :: args) = some (.create swapfile label size) →
      ∃ text, args = [swapfile, label, text] ∨ ∃ before after,
        args = before ++ "--".toList :: after ∧ before ++ after = [swapfile, label, text]
  /-- Three arguments of which one looks like an option leave a value missing. -/
  option : ∀ {swapfile label text}, Hyphened swapfile ∨ Hyphened label ∨ Hyphened text →
    r.parse [zswapSetup, "create".toList, swapfile, label, text] = none

/-! ## Reading a service back -/

/-- The service creates and stops the swap file that the configuration asks for. -/
structure ReadsBack (r : Reader) (name path : Text) (size : Int64) : Prop where
  start : ∃ create n, r.read (serviceUnit name path size) "ExecStart".toList =
      some [["udevadm".toList, "settle".toList], create] ∧
    r.parse create = some (.create path name n) ∧ (n : Int) = size.toInt
  stop : ∃ stop, r.read (serviceUnit name path size) "ExecStop".toList = some [stop] ∧
    r.parse stop = some (.stop path name)

/-- The entry has a name, and nothing in it is quoted, escaped or expanded. -/
structure Simple (name path : Text) : Prop where
  named : name ≠ []
  plain : ∀ c ∈ path, c ∉ special
  path_literal : ∀ word ∈ words isWhite path, Literal word
  name_literal : Literal name
  noNul : '\u0000' ∉ name

/-- A path that is one word, and values that are neither options nor negative, nor too long. -/
structure Plain (name path : Text) (size : Int64) : Prop where
  short : ∀ line ∈ (serviceUnit name path size).lines, Short line
  proper : path ≠ []
  noWhite : ∀ c ∈ path, isWhite c = false
  notSeparator : path ≠ [';']
  path_value : ¬ Hyphened path
  name_value : ¬ Hyphened name
  nonneg : 0 ≤ size.toInt

end GnomeBuildMeta.Zswap
