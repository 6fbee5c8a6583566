import Mathlib.Data.List.AList
import Mathlib.Data.List.Sort
import Mathlib.Data.String.Basic

/-!
# efi-keys.bst

The build commands turn certificates into signature lists.  The files of the
build directory are a table from the texts of their paths, and of a file only
matters which certificate, owner or signature list it holds: openssl converts a
certificate and sbsiglist wraps one.
-/

namespace GnomeBuildMeta.BootKeys

abbrev Text := List Char

/-! ## The shell -/

/-- `$(...)` drops the newlines at the end. -/
def substitution (text : Text) : Text := (text.reverse.dropWhile (· = '\n')).reverse

def dirname (path : Text) : Text :=
  if '/' ∈ path then
    let dir := ((path.reverse.dropWhile (· ≠ '/')).dropWhile (· = '/')).reverse
    if dir = [] then ['/'] else dir
  else ['.']

/-- `basename` with a suffix, which is dropped unless nothing else is left. -/
def basename (path suffix : Text) : Text :=
  let name := (path.reverse.takeWhile (· ≠ '/')).reverse
  if suffix <:+ name ∧ suffix ≠ name then name.take (name.length - suffix.length) else name

/-- What a file of the build directory holds; `α` is the type of certificates. -/
inductive Content (α : Type) where
  | pem (certificate : α)
  | der (certificate : α)
  | text (line : Text)
  /-- Each certificate with its owner. -/
  | signatureList (entries : List (Text × α))
  | other
  deriving DecidableEq

abbrev Files (α : Type) := AList fun _ : Text => Content α

variable {α : Type}

/-- `[ -f path ]` -/
def isFile (files : Files α) (path : Text) : Bool := (files.lookup path).isSome

/-- A path of the form `dir/*suffix`, where the star stands for no hidden file. -/
def matchesGlob (dir suffix path : Text) : Bool :=
  let name := path.drop (dir.length + 1)
  (dir ++ ['/']).isPrefixOf path && decide ('/' ∉ name) && decide (name.head? ≠ some '.') &&
    suffix.isSuffixOf name

/-- What `dir/*suffix` is replaced by; it stays as it is if nothing matches. -/
def glob (files : Files α) (dir suffix : Text) : List Text :=
  match (files.keys.filter (matchesGlob dir suffix)).insertionSort (· ≤ ·) with
  | [] => [dir ++ ['/', '*'] ++ suffix]
  | paths => paths

/-! ## The commands -/

/-- `openssl x509 -inform pem -outform der -in input -out output` -/
def openssl (input output : Text) (files : Files α) : Option (Files α) :=
  match files.lookup input with
  | some (.pem certificate) => some (files.insert output (.der certificate))
  | _ => none

/-- `sbsiglist --owner owner --type x509 input --output output` -/
def sbsiglist (owner input output : Text) (files : Files α) : Option (Files α) :=
  match files.lookup input with
  | some (.der certificate) => some (files.insert output (.signatureList [(owner, certificate)]))
  | _ => none

/-- `cat input >>output` for two signature lists -/
def catAppend (input output : Text) (files : Files α) : Option (Files α) :=
  match files.lookup input, files.lookup output with
  | some (.signatureList added), some (.signatureList entries) =>
      some (files.insert output (.signatureList (entries ++ added)))
  | _, _ => none

def cp (source destination : Text) (files : Files α) : Option (Files α) :=
  (files.lookup source).map fun content => files.insert destination content

/-- `echo line >destination` -/
def echo (line destination : Text) (files : Files α) : Files α :=
  files.insert destination (.text (line ++ ['\n']))

/-- `$(cat path)` -/
def cat (files : Files α) (path : Text) : Option Text :=
  match files.lookup path with
  | some (.text line) => some (substitution line)
  | _ => none

/-! ## The keys -/

/-- `%{gnomeos-keys-uuid}` -/
def gnomeosKeysUuid : Text := "8dd6b2b4-3dc4-4ee2-a226-635467997f0e".toList

def microsoftOwner : Text := "77fa9abd-0359-4d32-bd60-28f4e78f784b".toList

/-- The values that the variable `type` goes through. -/
inductive KeyType where
  | kek
  | kekMic
  | db
  | dbMic
  deriving DecidableEq

namespace KeyType

def text : KeyType → Text
  | .kek => "kek".toList
  | .kekMic => "kek-mic".toList
  | .db => "db".toList
  | .dbMic => "db-mic".toList

/-- `extra-${type}` -/
def extraDir (type : KeyType) : Text := "extra-".toList ++ type.text

/-- The signature lists that a certificate is appended to. -/
def lists : KeyType → List Text
  | .kek => ["KEK.esl".toList, "KEK-mic.esl".toList]
  | .kekMic => ["KEK-mic.esl".toList]
  | .db => ["DB.esl".toList, "DB-mic.esl".toList]
  | .dbMic => ["DB-mic.esl".toList]

end KeyType

def types : List KeyType := [.kek, .kekMic, .db, .dbMic]

def microsoftKek : List Text :=
  ["MicCorKEKCA2011_2011-06-24".toList, "microsoft corporation kek 2k ca 2023".toList]

def microsoftDb : List Text :=
  ["MicCorUEFCA2011_2011-06-27".toList, "MicWinProPCA2011_2011-10-19".toList,
    "microsoft option rom uefi ca 2023".toList, "microsoft uefi ca 2023".toList,
    "windows uefi ca 2023".toList]

/-- `microsoft_objects/PreSignedObjects/${kind}/Certificates/${key}.der` -/
def microsoftObject (kind key : Text) : Text :=
  "microsoft_objects/PreSignedObjects/".toList ++ kind ++ "/Certificates/".toList ++ key ++
    ".der".toList

/-- `${key// /_}` -/
def underscored (key : Text) : Text := key.map fun c => if c = ' ' then '_' else c

/-! ## The build -/

/-- The own certificates, in the lists with and without the keys of Microsoft. -/
def ownLists (files : Files α) : Option (Files α) := do
  let files ← openssl "PK.crt".toList "PK.der".toList files
  let files ← openssl "KEK.crt".toList "KEK.der".toList files
  let files ← openssl "DB.crt".toList "DB.der".toList files
  let files ← sbsiglist gnomeosKeysUuid "PK.der".toList "PK.esl".toList files
  let files ← sbsiglist gnomeosKeysUuid "KEK.der".toList "KEK.esl".toList files
  let files ← sbsiglist gnomeosKeysUuid "DB.der".toList "DB.esl".toList files
  let files ← openssl "PK_MIC.crt".toList "PK_MIC.der".toList files
  let files ← sbsiglist gnomeosKeysUuid "PK_MIC.der".toList "PK-mic.esl".toList files
  let files ← sbsiglist gnomeosKeysUuid "KEK.der".toList "KEK-mic.esl".toList files
  sbsiglist gnomeosKeysUuid "DB.der".toList "DB-mic.esl".toList files

/-- One round of a loop that imports keys of Microsoft. -/
def importKey (kind : Text) (type : KeyType) (files : Files α) (key : Text) : Option (Files α) := do
  let path := type.extraDir ++ ['/'] ++ underscored key
  let files ← cp (microsoftObject kind key) (path ++ ".der".toList) files
  return echo microsoftOwner (path ++ ".owner".toList) files

def importMicrosoft (files : Files α) : Option (Files α) := do
  let files ← microsoftKek.foldlM (importKey "KEK".toList .kekMic) files
  microsoftDb.foldlM (importKey "DB".toList .dbMic) files

/-- `$(dirname "${extra}")$(basename "${extra}" .crt)` -/
def baseOf (extra : Text) : Text :=
  substitution (dirname extra) ++ substitution (basename extra ".crt".toList)

/-- One round of the loop that converts PEM to DER. -/
def convert (files : Files α) (extra : Text) : Option (Files α) :=
  if isFile files extra then openssl extra (baseOf extra ++ ".der".toList) files else some files

/-- One round of the loop that enrolls a certificate. -/
def enroll (type : KeyType) (files : Files α) (extra : Text) : Option (Files α) :=
  if isFile files extra then do
    let base := baseOf extra
    let owner ←
      if isFile files (base ++ ".owner".toList) then
        cat files (type.extraDir ++ ['/'] ++ base ++ ".owner".toList)
      else some gnomeosKeysUuid
    let files ← sbsiglist owner extra (base ++ ".esl".toList) files
    type.lists.foldlM (fun files list => catAppend (base ++ ".esl".toList) list files) files
  else some files

def convertExtras (files : Files α) (type : KeyType) : Option (Files α) :=
  (glob files type.extraDir ".crt".toList).foldlM convert files

def enrollExtras (files : Files α) (type : KeyType) : Option (Files α) :=
  (glob files type.extraDir ".der".toList).foldlM (enroll type) files

def build (files : Files α) : Option (Files α) := do
  let files ← ownLists files
  let files ← importMicrosoft files
  let files ← types.foldlM convertExtras files
  types.foldlM enrollExtras files

end GnomeBuildMeta.BootKeys
