import GnomeBuildMeta.Posix.FileName
import GnomeBuildMeta.Words.Search

/-!
# test_phone_image.py

The test waits for a marker in the output of the virtual machine, types a line,
waits for the next marker, and so on.  The output comes in the chunks that the
stream has at hand; when it is over the stream is closed or silent.
-/

namespace GnomeBuildMeta.PhoneTest

open Posix

abbrev Text := List Char

def newline : UInt8 := 0x0a

def bufferSize : Nat := 80

/-- `text.encode("utf-8")` -/
def encode (text : Text) : Bytes := text.flatMap String.utf8EncodeChar

/-- What `stream.read` can make of some bytes. -/
structure Splits (bytes : Bytes) (chunks : List Bytes) : Prop where
  whole : chunks.flatten = bytes
  sizes : ∀ chunk ∈ chunks, chunk.length ≤ bufferSize
  /-- Nothing is read at the end only, if it was not known before. -/
  empty : ∀ chunk ∈ chunks.dropLast, 0 < chunk.length

/-! ## Waiting -/

/-- A call that has found its marker: the line that it returns, and where it leaves the stream. -/
structure Returned where
  prompt : Text
  line : Bytes
  /-- The lines of the buffer behind the line, which are dropped with it. -/
  later : List Bytes
  unread : List Bytes

section AwaitLine

-- `line.decode("utf-8")`, if it does not raise.
variable (decode : Bytes → Option Text)

/-- The loop of `await_line`, with what is in `buf`. -/
def awaitFrom (marker : Bytes) : Bytes → List Bytes → Option Returned
  | _, [] => none
  | buf, chunk :: chunks =>
      let lines := (buf ++ chunk).splitOn newline
      match lines.dropWhile fun line => !decide (marker <:+: line) with
      | line :: later =>
          match decode line with
          | some prompt => some ⟨prompt, line, later, chunks⟩
          | none => awaitFrom marker (lines.getLastD []) chunks
      | [] => awaitFrom marker (lines.getLastD []) chunks

def awaitLine (chunks : List Bytes) (marker : Text) : Option Returned :=
  awaitFrom decode (encode marker) [] chunks

/-- What was read with the marker and stands behind it. -/
def Returned.lost (marker : Bytes) (r : Returned) : Bytes :=
  (Words.after marker r.line).getD [] ++ Words.joined newline r.later

/-- All that comes behind the marker, whether it has been read or not. -/
def Returned.behind (marker : Bytes) (r : Returned) : Bytes := r.lost marker ++ r.unread.flatten

/-! ## The dialog -/

inductive Verdict where
  | successful
  /-- `assert prompt is not None` -/
  | noPrompt
  /-- The test is cancelled. -/
  | timeout
  /-- The answer is not ASCII. -/
  | encodeError
  deriving DecidableEq

/-- How the output ends. -/
inductive Ending where
  | closed
  | silent

def Ending.verdict : Ending → Verdict
  | .closed => .noPrompt
  | .silent => .timeout

/-- The matches, by all that comes behind them; what was typed; how it went. -/
structure Outcome where
  found : List Bytes
  typed : List Bytes
  verdict : Verdict
  deriving DecidableEq

/-- A match in front of what follows it. -/
def Outcome.behind (behind : Bytes) (typed : List Bytes) (o : Outcome) : Outcome :=
  ⟨behind :: o.found, typed ++ o.typed, o.verdict⟩

/-- `response.encode('ascii')` -/
def encodeAscii (response : Text) : Option Bytes :=
  if response.all fun c => decide (c.toNat < 128) then some (encode response) else none

/-- The loop of `run_test`, for a way to find the next marker. -/
def converse {σ : Type} (await : Text → σ → Option (Bytes × σ)) (missing : Verdict) :
    List Text → σ → Outcome
  | [], _ => ⟨[], [], .successful⟩
  | [marker], s =>
      match await marker s with
      | none => ⟨[], [], missing⟩
      | some (behind, _) => ⟨[behind], [], .successful⟩
  | marker :: response :: dialog, s =>
      match await marker s with
      | none => ⟨[], [], missing⟩
      | some (behind, s') =>
          match encodeAscii response with
          | none => ⟨[behind], [], .encodeError⟩
          | some typed => (converse await missing dialog s').behind behind [typed ++ [newline]]

def runTest (dialog : List Text) (ending : Ending) (chunks : List Bytes) : Outcome :=
  converse (fun marker chunks => (awaitLine decode chunks marker).map fun r =>
    (r.behind (encode marker), r.unread)) ending.verdict dialog chunks

end AwaitLine

/-! ## The search without a buffer -/

/-- The part of the stream behind the first occurrence of a marker in a line. -/
def search (marker : Text) (bytes : Bytes) : Option Bytes :=
  if newline ∈ encode marker then none else Words.after (encode marker) bytes

/-- Every marker is looked for behind the one before. -/
def searchAll (dialog : List Text) (ending : Ending) (bytes : Bytes) : Outcome :=
  converse (fun marker bytes => (search marker bytes).map fun behind => (behind, behind))
    ending.verdict dialog bytes

end GnomeBuildMeta.PhoneTest
