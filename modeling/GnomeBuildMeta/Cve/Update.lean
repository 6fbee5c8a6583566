import GnomeBuildMeta.Cve.Feed
import Mathlib.Logic.Function.Basic

/-!
# update-local-cve-database.py

The files of the feeds change at once, the database when it is committed at the
end of a run.  A run goes on step by step, as the server answers and as its
connection delivers, and may end after each of them.
-/

namespace GnomeBuildMeta.Cve

abbrev Body := List UInt8

/-- What opening an address ends with. -/
inductive Answer where
  | response (etag : Option Text) (body : Body)
  | timeoutError
  | httpError (code : Nat)
  | urlError (timedOut : Bool)
  | otherError

/-! ## UrlOpenTimeout -/

def timeoutMax : Nat := 120

def timeoutMin : Nat := 5

/-- `UrlOpenTimeout.open`, with the timeout of the next call. -/
def openUrl (timeout : Nat) : Answer → Nat × Answer
  | .response etag body => (timeoutMax, .response etag body)
  | .timeoutError | .urlError true => (max (timeout / 2) timeoutMin, .timeoutError)
  | answer => (timeout, answer)

/-! ## The state -/

/-- Where the content of the file comes from that is read next, as it is printed. -/
inductive Source where
  | downloaded
  | timeout
  | cached
  deriving DecidableEq

inductive Phase where
  /-- Before the next year, or before the commit. -/
  | starting
  /-- The file is open; `missing` is what the server has not delivered of the body. -/
  | downloading (year : Text) (etag : Option Text) (missing : Body)
  | reading (year : Text) (source : Source)
  /-- An exception leaves the loop. -/
  | raised

structure Process where
  /-- The etags as the open transaction sees them. -/
  etags : Text → Option Text
  timeout : Nat
  todo : List Text
  phase : Phase
  /-- The years whose files this run has opened for writing. -/
  opened : List Text

structure System where
  disk : Text → Option Body
  /-- The etags of the committed database. -/
  etags : Text → Option Text
  /-- The etags and bodies that the server has answered with. -/
  sent : List (Text × Text × Body)
  process : Option Process

def System.start (disk : Text → Option Body) : System := ⟨disk, fun _ => none, [], none⟩

def cacheName (year : Text) : Text := "nvdcve-1.1-".toList ++ year ++ ".json.gz".toList

def years (thisYear : Nat) : List Text :=
  ((List.range' 2002 (thisYear + 1 - 2002)).map fun year => (toString year).toList) ++
    ["Modified".toList]

/-! ## The steps -/

inductive Action where
  | start (thisYear : Nat)
  | answer (answer : Answer)
  | receive (buf : Body)
  | endOfBody
  | bodyError (timedOut : Bool)
  | load
  | commit
  | close
  | crash

def Process.start (etags : Text → Option Text) (thisYear : Nat) : Process :=
  ⟨etags, timeoutMax, years thisYear, .starting, []⟩

/-- An address whose etag is known is opened with a timeout. -/
def Process.openUrl (p : Process) (year : Text) (answer : Answer) : Nat × Answer :=
  if (p.etags year).isSome then Cve.openUrl p.timeout answer else (p.timeout, answer)

/-- `update_year` up to the opening of the file. -/
def Process.answer (p : Process) (s : System) (year : Text) (answer : Answer) : System :=
  let etag := p.etags year
  let opened := p.openUrl year answer
  let p := { p with timeout := opened.1 }
  match opened.2 with
  | .response (some new) body =>
      { s with
        disk := Function.update s.disk (cacheName year) (some [])
        sent := (year, new, body) :: s.sent
        process := some { p with
          etags := Function.update p.etags year (some new)
          phase := .downloading year etag body
          opened := year :: p.opened } }
  | .timeoutError =>
      if etag.isSome then { s with process := some { p with phase := .reading year .timeout } }
      else { s with process := some { p with phase := .raised } }
  | .httpError 304 => { s with process := some { p with phase := .reading year .cached } }
  | .httpError 404 => { s with process := some { p with phase := .starting } }
  | _ => { s with process := some { p with phase := .raised } }

section Decode

variable (decode : Body → Option Json)

/--
Whether the content of a file is read without an exception; `decode` is what
`gzip` and `json` make of it.
-/
def loads (content : Body) : Bool :=
  match decode content with
  | some tree => (insertFeed tree).isOk
  | none => false

/-- The steps of a run that goes on. -/
def Process.act (s : System) (p : Process) : Action → Phase → Option System
  | .answer answer, .starting =>
      match p.todo with
      | year :: todo => some ({ p with todo }.answer s year answer)
      | [] => none
  | .commit, .starting =>
      if p.todo = [] then some { s with etags := p.etags, process := none } else none
  | .receive buf, .downloading year etag missing =>
      if buf ≠ [] ∧ buf.length ≤ 4096 ∧ buf <+: missing then
        some { s with
          disk := Function.update s.disk (cacheName year)
            ((s.disk (cacheName year)).map (· ++ buf))
          process := some { p with phase := .downloading year etag (missing.drop buf.length) } }
      else none
  | .endOfBody, .downloading year _ _ =>
      some { s with process := some { p with phase := .reading year .downloaded } }
  | .bodyError timedOut, .downloading year etag _ =>
      let phase := if timedOut ∧ etag.isSome then .reading year .timeout else .raised
      some { s with process := some { p with phase } }
  | .load, .reading year _ =>
      let loaded := (s.disk (cacheName year)).any (loads decode)
      let phase := if loaded then .starting else .raised
      some { s with process := some { p with phase } }
  | .close, .raised => some { s with process := none }
  | .crash, _ => some { s with process := none }
  | _, _ => none

def act (s : System) (a : Action) : Option System :=
  match s.process, a with
  | none, .start thisYear => some { s with process := some (.start s.etags thisYear) }
  | none, _ => none
  | some p, a => p.act decode s a p.phase

def Step (s : System) (a : Action) (s' : System) : Prop := act decode s a = some s'

end Decode

/-! ## Coherence -/

/-- The file of the year is the whole body that came with the etag. -/
def System.Complete (s : System) (year etag : Text) : Prop :=
  ∃ body, s.disk (cacheName year) = some body ∧ (year, etag, body) ∈ s.sent

/-- Every etag of the committed database belongs to the file on the disk. -/
def System.Coherent (s : System) : Prop :=
  ∀ year etag, s.etags year = some etag → s.Complete year etag

end GnomeBuildMeta.Cve
