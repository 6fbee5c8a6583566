import Mathlib.Data.List.Basic
import Mathlib.Data.String.Basic
import Mathlib.Logic.Function.Basic

/-!
# publish-s3-image.sh

A job uploads its ISO and then, for a nightly or a tag, overwrites an object
that names the latest one.  The jobs of different pipelines run side by side.
-/

namespace GnomeBuildMeta.Publish.S3Image

abbrev Text := List Char

/-- The variables of a job; one that is not set is empty. -/
structure Env where
  mergeRequestIid : Text
  commitTag : Text
  refProtected : Text
  refName : Text
  defaultBranch : Text
  imageVersion : Text
  pipelineId : Text
  arch : Text

inductive Command where
  | uploadIso (path : Text)
  /-- The object `name` gets the path as its content. -/
  | writePointer (name path : Text)
  deriving DecidableEq

def Env.mergeRequestPath (e : Env) : Text :=
  "merge_request/mr".toList ++ e.mergeRequestIid ++ "/gnome_os_mr_".toList ++ e.imageVersion ++
    "-".toList ++ e.pipelineId ++ "-".toList ++ e.arch ++ ".iso".toList

def Env.tagPath (e : Env) : Text :=
  "tag/".toList ++ e.commitTag ++ "/gnome_os_".toList ++ e.commitTag ++ "-".toList ++ e.arch ++
    ".iso".toList

def Env.isoPath (e : Env) : Text :=
  "iso/".toList ++ e.imageVersion ++ "/gnome_os_".toList ++ e.imageVersion ++ "-".toList ++ e.arch ++
    ".iso".toList

def stableName (tag arch : Text) : Text :=
  "stable-".toList ++ (tag.splitOn '.').headD [] ++ "-".toList ++ arch ++ "-iso".toList

def latestName (arch : Text) : Text := "latest-".toList ++ arch ++ "-live".toList

def script (e : Env) : List Command :=
  if e.mergeRequestIid ≠ [] then [.uploadIso e.mergeRequestPath]
  else if e.commitTag ≠ [] then
    [.uploadIso e.tagPath, .writePointer (stableName e.commitTag e.arch) e.tagPath]
  else if e.refProtected = "true".toList then
    .uploadIso e.isoPath ::
      if e.refName ≠ [] ∧ e.refName = e.defaultBranch then
        [.writePointer (latestName e.arch) e.isoPath]
      else []
  else []

/-! ## The bucket -/

structure Bucket where
  /-- The ISOs that are there as a whole. -/
  isos : List Text
  pointers : Text → Option Text

/-- The commands that a job has not finished, and whether its upload is under way. -/
structure Progress where
  remaining : List Command
  uploading : Bool
  deriving DecidableEq

inductive Action where
  | startUpload
  | finishUpload
  | write
  deriving DecidableEq

def act : Action → Bucket → Progress → Option (Bucket × Progress)
  | .startUpload, b, ⟨.uploadIso path :: rest, false⟩ => some (b, ⟨.uploadIso path :: rest, true⟩)
  | .finishUpload, b, ⟨.uploadIso path :: rest, true⟩ =>
      some ({ b with isos := path :: b.isos }, ⟨rest, false⟩)
  | .write, b, ⟨.writePointer name path :: rest, false⟩ =>
      some ({ b with pointers := Function.update b.pointers name (some path) }, ⟨rest, false⟩)
  | _, _, _ => none

structure System (J : Type) where
  bucket : Bucket
  progress : J → Progress

structure Event (J : Type) where
  job : J
  action : Action
  deriving DecidableEq

variable {J : Type} [DecidableEq J]

def System.start (jobs : J → Env) (b : Bucket) : System J := ⟨b, fun j => ⟨script (jobs j), false⟩⟩

def System.next (s : System J) (e : Event J) : Option (System J) :=
  (act e.action s.bucket (s.progress e.job)).map fun result =>
    ⟨result.1, Function.update s.progress e.job result.2⟩

def System.Step (s : System J) (e : Event J) (s' : System J) : Prop := s.next e = some s'

def System.Finished (s : System J) : Prop := ∀ j, s.progress j = ⟨[], false⟩

end GnomeBuildMeta.Publish.S3Image
