import Mathlib.Algebra.GroupWithZero.Nat
import Mathlib.Data.List.AList
import Mathlib.Data.List.Sort
import Mathlib.Data.String.Basic
import Mathlib.Logic.Function.Basic

/-!
# publish-sysupdate-to-s3.sh

Each job of each pipeline publishes its images and its own checksums, gathers
the checksums of all versions that are in the bucket, and replaces the common
`SHA256SUMS` and its signature.  Every single transfer is one step; nothing
keeps the steps of two jobs apart.
-/

namespace GnomeBuildMeta.Publish

/-! ## Files and objects -/

/-- A file, or an object of the bucket, and when it was last written. -/
structure Stored (α : Type) where
  content : α
  modified : Nat
  deriving DecidableEq, Repr

/-- The lines that `sha256sum` prints. -/
abbrev Sums := List String

def Sums.size (sums : Sums) : Nat := (sums.map fun line => line.utf8ByteSize + 1).sum

/-- A detached signature. -/
structure Signature where
  signed : Sums
  size : Nat
  deriving DecidableEq, Repr

/-- The `SHA256SUMS.version.*` of a directory, by what stands for the star. -/
abbrev Versions (α : Type) := AList fun _ : String => α

/-- What lies under `sysupdate/` next to the images. -/
structure Bucket where
  versions : Versions (Stored Sums)
  sums : Option (Stored Sums)
  gpg : Option (Stored Signature)

namespace Bucket

def published (b : Bucket) : Option Sums := b.sums.map Stored.content

def signed (b : Bucket) : Option Sums := b.gpg.map fun gpg => gpg.content.signed

end Bucket

/-- `aws s3 sync` copies a file that is missing, has another size or is newer. -/
def needsCopy {α : Type} (size : α → Nat) (source : Stored α) : Option (Stored α) → Bool
  | none => true
  | some destination =>
      size source.content != size destination.content ||
        decide (destination.modified < source.modified)

/-! ## One job -/

/-- A job with what it has built: the version, and `SHA256SUMS` as it was written then. -/
structure Job where
  imageVersion : String
  arch : String
  sums : Stored Sums
  signatureSize : Nat

def Job.version (j : Job) : String := j.imageVersion ++ "-" ++ j.arch

/-- `update-images/` after the signature was made. -/
structure UpdateImages where
  versions : Versions Sums
  sums : Stored Sums
  gpg : Stored Signature
  deriving DecidableEq

inductive Progress where
  | built
  /-- The own version file is to be uploaded. -/
  | syncing
  | uploaded
  /-- The listed version files still to be downloaded, and the local ones. -/
  | downloading (listed : List String) (versions : Versions Sums)
  | signed (images : UpdateImages)
  /-- Whether `SHA256SUMS` and `SHA256SUMS.gpg` are still to be uploaded. -/
  | publishing (images : UpdateImages) (sums gpg : Bool)
  | done
  deriving DecidableEq

inductive Action where
  | compareVersion
  | uploadVersion
  | list
  | download (version : String)
  | sign
  | compareSums
  | uploadSums
  | uploadGpg
  deriving DecidableEq, Repr

/-- The job is done once nothing is left to be uploaded. -/
def Progress.publish (images : UpdateImages) (sums gpg : Bool) : Progress :=
  if sums || gpg then .publishing images sums gpg else .done

/-- `cat update-images/SHA256SUMS.version.*` -/
def cat (versions : Versions Sums) : Sums :=
  (versions.entries.insertionSort fun a b => a.1 ≤ b.1).flatMap fun entry => entry.2

/-- What the job does to the bucket, and how it goes on. -/
def Job.act (j : Job) (now : Nat) : Action → Bucket → Progress → Option (Bucket × Progress)
  | .compareVersion, b, .built =>
      some (b, if needsCopy Sums.size j.sums (b.versions.lookup j.version) then .syncing
        else .uploaded)
  | .uploadVersion, b, .syncing =>
      some ({ b with versions := b.versions.insert j.version ⟨j.sums.content, now⟩ }, .uploaded)
  | .list, b, .uploaded =>
      some (b, .downloading b.versions.keys (AList.insert j.version j.sums.content ∅))
  | .download version, b, .downloading listed versions =>
      match b.versions.lookup version with
      | some file =>
          if version ∈ listed then
            some (b, .downloading (listed.erase version) (versions.insert version file.content))
          else none
      | none => none
  | .sign, b, .downloading [] versions =>
      some (b, .signed ⟨versions, ⟨cat versions, now⟩, ⟨⟨cat versions, j.signatureSize⟩, now⟩⟩)
  | .compareSums, b, .signed images =>
      some (b, .publish images (needsCopy Sums.size images.sums b.sums)
        (needsCopy Signature.size images.gpg b.gpg))
  | .uploadSums, b, .publishing images true gpg =>
      some ({ b with sums := some ⟨images.sums.content, now⟩ }, .publish images false gpg)
  | .uploadGpg, b, .publishing images sums true =>
      some ({ b with gpg := some ⟨images.gpg.content, now⟩ }, .publish images sums false)
  | _, _, _ => none

/-! ## All jobs -/

/-- The bucket of the channel and how far the jobs have got. -/
structure System (J : Type) where
  bucket : Bucket
  progress : J → Progress

structure Event (J : Type) where
  job : J
  now : Nat
  action : Action
  deriving DecidableEq, Repr

section Jobs

variable {J : Type} [DecidableEq J]

def System.start (b : Bucket) : System J := ⟨b, fun _ => .built⟩

def System.next (jobs : J → Job) (s : System J) (e : Event J) : Option (System J) :=
  match (jobs e.job).act e.now e.action s.bucket (s.progress e.job) with
  | some (b, progress) => some ⟨b, Function.update s.progress e.job progress⟩
  | none => none

def System.Step (jobs : J → Job) (s : System J) (e : Event J) (s' : System J) : Prop :=
  s.next jobs e = some s'

end Jobs

end GnomeBuildMeta.Publish
