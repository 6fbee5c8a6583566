import GnomeBuildMeta.BootKeys.SignatureLists

/-!
# The keys that the boot loader enrolls

`efi-keys.bst` signs the lists, and `signed-boot-common.bst` puts one set of the
signed variables under `loader/keys/private` and the other under
`loader/keys/auto`.  Names of the two sets may collide in the build directory,
but what is appended to a list was wrapped in the same round.
-/

namespace GnomeBuildMeta.BootKeys

variable {α : Type}

/-! ## The commands -/

/-- What a signed update of an EFI variable holds, and what it is signed with. -/
structure Auth (α : Type) where
  name : Text
  entries : List (Text × α)
  key : Text
  cert : Text

/-- The signed updates, by the texts of their paths. -/
abbrev Auths (α : Type) := AList fun _ : Text => Auth α

/-- `sbvarsign --key key --cert cert name list --output output` -/
def sbvarsign (key cert name list output : Text) (files : Files α) (auths : Auths α) :
    Option (Auths α) :=
  match files.lookup list with
  | some (.signatureList entries) =>
      if isFile files key && isFile files cert then
        some (auths.insert output ⟨name, entries, key, cert⟩)
      else none
  | _ => none

/-- Sign the signature lists. -/
def sign (files : Files α) : Option (Auths α) := do
  let auths ← sbvarsign "PK.key".toList "PK.crt".toList "PK".toList "PK.esl".toList
    "PK.auth".toList files ∅
  let auths ← sbvarsign "PK_MIC.key".toList "PK_MIC.crt".toList "PK".toList "PK-mic.esl".toList
    "PK-mic.auth".toList files auths
  let auths ← sbvarsign "PK.key".toList "PK.crt".toList "KEK".toList "KEK.esl".toList
    "KEK.auth".toList files auths
  let auths ← sbvarsign "PK_MIC.key".toList "PK_MIC.crt".toList "KEK".toList "KEK-mic.esl".toList
    "KEK-mic.auth".toList files auths
  let auths ← sbvarsign "KEK.key".toList "KEK.crt".toList "db".toList "DB.esl".toList
    "DB.auth".toList files auths
  sbvarsign "KEK_MIC.key".toList "KEK_MIC.crt".toList "db".toList "DB-mic.esl".toList
    "DB-mic.auth".toList files auths

/-- `%{datadir}/efi-keys` -/
def efiKeysDir : Text := "/usr/share/efi-keys/".toList

def copyAuth (source destination : Text) (auths installed : Auths α) : Option (Auths α) :=
  (auths.lookup source).map fun auth => installed.insert destination auth

/-- `install -Dm644 -t '%{install-root}%{datadir}/efi-keys'` -/
def installEfiKeys (auths : Auths α) : Option (Auths α) :=
  ["PK", "KEK", "DB", "PK-mic", "KEK-mic", "DB-mic"].foldlM (fun installed (name : String) =>
    copyAuth (name.toList ++ ".auth".toList) (efiKeysDir ++ name.toList ++ ".auth".toList) auths
      installed) ∅

/-- One of the two loops over the keys of a set. -/
def installSet (dir ending : Text) (auths installed : Auths α) : Option (Auths α) :=
  ["PK", "KEK", "DB"].foldlM (fun installed (key : String) =>
    copyAuth (efiKeysDir ++ key.toList ++ ending) (dir ++ key.toList ++ ".auth".toList) auths
      installed) installed

def autoDir : Text := "/efi/loader/keys/auto/".toList

def privateDir : Text := "/efi/loader/keys/private/".toList

/-- The commands of `signed-boot-common.bst` for the secure boot keys. -/
def installLoaderKeys (arch : Text) (auths : Auths α) : Option (Auths α) :=
  if arch = "x86_64".toList ∨ arch = "aarch64".toList then do
    let installed ← installSet autoDir "-mic.auth".toList auths ∅
    installSet privateDir ".auth".toList auths installed
  else some ∅

/-- From the sources of the keys to what the boot loader finds. -/
def loaderKeys (arch : Text) (files : Files α) : Option (Auths α) := do
  let files ← build files
  let auths ← sign files
  let efiKeys ← installEfiKeys auths
  installLoaderKeys arch efiKeys

/-! ## The two sets of lists -/

/-- Only the named files are in the build directory itself, whatever its directories hold. -/
def NamedAtTop (files : Files α) : Prop := ∀ p ∈ files, '/' ∉ p → p ∈ namedSources

theorem NamedAtTop.noOwners {files : Files α} (named : NamedAtTop files) : NoOwners files := by
  have noneOwner : ∀ p ∈ namedSources, ¬ ".owner".toList <:+ p := by decide
  exact fun p member noSlash => noneOwner p (named p member noSlash)

/-- A list of the private set, and the list that gets all that it gets. -/
def Paired (list mic : Text) : Prop :=
  (∃ type, list ∈ KeyType.lists type) ∧ (∃ type, mic ∈ KeyType.lists type) ∧
    ∀ type : KeyType, list ∈ type.lists → mic ∈ type.lists

/-- What a round appends to the private list it appends to the other one as well. -/
theorem enrollExtras_sublist {type : KeyType} {files files' : Files α} {list mic : Text}
    (paired : Paired list mic) (noOwners : NoOwners files)
    (done : enrollExtras files type = some files')
    (before : (entries files list).Sublist (entries files mic)) :
    (entries files' list).Sublist (entries files' mic) := by
  obtain ⟨⟨listType, isList⟩, ⟨micType, isMic⟩, both⟩ := paired
  obtain ⟨appended, frame, _⟩ := enrollExtras_ok noOwners done
  have unchanged : ∀ {other : Text}, (∃ type, other ∈ KeyType.lists type) → other ∉ type.lists →
      entries files' other = entries files other := by
    rintro other ⟨otherType, isOther⟩ outside
    rw [entries, frame other (Or.inr (Or.inl (otherType.lists_facts.2 _ isOther).1)) outside, entries]
  by_cases mine : list ∈ type.lists
  · rw [appended list mine, appended mic (both type mine)]
    exact before.append_right _
  · rw [unchanged ⟨listType, isList⟩ mine]
    by_cases micMine : mic ∈ type.lists
    · rw [appended mic micMine]
      exact before.trans (List.sublist_append_left _ _)
    · rw [unchanged ⟨micType, isMic⟩ micMine]
      exact before

/-- By induction on the types that are left. -/
theorem enrollTypes_sublist {rest : List KeyType} {files files' : Files α} {list mic : Text}
    (paired : Paired list mic) (noOwners : NoOwners files)
    (done : rest.foldlM enrollExtras files = some files')
    (before : (entries files list).Sublist (entries files mic)) :
    (entries files' list).Sublist (entries files' mic) := by
  induction rest generalizing files with
  | nil =>
      cases done
      exact before
  | cons first rest ih =>
      rw [List.foldlM_cons, Option.bind_eq_bind, Option.bind_eq_some_iff] at done
      obtain ⟨middle, one, later⟩ := done
      exact ih (noOwners.enrolled (enrollExtras_ok noOwners one).2.1) later
        (enrollExtras_sublist paired noOwners one before)

theorem paired_kek : Paired "KEK.esl".toList "KEK-mic.esl".toList :=
  ⟨⟨.kek, by decide⟩, ⟨.kek, by decide⟩, fun type => by cases type <;> decide⟩

theorem paired_db : Paired "DB.esl".toList "DB-mic.esl".toList :=
  ⟨⟨.db, by decide⟩, ⟨.db, by decide⟩, fun type => by cases type <;> decide⟩

/-- What the lists of the private set hold, and that the others hold it as well. -/
structure PrivateSet (files files' : Files α) : Prop where
  /-- The own certificate, and one for each file of `extra-kek`. -/
  kek : (entries files' "KEK.esl".toList).Perm (ownGiven files "KEK.crt".toList ++
    disowned files (matched files .kek ".der".toList))
  db : (entries files' "DB.esl".toList).Perm (ownGiven files "DB.crt".toList ++
    disowned files (matched files .db ".der".toList))
  kekMic : (entries files' "KEK.esl".toList).Sublist (entries files' "KEK-mic.esl".toList)
  dbMic : (entries files' "DB.esl".toList).Sublist (entries files' "DB-mic.esl".toList)

theorem build_privateSet {files files' : Files α} (named : NamedAtTop files)
    (done : build files = some files') : PrivateSet files files' := by
  obtain ⟨kek, db, _⟩ := build_lists named.noOwners done
  obtain ⟨own, ownDone, rest⟩ := Option.bind_eq_some_iff.mp done
  obtain ⟨imported, importDone, rest'⟩ := Option.bind_eq_some_iff.mp rest
  obtain ⟨converted, convertDone, enrollDone⟩ := Option.bind_eq_some_iff.mp rest'
  have ready := prepared named.noOwners ownDone importDone convertDone
  refine ⟨kek, db, enrollTypes_sublist paired_kek ready.noOwners enrollDone ?_,
    enrollTypes_sublist paired_db ready.noOwners enrollDone ?_⟩
  · rw [ready.kek, ready.kekMic]
  · rw [ready.db, ready.dbMic]

/-! ## The installed variables -/

theorem sbvarsign_ok {key cert name list output : Text} {files : Files α} {auths auths' : Auths α}
    (done : sbvarsign key cert name list output files auths = some auths') :
    auths' = auths.insert output ⟨name, entries files list, key, cert⟩ := by
  rw [sbvarsign] at done
  split at done
  · next found =>
    split at done
    · cases done
      rw [entries, found]
    · cases done
  · cases done

/-- A loop that copies to different places leaves every copy as it was. -/
theorem copyAll_ok {source destination : String → Text} {names : List String}
    (distinct : (names.map destination).Nodup) {auths installed installed' : Auths α}
    (done : names.foldlM (fun installed name => copyAuth (source name) (destination name) auths
      installed) installed = some installed') :
    (∀ name ∈ names, installed'.lookup (destination name) = auths.lookup (source name)) ∧
      ∀ p, (∀ name ∈ names, p ≠ destination name) → installed'.lookup p = installed.lookup p := by
  induction names generalizing installed with
  | nil =>
      cases done
      exact ⟨fun _ impossible => (List.not_mem_nil impossible).elim, fun _ _ => rfl⟩
  | cons first rest ih =>
      rw [List.foldlM_cons, Option.bind_eq_bind, Option.bind_eq_some_iff] at done
      obtain ⟨middle, one, later⟩ := done
      obtain ⟨auth, found, rfl⟩ := Option.map_eq_some_iff.mp one
      obtain ⟨fresh, distinctRest⟩ := List.nodup_cons.mp distinct
      obtain ⟨copied, frame⟩ := ih distinctRest later
      constructor
      · intro name member
        rcases List.mem_cons.mp member with rfl | inRest
        · have apart : ∀ other ∈ rest, destination name ≠ destination other := fun other inRest same =>
            fresh (same ▸ List.mem_map_of_mem inRest)
          rw [frame _ apart, AList.lookup_insert, found]
        · exact copied name inRest
      · intro p outside
        rw [frame p fun name inRest => outside name (List.mem_cons_of_mem _ inRest),
          AList.lookup_insert_ne (outside first List.mem_cons_self)]

/-- What the two variables hold, in the set that is signed with the keys `pk` and `kek`. -/
structure Installed (auths : Auths α) (dir : Text) (kekEntries dbEntries : List (Text × α))
    (pk kekKey : String) : Prop where
  kek : auths.lookup (dir ++ "KEK.auth".toList) =
    some ⟨"KEK".toList, kekEntries, pk.toList ++ ".key".toList, pk.toList ++ ".crt".toList⟩
  db : auths.lookup (dir ++ "DB.auth".toList) =
    some ⟨"db".toList, dbEntries, kekKey.toList ++ ".key".toList, kekKey.toList ++ ".crt".toList⟩

/-- The updates that are signed, by the names that they are installed under. -/
theorem sign_ok {files : Files α} {auths : Auths α} (done : sign files = some auths) :
    auths.lookup "KEK.auth".toList = some ⟨"KEK".toList, entries files "KEK.esl".toList,
        "PK.key".toList, "PK.crt".toList⟩ ∧
      auths.lookup "KEK-mic.auth".toList = some ⟨"KEK".toList, entries files "KEK-mic.esl".toList,
        "PK_MIC.key".toList, "PK_MIC.crt".toList⟩ ∧
      auths.lookup "DB.auth".toList = some ⟨"db".toList, entries files "DB.esl".toList,
        "KEK.key".toList, "KEK.crt".toList⟩ ∧
      auths.lookup "DB-mic.auth".toList = some ⟨"db".toList, entries files "DB-mic.esl".toList,
        "KEK_MIC.key".toList, "KEK_MIC.crt".toList⟩ := by
  simp only [sign, Option.bind_eq_bind, Option.bind_eq_some_iff] at done
  obtain ⟨_, pk, _, pkMic, _, kek, _, kekMic, _, db, dbMic⟩ := done
  cases sbvarsign_ok pk
  cases sbvarsign_ok pkMic
  cases sbvarsign_ok kek
  cases sbvarsign_ok kekMic
  cases sbvarsign_ok db
  cases sbvarsign_ok dbMic
  simp (disch := decide) only [AList.lookup_insert_ne, AList.lookup_insert, and_self]

theorem dirs_apart (key other : Text) : autoDir ++ key ≠ privateDir ++ other := by
  intro same
  have start : privateDir <+: autoDir ++ key := ⟨other, same.symm⟩
  rcases List.prefix_or_prefix_of_prefix (List.prefix_append autoDir key) start with within | within
  · exact absurd within (by decide)
  · exact absurd within (by decide)

/-- Both sets are found where the boot loader looks for them. -/
theorem loaderKeys_installed {arch : Text} (known : arch = "x86_64".toList ∨ arch = "aarch64".toList)
    {files : Files α} {installed : Auths α} (done : loaderKeys arch files = some installed) :
    ∃ files', build files = some files' ∧
      Installed installed privateDir (entries files' "KEK.esl".toList) (entries files' "DB.esl".toList)
        "PK" "KEK" ∧
      Installed installed autoDir (entries files' "KEK-mic.esl".toList)
        (entries files' "DB-mic.esl".toList) "PK_MIC" "KEK_MIC" := by
  simp only [loaderKeys, Option.bind_eq_bind, Option.bind_eq_some_iff] at done
  obtain ⟨files', built, auths, signed, efiKeys, shared, last⟩ := done
  obtain ⟨kek, kekMic, db, dbMic⟩ := sign_ok signed
  obtain ⟨copied, _⟩ := copyAll_ok (by decide) shared
  rw [installLoaderKeys, if_pos known] at last
  obtain ⟨autoSet, first, second⟩ := Option.bind_eq_some_iff.mp last
  obtain ⟨autoCopied, _⟩ := copyAll_ok (by decide) first
  obtain ⟨privateCopied, frame⟩ := copyAll_ok (by decide) second
  have fromAuto : ∀ key : String, installed.lookup (autoDir ++ key.toList ++ ".auth".toList) =
      autoSet.lookup (autoDir ++ key.toList ++ ".auth".toList) := by
    intro key
    refine frame _ fun name _ same => ?_
    rw [List.append_assoc, List.append_assoc] at same
    exact dirs_apart _ _ same
  refine ⟨files', built, ⟨?_, ?_⟩, ⟨?_, ?_⟩⟩
  · exact (privateCopied "KEK" (by decide)).trans ((copied "KEK" (by decide)).trans kek)
  · exact (privateCopied "DB" (by decide)).trans ((copied "DB" (by decide)).trans db)
  · exact (fromAuto "KEK").trans ((autoCopied "KEK" (by decide)).trans
      ((copied "KEK-mic" (by decide)).trans kekMic))
  · exact (fromAuto "DB").trans ((autoCopied "DB" (by decide)).trans
      ((copied "DB-mic" (by decide)).trans dbMic))

/--
Whatever is in the directories of extra keys: the lists of the private set hold
the own certificate and those of `extra-kek` and `extra-db`, the other lists hold
more, and that is what is installed.
-/
theorem private_stays_private {arch : Text} (known : arch = "x86_64".toList ∨ arch = "aarch64".toList)
    {files : Files α} (named : NamedAtTop files) {installed : Auths α}
    (done : loaderKeys arch files = some installed) :
    ∃ files', build files = some files' ∧ PrivateSet files files' ∧
      Installed installed privateDir (entries files' "KEK.esl".toList) (entries files' "DB.esl".toList)
        "PK" "KEK" ∧
      Installed installed autoDir (entries files' "KEK-mic.esl".toList)
        (entries files' "DB-mic.esl".toList) "PK_MIC" "KEK_MIC" := by
  obtain ⟨files', built, privateKeys, autoKeys⟩ := loaderKeys_installed known done
  exact ⟨files', built, build_privateSet named built, privateKeys, autoKeys⟩

/-- Two files whose intermediate names are the same, one of them in a `-mic` directory. -/
def aliasedFiles : Files Nat :=
  (vendorFiles.insert "extra-kek/-micown.der".toList (.der 8)).insert
    "extra-kek-mic/own.der".toList (.der 9)

theorem aliased_private : ∃ installed files', loaderKeys "x86_64".toList aliasedFiles = some installed ∧
    build aliasedFiles = some files' ∧ PrivateSet aliasedFiles files' ∧
    Installed installed privateDir (entries files' "KEK.esl".toList) (entries files' "DB.esl".toList)
      "PK" "KEK" := by
  have evaluated : (loaderKeys "x86_64".toList aliasedFiles).isSome = true := by decide +kernel
  have named : NamedAtTop aliasedFiles := by
    change ∀ p ∈ aliasedFiles.keys, _
    decide +kernel
  obtain ⟨installed, done⟩ := Option.isSome_iff_exists.mp evaluated
  obtain ⟨files', built, lists, privateKeys, _⟩ := private_stays_private (Or.inl rfl) named done
  exact ⟨installed, files', done, built, lists, privateKeys⟩

end GnomeBuildMeta.BootKeys
