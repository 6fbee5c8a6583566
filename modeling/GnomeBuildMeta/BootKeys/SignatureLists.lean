import GnomeBuildMeta.BootKeys.EfiKeys
import Mathlib.Data.List.Perm.Basic
import Mathlib.Data.List.TakeWhile

/-!
# The signature lists that efi-keys.bst builds

The names of the files that the two loops make lack the slash between directory
and name.  A converted certificate is never looked for there, and an owner is
never found there, so the lists hold exactly the certificates that were given in
DER, each as if GNOME OS owned it.
-/

namespace GnomeBuildMeta.BootKeys

variable {α : Type}

/-! ## What the lists should hold -/

/-- The files that the element stages at the top of the build directory. -/
def namedSources : List Text :=
  ["PK.key".toList, "PK.crt".toList, "PK_MIC.key".toList, "PK_MIC.crt".toList, "KEK.key".toList,
    "KEK.crt".toList, "KEK_MIC.key".toList, "KEK_MIC.crt".toList, "DB.crt".toList]

/-- The directories that it stages. -/
def stagedDirs : List Text :=
  [KeyType.kek.extraDir, KeyType.db.extraDir, "microsoft_objects".toList]

/-- The build directory before the first command. -/
def Staged (files : Files α) : Prop :=
  ∀ p ∈ files, p ∈ namedSources ∨ ∃ dir ∈ stagedDirs, dir ++ ['/'] <+: p

def certificateOf (files : Files α) (path : Text) : Option α :=
  match files.lookup path with
  | some (.pem certificate) => some certificate
  | some (.der certificate) => some certificate
  | _ => none

/-- The owner that `NAME.owner` names beside `NAME.crt` or `NAME.der`. -/
def ownerOf (files : Files α) (path : Text) : Text :=
  (cat files (path.take (path.length - 4) ++ ".owner".toList)).getD gnomeosKeysUuid

/-- The extra certificates given for a type, with their owners. -/
def given (files : Files α) (type : KeyType) : List (Text × α) :=
  (files.keys.filter fun path => matchesGlob type.extraDir ".crt".toList path ||
      matchesGlob type.extraDir ".der".toList path).filterMap fun path =>
    (certificateOf files path).map fun certificate => (ownerOf files path, certificate)

def microsoftGiven (files : Files α) (kind : Text) (keys : List Text) : List (Text × α) :=
  keys.filterMap fun key =>
    (certificateOf files (microsoftObject kind key)).map fun certificate =>
      (microsoftOwner, certificate)

def ownGiven (files : Files α) (path : Text) : List (Text × α) :=
  (certificateOf files path).toList.map fun certificate => (gnomeosKeysUuid, certificate)

/-- The entries of a signature list. -/
def entries (files : Files α) (list : Text) : List (Text × α) :=
  match files.lookup list with
  | some (.signatureList entries) => entries
  | _ => []

/-- Every certificate is in its lists once and with its owner. -/
structure Listed (files files' : Files α) : Prop where
  kek : (entries files' "KEK.esl".toList).Perm (ownGiven files "KEK.crt".toList ++ given files .kek)
  kekMic : (entries files' "KEK-mic.esl".toList).Perm (ownGiven files "KEK.crt".toList ++
    given files .kek ++ microsoftGiven files "KEK".toList microsoftKek)
  db : (entries files' "DB.esl".toList).Perm (ownGiven files "DB.crt".toList ++ given files .db)
  dbMic : (entries files' "DB-mic.esl".toList).Perm (ownGiven files "DB.crt".toList ++
    given files .db ++ microsoftGiven files "DB".toList microsoftDb)

/-! ## Names -/

theorem matchesGlob_iff {dir suffix path : Text} : matchesGlob dir suffix path = true ↔
    ∃ name, path = dir ++ '/' :: name ∧ '/' ∉ name ∧ name.head? ≠ some '.' ∧ suffix <:+ name := by
  simp only [matchesGlob, Bool.and_eq_true, List.isPrefixOf_iff_prefix, List.isSuffixOf_iff_suffix,
    decide_eq_true_eq, and_assoc]
  constructor
  · rintro ⟨⟨name, rfl⟩, noSlash, visible, ending⟩
    have rest : (dir ++ ['/'] ++ name).drop (dir.length + 1) = name := by
      rw [show dir.length + 1 = (dir ++ ['/']).length by simp, List.drop_left]
    rw [rest] at noSlash visible ending
    exact ⟨name, by simp, noSlash, visible, ending⟩
  · rintro ⟨name, rfl, noSlash, visible, ending⟩
    have rest : (dir ++ '/' :: name).drop (dir.length + 1) = name := by
      rw [← List.drop_drop, List.drop_left]
      rfl
    rw [rest]
    exact ⟨⟨name, by simp⟩, noSlash, visible, ending⟩

theorem not_mem_basename (path suffix : Text) : '/' ∉ basename path suffix := by
  have inside : '/' ∉ (path.reverse.takeWhile (· ≠ '/')).reverse := by
    intro member
    have differs := List.mem_takeWhile_imp (List.mem_reverse.mp member)
    simp at differs
  rw [basename]
  split
  · exact fun member => inside (List.mem_of_mem_take member)
  · exact inside

theorem dirname_join {dir name : Text} (noSlash : '/' ∉ dir) (proper : dir ≠ [])
    (noSlash' : '/' ∉ name) : dirname (dir ++ '/' :: name) = dir := by
  have reversed : (dir ++ '/' :: name).reverse = name.reverse ++ ('/' :: dir.reverse) := by simp
  have first : (name.reverse ++ ('/' :: dir.reverse)).dropWhile (· ≠ '/') = '/' :: dir.reverse := by
    rw [List.dropWhile_append_of_pos]
    · simp
    · intro c member
      have other : c ≠ '/' := fun same => noSlash' (same ▸ List.mem_reverse.mp member)
      simpa using other
  have second : ('/' :: dir.reverse).dropWhile (· = '/') = dir.reverse := by
    rw [List.dropWhile_cons_of_pos (by simp)]
    cases ends : dir.reverse with
    | nil => rfl
    | cons c rest =>
        have member : c ∈ dir := List.mem_reverse.mp (ends ▸ List.mem_cons_self)
        rw [List.dropWhile_cons_of_neg]
        intro same
        exact noSlash ((by simpa using same : c = '/') ▸ member)
  rw [dirname, if_pos (by simp), reversed, first, second, List.reverse_reverse]
  exact if_neg proper

theorem KeyType.extraDir_facts (type : KeyType) : '/' ∉ type.extraDir ∧ type.extraDir ≠ [] ∧
    substitution type.extraDir = type.extraDir ∧ "extra-".toList <+: type.extraDir := by
  cases type <;> decide

/-- A path that neither loop makes: in a directory, without the prefix, or of an owner. -/
def Kept (path : Text) : Prop :=
  '/' ∈ path ∨ ¬ "extra-".toList <+: path ∨ ".owner".toList <:+ path

/-- The names that the loops make from a path lie beside its directory. -/
theorem not_kept_baseOf {type : KeyType} {name ending : Text} (noSlash : '/' ∉ name)
    (plain : '/' ∉ ending) (notOwner : ∀ stem : Text, ¬ ".owner".toList <:+ stem ++ ending) :
    ¬ Kept (baseOf (type.extraDir ++ '/' :: name) ++ ending) := by
  obtain ⟨noSlashDir, proper, unchanged, marked⟩ := type.extraDir_facts
  rw [baseOf, dirname_join noSlashDir proper noSlash, unchanged]
  rintro (slash | unmarked | owner)
  · simp only [List.mem_append] at slash
    rcases slash with (inDir | inName) | inEnding
    · exact noSlashDir inDir
    · refine not_mem_basename (type.extraDir ++ '/' :: name) ".crt".toList ?_
      exact List.mem_reverse.mp ((List.dropWhile_sublist _).subset (List.mem_reverse.mp inName))
    · exact plain inEnding
  · apply unmarked
    rw [List.append_assoc]
    exact marked.trans (List.prefix_append _ _)
  · exact notOwner _ owner

/-! ## The loops -/

/-- The files that the pattern of a loop stands for. -/
def matched (files : Files α) (type : KeyType) (suffix : Text) : List Text :=
  (files.keys.filter (matchesGlob type.extraDir suffix)).insertionSort (· ≤ ·)

theorem mem_matched {files : Files α} {type : KeyType} {suffix path : Text} :
    path ∈ matched files type suffix ↔
      path ∈ files ∧ matchesGlob type.extraDir suffix path = true := by
  rw [matched, (List.perm_insertionSort _ _).mem_iff, List.mem_filter, AList.mem_keys]

theorem nodup_matched (files : Files α) (type : KeyType) (suffix : Text) :
    (matched files type suffix).Nodup := by
  rw [matched, (List.perm_insertionSort _ _).nodup_iff]
  exact files.keys_nodup.filter _

/-- If nothing matches the loop is over after a round that does nothing. -/
theorem foldlM_glob {f : Files α → Text → Option (Files α)}
    (absent : ∀ files extra, isFile files extra = false → f files extra = some files)
    (files : Files α) (type : KeyType) (suffix : Text) (noSlash : '/' ∉ suffix) :
    (glob files type.extraDir suffix).foldlM f files = (matched files type suffix).foldlM f files := by
  rw [glob]
  cases found : (files.keys.filter (matchesGlob type.extraDir suffix)).insertionSort (· ≤ ·) with
  | cons first rest => rw [matched, found]
  | nil =>
      rw [matched, found]
      have nothing : isFile files (type.extraDir ++ ['/', '*'] ++ suffix) = false := by
        rw [isFile, Option.isSome_eq_false_iff, Option.isNone_iff_eq_none, AList.lookup_eq_none]
        intro member
        have pattern : matchesGlob type.extraDir suffix (type.extraDir ++ ['/', '*'] ++ suffix) =
            true :=
          matchesGlob_iff.mpr ⟨'*' :: suffix, by simp, by simpa using noSlash, by simp,
            List.suffix_cons _ _⟩
        have impossible := mem_matched.mpr ⟨member, pattern⟩
        rw [matched, found] at impossible
        cases impossible
      rw [List.foldlM_cons, absent _ _ nothing]
      rfl

/-- What is kept where it was. -/
def Agrees (files files' : Files α) : Prop := ∀ p, Kept p → files'.lookup p = files.lookup p

theorem openssl_ok {input output : Text} {files files' : Files α}
    (done : openssl input output files = some files') :
    ∃ certificate, files.lookup input = some (.pem certificate) ∧
      files' = files.insert output (.der certificate) := by
  unfold openssl at done
  split at done
  · rename_i certificate found
    cases done
    exact ⟨certificate, found, rfl⟩
  · cases done

theorem sbsiglist_ok {owner input output : Text} {files files' : Files α}
    (done : sbsiglist owner input output files = some files') :
    ∃ certificate, files.lookup input = some (.der certificate) ∧
      files' = files.insert output (.signatureList [(owner, certificate)]) := by
  unfold sbsiglist at done
  split at done
  · rename_i certificate found
    cases done
    exact ⟨certificate, found, rfl⟩
  · cases done

theorem catAppend_ok {input output : Text} {files files' : Files α}
    (done : catAppend input output files = some files') :
    ∃ added old, files.lookup input = some (.signatureList added) ∧
      files.lookup output = some (.signatureList old) ∧
        files' = files.insert output (.signatureList (old ++ added)) := by
  unfold catAppend at done
  split at done
  · rename_i added old found found'
    cases done
    exact ⟨added, old, found, found', rfl⟩
  · cases done

theorem convert_agrees {type : KeyType} {name : Text} {files files' : Files α}
    (noSlash : '/' ∉ name)
    (done : convert files (type.extraDir ++ '/' :: name) = some files') : Agrees files files' := by
  rw [convert] at done
  split at done
  · obtain ⟨certificate, _, rfl⟩ := openssl_ok done
    intro p kept
    refine AList.lookup_insert_ne ?_
    rintro rfl
    refine not_kept_baseOf noSlash (by decide) (fun stem owner => ?_) kept
    have last := List.suffix_append stem ".der".toList
    have ends := List.suffix_of_suffix_length_le last owner (by decide)
    exact absurd ends (by decide)
  · cases done
    exact fun _ _ => rfl

theorem convertExtras_agrees {type : KeyType} {files files' : Files α}
    (done : convertExtras files type = some files') : Agrees files files' := by
  have absent : ∀ (files : Files α) extra, isFile files extra = false →
      convert files extra = some files := fun files extra missing => if_neg (by simp [missing])
  rw [convertExtras, foldlM_glob absent files type ".crt".toList (by decide)] at done
  have general : ∀ paths : List Text, (∀ p ∈ paths, matchesGlob type.extraDir ".crt".toList p = true) →
      ∀ files, paths.foldlM convert files = some files' → Agrees files files' := by
    intro paths
    induction paths with
    | nil =>
        intro _ files done
        cases done
        exact fun _ _ => rfl
    | cons path rest ih =>
        intro good files done
        rw [List.foldlM_cons, Option.bind_eq_bind, Option.bind_eq_some_iff] at done
        obtain ⟨middle, one, later⟩ := done
        obtain ⟨name, rfl, noSlash, _⟩ := matchesGlob_iff.mp (good path List.mem_cons_self)
        have after := ih (fun p member => good p (List.mem_cons_of_mem _ member)) middle later
        exact fun p kept => (after p kept).trans (convert_agrees noSlash one p kept)
  exact general _ (fun p member => (mem_matched.mp member).2) files done

/-- The appended list arrives once in each of the lists. -/
theorem catAppend_all {input : Text} {added : List (Text × α)} {lists : List Text}
    (nodup : lists.Nodup) (apart : input ∉ lists) {files files' : Files α}
    (there : files.lookup input = some (.signatureList added))
    (done : lists.foldlM (fun files list => catAppend input list files) files = some files') :
    (∀ list ∈ lists, entries files' list = entries files list ++ added) ∧
      ∀ p ∉ lists, files'.lookup p = files.lookup p := by
  induction lists generalizing files with
  | nil =>
      cases done
      exact ⟨fun _ impossible => (nomatch impossible), fun _ _ => rfl⟩
  | cons first rest ih =>
      rw [List.foldlM_cons, Option.bind_eq_bind, Option.bind_eq_some_iff] at done
      obtain ⟨middle, one, later⟩ := done
      obtain ⟨added', old, same, found, rfl⟩ := catAppend_ok one
      cases there.symm.trans same
      obtain ⟨fresh, nodupRest⟩ := List.nodup_cons.mp nodup
      have other : input ≠ first := fun same => apart (same ▸ List.mem_cons_self)
      obtain ⟨all, frame⟩ := ih nodupRest (fun inside => apart (List.mem_cons_of_mem _ inside))
        ((AList.lookup_insert_ne other).trans there) later
      constructor
      · intro list member
        rcases List.mem_cons.mp member with rfl | inRest
        · rw [entries, frame list fresh, AList.lookup_insert, entries, found]
        · have differ : list ≠ first := fun same => fresh (same ▸ inRest)
          rw [all list inRest, entries, AList.lookup_insert_ne differ, entries]
      · intro p outside
        have differ : p ≠ first := fun same => outside (same ▸ List.mem_cons_self)
        rw [frame p fun inside => outside (List.mem_cons_of_mem _ inside),
          AList.lookup_insert_ne differ]

/-- No file beside the directories looks like an owner. -/
def NoOwners (files : Files α) : Prop := ∀ p ∈ files, '/' ∉ p → ¬ ".owner".toList <:+ p

theorem KeyType.lists_facts (type : KeyType) : type.lists.Nodup ∧
    ∀ list ∈ type.lists, ¬ "extra-".toList <+: list ∧ '/' ∉ list ∧ ¬ ".owner".toList <:+ list := by
  cases type <;> decide

/-- Enrolling changes nothing that could be taken for an owner. -/
theorem NoOwners.enrolled {type : KeyType} {files files' : Files α} (noOwners : NoOwners files)
    (frame : ∀ p, Kept p → p ∉ type.lists → files'.lookup p = files.lookup p) : NoOwners files' := by
  intro p member noSlash owner
  have outside : p ∉ type.lists := fun inside => (type.lists_facts.2 _ inside).2.2 owner
  rw [← AList.lookup_isSome, frame p (Or.inr (Or.inr owner)) outside, AList.lookup_isSome] at member
  exact noOwners p member noSlash owner

/-- Each certificate is appended as one of GNOME OS. -/
theorem enroll_ok {type : KeyType} {name : Text} {files files' : Files α} (noSlash : '/' ∉ name)
    (noOwners : NoOwners files) (there : isFile files (type.extraDir ++ '/' :: name) = true)
    (done : enroll type files (type.extraDir ++ '/' :: name) = some files') :
    ∃ certificate, files.lookup (type.extraDir ++ '/' :: name) = some (.der certificate) ∧
      (∀ list ∈ type.lists, entries files' list = entries files list ++ [(gnomeosKeysUuid, certificate)]) ∧
        ∀ p, Kept p → p ∉ type.lists → files'.lookup p = files.lookup p := by
  have listNotKept : ¬ Kept (baseOf (type.extraDir ++ '/' :: name) ++ ".esl".toList) := by
    refine not_kept_baseOf noSlash (by decide) fun stem owner => ?_
    have ends := List.suffix_of_suffix_length_le (List.suffix_append stem ".esl".toList) owner
      (by decide)
    exact absurd ends (by decide)
  have noOwner : isFile files (baseOf (type.extraDir ++ '/' :: name) ++ ".owner".toList) = false := by
    rw [isFile, Option.isSome_eq_false_iff, Option.isNone_iff_eq_none, AList.lookup_eq_none]
    intro member
    refine noOwners _ member (fun slash => ?_) (List.suffix_append _ _)
    rcases List.mem_append.mp slash with inBase | inEnding
    · exact listNotKept (Or.inl (List.mem_append_left _ inBase))
    · exact absurd inEnding (by decide)
  obtain ⟨nodup, facts⟩ := type.lists_facts
  rw [enroll, if_pos there] at done
  simp only [noOwner, Bool.false_eq_true, ↓reduceIte, Option.bind_eq_bind, Option.bind_some] at done
  obtain ⟨made, wrapped, appended⟩ := Option.bind_eq_some_iff.mp done
  obtain ⟨certificate, found, rfl⟩ := sbsiglist_ok wrapped
  have apart : ∀ list ∈ type.lists, list ≠ baseOf (type.extraDir ++ '/' :: name) ++ ".esl".toList := by
    rintro list member rfl
    exact listNotKept (Or.inr (Or.inl (facts _ member).1))
  obtain ⟨all, frame⟩ := catAppend_all nodup (fun member => apart _ member rfl)
    (AList.lookup_insert files) appended
  refine ⟨certificate, found, fun list member => ?_, fun p kept outside => ?_⟩
  · rw [all list member, entries, AList.lookup_insert_ne (apart list member), entries]
  · rw [frame p outside, AList.lookup_insert_ne]
    rintro rfl
    exact listNotKept kept

/-- The certificates of some files, all as those of GNOME OS. -/
def disowned (files : Files α) (paths : List Text) : List (Text × α) :=
  paths.filterMap fun path =>
    match files.lookup path with
    | some (.der certificate) => some (gnomeosKeysUuid, certificate)
    | _ => none

theorem disowned_congr {files files' : Files α} {paths : List Text}
    (same : ∀ p ∈ paths, files'.lookup p = files.lookup p) :
    disowned files' paths = disowned files paths :=
  List.filterMap_congr fun p member => by rw [same p member]

theorem enrollAll {type : KeyType} {paths : List Text} {files files' : Files α}
    (good : ∀ p ∈ paths, ∃ name, p = type.extraDir ++ '/' :: name ∧ '/' ∉ name)
    (noOwners : NoOwners files) (there : ∀ p ∈ paths, isFile files p = true)
    (done : paths.foldlM (enroll type) files = some files') :
    (∀ list ∈ type.lists, entries files' list = entries files list ++ disowned files paths) ∧
      (∀ p, Kept p → p ∉ type.lists → files'.lookup p = files.lookup p) ∧
        ∀ p ∈ paths, ∃ certificate, files.lookup p = some (.der certificate) := by
  induction paths generalizing files with
  | nil =>
      cases done
      refine ⟨fun list _ => ?_, fun _ _ _ => rfl, fun _ impossible => (nomatch impossible)⟩
      simp [disowned]
  | cons path rest ih =>
      rw [List.foldlM_cons, Option.bind_eq_bind, Option.bind_eq_some_iff] at done
      obtain ⟨middle, one, later⟩ := done
      obtain ⟨name, rfl, noSlash⟩ := good path List.mem_cons_self
      obtain ⟨certificate, found, appended, frame⟩ :=
        enroll_ok noSlash noOwners (there _ List.mem_cons_self) one
      have restFrame : ∀ p ∈ rest, middle.lookup p = files.lookup p := by
        intro p member
        obtain ⟨other, rfl, _⟩ := good p (List.mem_cons_of_mem _ member)
        refine frame _ (Or.inl (by simp)) fun inside => ?_
        exact (type.lists_facts.2 _ inside).2.1 (by simp)
      obtain ⟨all, frame', ders⟩ := ih (fun p member => good p (List.mem_cons_of_mem _ member))
        (noOwners.enrolled frame) (fun p member => by
          rw [isFile, restFrame p member]
          exact there p (List.mem_cons_of_mem _ member)) later
      refine ⟨fun list member => ?_, fun p kept outside => ?_, fun p member => ?_⟩
      · rw [all list member, appended list member, disowned_congr restFrame, List.append_assoc]
        congr 1
        rw [disowned, disowned, List.filterMap_cons, found]
        rfl
      · exact (frame' p kept outside).trans (frame p kept outside)
      · rcases List.mem_cons.mp member with rfl | inRest
        · exact ⟨certificate, found⟩
        · rw [← restFrame p inRest]
          exact ders p inRest

theorem enrollExtras_ok {type : KeyType} {files files' : Files α} (noOwners : NoOwners files)
    (done : enrollExtras files type = some files') :
    (∀ list ∈ type.lists, entries files' list =
        entries files list ++ disowned files (matched files type ".der".toList)) ∧
      (∀ p, Kept p → p ∉ type.lists → files'.lookup p = files.lookup p) ∧
        ∀ p ∈ matched files type ".der".toList, ∃ certificate,
          files.lookup p = some (.der certificate) := by
  have absent : ∀ (files : Files α) extra, isFile files extra = false →
      enroll type files extra = some files := fun files extra missing => if_neg (by simp [missing])
  rw [enrollExtras, foldlM_glob absent files type ".der".toList (by decide)] at done
  refine enrollAll (fun p member => ?_) noOwners (fun p member => ?_) done
  · obtain ⟨name, same, noSlash, _⟩ := matchesGlob_iff.mp (mem_matched.mp member).2
    exact ⟨name, same, noSlash⟩
  · exact AList.lookup_isSome.mpr (mem_matched.mp member).1

/-! ## All types -/

theorem slash_of_matchesGlob {dir suffix path : Text} (pattern : matchesGlob dir suffix path = true) :
    '/' ∈ path := by
  obtain ⟨name, rfl, _⟩ := matchesGlob_iff.mp pattern
  simp

theorem disowned_matched_perm {files files' : Files α} {type : KeyType} {suffix : Text}
    (same : ∀ p, matchesGlob type.extraDir suffix p = true → files'.lookup p = files.lookup p) :
    (disowned files' (matched files' type suffix)).Perm (disowned files (matched files type suffix)) := by
  have paths : (matched files' type suffix).Perm (matched files type suffix) := by
    rw [List.perm_ext_iff_of_nodup (nodup_matched _ _ _) (nodup_matched _ _ _)]
    intro p
    rw [mem_matched, mem_matched, ← AList.lookup_isSome, ← AList.lookup_isSome]
    constructor
    · rintro ⟨there, pattern⟩
      exact ⟨same p pattern ▸ there, pattern⟩
    · rintro ⟨there, pattern⟩
      exact ⟨(same p pattern).symm ▸ there, pattern⟩
  rw [disowned_congr fun p member => same p (mem_matched.mp member).2]
  exact paths.filterMap _

/-- A list gets what belongs to its types, in the order of the types. -/
theorem enrollTypes_ok {rest : List KeyType} {files files' : Files α} (noOwners : NoOwners files)
    (done : rest.foldlM enrollExtras files = some files') (list : Text)
    (isList : ∃ type, list ∈ KeyType.lists type) :
    (entries files' list).Perm (entries files list ++
        (rest.filter fun type => list ∈ type.lists).flatMap fun type =>
          disowned files (matched files type ".der".toList)) ∧
      ∀ type ∈ rest, ∀ p ∈ matched files type ".der".toList, ∃ certificate,
        files.lookup p = some (.der certificate) := by
  induction rest generalizing files with
  | nil =>
      cases done
      exact ⟨by simp, fun _ impossible => (nomatch impossible)⟩
  | cons first rest ih =>
      rw [List.foldlM_cons, Option.bind_eq_bind, Option.bind_eq_some_iff] at done
      obtain ⟨middle, one, later⟩ := done
      obtain ⟨appended, frame, ders⟩ := enrollExtras_ok noOwners one
      have below : ∀ p, '/' ∈ p → middle.lookup p = files.lookup p := fun p slash =>
        frame p (Or.inl slash) fun inside => (first.lists_facts.2 _ inside).2.1 slash
      obtain ⟨all, dersRest⟩ := ih (noOwners.enrolled frame) later
      have restPerm : ∀ types : List KeyType, (types.flatMap fun type =>
          disowned middle (matched middle type ".der".toList)).Perm (types.flatMap fun type =>
            disowned files (matched files type ".der".toList)) :=
        fun types => List.Perm.flatMap_left _ fun type _ =>
          disowned_matched_perm fun p pattern => below p (slash_of_matchesGlob pattern)
      constructor
      · by_cases mine : list ∈ first.lists
        · rw [List.filter_cons_of_pos (by simpa using mine), List.flatMap_cons, ← List.append_assoc]
          refine all.trans ?_
          rw [appended list mine]
          exact (restPerm _).append_left _
        · rw [List.filter_cons_of_neg (by simpa using mine)]
          obtain ⟨type, isList⟩ := isList
          have unmarked := (type.lists_facts.2 _ isList).1
          refine all.trans ?_
          rw [entries, frame list (Or.inr (Or.inl unmarked)) mine, ← entries]
          exact (restPerm _).append_left _
      · intro type member p inside
        rcases List.mem_cons.mp member with rfl | inRest
        · exact ders p inside
        · have slash := slash_of_matchesGlob (mem_matched.mp inside).2
          rw [← below p slash]
          refine dersRest type inRest p (mem_matched.mpr ⟨?_, (mem_matched.mp inside).2⟩)
          rw [← AList.lookup_isSome, below p slash, AList.lookup_isSome]
          exact (mem_matched.mp inside).1

/-! ## The commands before the loops -/

theorem ownLists_ok {files files' : Files α} (done : ownLists files = some files') :
    entries files' "KEK.esl".toList = ownGiven files "KEK.crt".toList ∧
      entries files' "KEK-mic.esl".toList = ownGiven files "KEK.crt".toList ∧
      entries files' "DB.esl".toList = ownGiven files "DB.crt".toList ∧
      entries files' "DB-mic.esl".toList = ownGiven files "DB.crt".toList ∧
      ∀ p, '/' ∈ p ∨ ".owner".toList <:+ p → files'.lookup p = files.lookup p := by
  simp only [ownLists, Option.bind_eq_bind, Option.bind_eq_some_iff] at done
  obtain ⟨_, pkDer, _, kekDer, _, dbDer, _, pkList, _, kekList, _, dbList, _, micDer, _, micList, _,
    kekMicList, dbMicList⟩ := done
  obtain ⟨_, _, rfl⟩ := openssl_ok pkDer
  obtain ⟨kek, kekSource, rfl⟩ := openssl_ok kekDer
  obtain ⟨db, dbSource, rfl⟩ := openssl_ok dbDer
  obtain ⟨_, _, rfl⟩ := sbsiglist_ok pkList
  obtain ⟨kek', kekFound, rfl⟩ := sbsiglist_ok kekList
  obtain ⟨db', dbFound, rfl⟩ := sbsiglist_ok dbList
  obtain ⟨_, _, rfl⟩ := openssl_ok micDer
  obtain ⟨_, _, rfl⟩ := sbsiglist_ok micList
  obtain ⟨kek'', kekFound', rfl⟩ := sbsiglist_ok kekMicList
  obtain ⟨db'', dbFound', rfl⟩ := sbsiglist_ok dbMicList
  simp (disch := decide) only [AList.lookup_insert_ne, AList.lookup_insert]
    at kekSource dbSource kekFound dbFound kekFound' dbFound'
  cases kekFound
  cases dbFound
  cases kekFound'
  cases dbFound'
  simp (disch := decide) only [entries, ownGiven, certificateOf, AList.lookup_insert_ne,
    AList.lookup_insert, kekSource, dbSource]
  refine ⟨rfl, rfl, rfl, rfl, fun p elsewhere => ?_⟩
  have outside : ∀ made : Text, '/' ∉ made → ¬ ".owner".toList <:+ made → p ≠ made := by
    rintro made noSlash notOwner rfl
    exact elsewhere.elim noSlash notOwner
  simp (disch := exact outside _ (by decide) (by decide)) only [AList.lookup_insert_ne]

/-- `extra-${type}/${key// /_}` with an ending -/
def importPath (type : KeyType) (key ending : Text) : Text :=
  type.extraDir ++ ['/'] ++ underscored key ++ ending

theorem importKeys_ok {kind : Text} {type : KeyType} {keys : List Text}
    (distinct : (keys.map underscored).Nodup) {files files' : Files α}
    (apart : ∀ key, ¬ type.extraDir ++ ['/'] <+: microsoftObject kind key)
    (done : keys.foldlM (importKey kind type) files = some files') :
    (∀ key ∈ keys, ∃ content, files.lookup (microsoftObject kind key) = some content ∧
        files'.lookup (importPath type key ".der".toList) = some content) ∧
      ∀ p, (∀ key ∈ keys, p ≠ importPath type key ".der".toList ∧
        p ≠ importPath type key ".owner".toList) → files'.lookup p = files.lookup p := by
  induction keys generalizing files with
  | nil =>
      cases done
      exact ⟨fun _ impossible => (nomatch impossible), fun _ _ => rfl⟩
  | cons first rest ih =>
      rw [List.foldlM_cons, Option.bind_eq_bind, Option.bind_eq_some_iff] at done
      obtain ⟨middle, one, later⟩ := done
      obtain ⟨fresh, distinctRest⟩ := List.nodup_cons.mp distinct
      obtain ⟨copied, copying, rest'⟩ := Option.bind_eq_some_iff.mp one
      cases rest'
      obtain ⟨content, found, rfl⟩ := Option.map_eq_some_iff.mp copying
      obtain ⟨imported, frame⟩ := ih distinctRest later
      have joined : ∀ key ending, type.extraDir ++ ['/'] <+: importPath type key ending := by
        intro key ending
        rw [importPath, List.append_assoc _ (underscored key)]
        exact List.prefix_append _ _
      have differ : ∀ p, p ≠ importPath type first ".der".toList →
          p ≠ importPath type first ".owner".toList →
          (echo microsoftOwner (importPath type first ".owner".toList)
            (files.insert (importPath type first ".der".toList) content)).lookup p =
              files.lookup p := by
        intro p notDer notOwner
        rw [echo, AList.lookup_insert_ne notOwner, AList.lookup_insert_ne notDer]
      have endings : ∀ key key', importPath type key ".der".toList ≠
          importPath type key' ".owner".toList := by
        intro key key' same
        have owner : ".owner".toList <:+ importPath type key ".der".toList := by
          rw [same]
          exact List.suffix_append _ _
        have ends : ".der".toList <:+ ".owner".toList :=
          List.suffix_of_suffix_length_le (List.suffix_append _ _) owner (by decide)
        exact absurd ends (by decide)
      constructor
      · intro key member
        rcases List.mem_cons.mp member with rfl | inRest
        · refine ⟨content, found, ?_⟩
          rw [frame _ fun other inRest => ⟨fun same => ?_, endings _ _⟩]
          · change (echo microsoftOwner (importPath type key ".owner".toList)
              (files.insert (importPath type key ".der".toList) content)).lookup _ = _
            rw [echo, AList.lookup_insert_ne (endings key key), AList.lookup_insert]
          · have names : underscored key = underscored other := by
              simpa [importPath] using same
            exact fresh (names ▸ List.mem_map_of_mem inRest)
        · obtain ⟨content', found', there⟩ := imported key inRest
          refine ⟨content', ?_, there⟩
          rw [← found']
          refine (differ _ ?_ ?_).symm
          · exact fun same => apart key (same ▸ joined _ _)
          · exact fun same => apart key (same ▸ joined _ _)
      · intro p outside
        obtain ⟨notDer, notOwner⟩ := outside first List.mem_cons_self
        rw [frame p fun key inRest => outside key (List.mem_cons_of_mem _ inRest)]
        exact differ p notDer notOwner

/-! ## The build -/

/-- What the loops find: the files as staged, the own lists, and the imported keys. -/
structure Prepared (files files' : Files α) : Prop where
  noOwners : NoOwners files'
  kek : entries files' "KEK.esl".toList = ownGiven files "KEK.crt".toList
  kekMic : entries files' "KEK-mic.esl".toList = ownGiven files "KEK.crt".toList
  db : entries files' "DB.esl".toList = ownGiven files "DB.crt".toList
  dbMic : entries files' "DB-mic.esl".toList = ownGiven files "DB.crt".toList
  extras : ∀ type : KeyType, type = .kek ∨ type = .db → ∀ suffix p,
    matchesGlob type.extraDir suffix p = true → files'.lookup p = files.lookup p
  imported : ∀ key ∈ microsoftKek, ∃ content,
    files.lookup (microsoftObject "KEK".toList key) = some content ∧
      files'.lookup (importPath .kekMic key ".der".toList) = some content

theorem slash_mem_microsoftObject (kind key : Text) : '/' ∈ microsoftObject kind key := by
  have inside : '/' ∈ "microsoft_objects/PreSignedObjects/".toList := by decide
  exact List.mem_append_left _ (List.mem_append_left _ (List.mem_append_left _
    (List.mem_append_left _ inside)))

theorem importMicrosoft_ok {files files' : Files α} (done : importMicrosoft files = some files') :
    (∀ key ∈ microsoftKek, ∃ content, files.lookup (microsoftObject "KEK".toList key) = some content ∧
        files'.lookup (importPath .kekMic key ".der".toList) = some content) ∧
      ∀ p, (¬ KeyType.kekMic.extraDir ++ ['/'] <+: p) → (¬ KeyType.dbMic.extraDir ++ ['/'] <+: p) →
        files'.lookup p = files.lookup p := by
  obtain ⟨middle, first, second⟩ := Option.bind_eq_some_iff.mp done
  have apart : ∀ (type : KeyType) kind key,
      ¬ type.extraDir ++ ['/'] <+: microsoftObject kind key := by
    rintro type kind key ⟨rest, same⟩
    have first : (microsoftObject kind key).head? = some 'm' := rfl
    have other : (type.extraDir ++ ['/'] ++ rest).head? = some 'e' := by
      cases type <;> rfl
    rw [same, first] at other
    exact absurd other (by decide)
  obtain ⟨kekImported, kekFrame⟩ := importKeys_ok (by decide) (apart .kekMic _) first
  obtain ⟨_, dbFrame⟩ := importKeys_ok (by decide) (apart .dbMic _) second
  have joined : ∀ (type : KeyType) key ending, type.extraDir ++ ['/'] <+: importPath type key ending := by
    intro type key ending
    rw [importPath, List.append_assoc _ (underscored key)]
    exact List.prefix_append _ _
  constructor
  · intro key member
    obtain ⟨content, found, there⟩ := kekImported key member
    refine ⟨content, found, ?_⟩
    rw [← there]
    have elsewhere : ∀ key' ending, importPath .kekMic key ".der".toList ≠ importPath .dbMic key' ending := by
      intro key' ending same
      rcases List.prefix_or_prefix_of_prefix (joined .kekMic key ".der".toList)
        (same ▸ joined .dbMic key' ending) with one | two
      · exact absurd one (by decide)
      · exact absurd two (by decide)
    exact dbFrame _ fun key' _ => ⟨elsewhere _ _, elsewhere _ _⟩
  · intro p notKek notDb
    have outside : ∀ (type : KeyType), ¬ type.extraDir ++ ['/'] <+: p →
        ∀ key ending, p ≠ importPath type key ending := by
      rintro type notThere key ending rfl
      exact notThere (joined type key ending)
    rw [dbFrame p fun key _ => ⟨outside _ notDb _ _, outside _ notDb _ _⟩,
      kekFrame p fun key _ => ⟨outside _ notKek _ _, outside _ notKek _ _⟩]

theorem noOwners_of_staged {files : Files α} (staged : Staged files) : NoOwners files := by
  intro p member noSlash owner
  rcases staged p member with named | ⟨dir, _, inside⟩
  · have none' : ∀ named ∈ namedSources, ¬ ".owner".toList <:+ named := by decide
    exact none' p named owner
  · exact noSlash (inside.subset (by simp))

theorem prepared {files own imported converted : Files α} (noOwners : NoOwners files)
    (ownDone : ownLists files = some own) (importDone : importMicrosoft own = some imported)
    (convertDone : types.foldlM convertExtras imported = some converted) :
    Prepared files converted := by
  obtain ⟨kek, kekMic, db, dbMic, elsewhere⟩ := ownLists_ok ownDone
  obtain ⟨microsoft, importFrame⟩ := importMicrosoft_ok importDone
  have converts : Agrees imported converted := by
    have general : ∀ (types : List KeyType) (files : Files α),
        types.foldlM convertExtras files = some converted → Agrees files converted := by
      intro types
      induction types with
      | nil =>
          intro files done
          cases done
          exact fun _ _ => rfl
      | cons type rest ih =>
          intro files done
          rw [List.foldlM_cons, Option.bind_eq_bind, Option.bind_eq_some_iff] at done
          obtain ⟨middle, one, later⟩ := done
          exact fun p kept => (ih middle later p kept).trans (convertExtras_agrees one p kept)
    exact general types imported convertDone
  have flat : ∀ p, '/' ∉ p → imported.lookup p = own.lookup p := by
    intro p noSlash
    refine importFrame p (fun inside => ?_) (fun inside => ?_)
    · exact noSlash (inside.subset (by simp))
    · exact noSlash (inside.subset (by simp))
  have list : ∀ p, '/' ∉ p → ¬ "extra-".toList <+: p → entries converted p = entries own p := by
    intro p noSlash unmarked
    rw [entries, converts p (Or.inr (Or.inl unmarked)), flat p noSlash, entries]
  refine ⟨fun p member noSlash owner => ?_, ?_, ?_, ?_, ?_, fun type oneOf suffix p pattern => ?_,
    fun key member => ?_⟩
  · rw [← AList.lookup_isSome, converts p (Or.inr (Or.inr owner)), flat p noSlash,
      elsewhere p (Or.inr owner), AList.lookup_isSome] at member
    exact noOwners p member noSlash owner
  · rw [list _ (by decide) (by decide), kek]
  · rw [list _ (by decide) (by decide), kekMic]
  · rw [list _ (by decide) (by decide), db]
  · rw [list _ (by decide) (by decide), dbMic]
  · have slash := slash_of_matchesGlob pattern
    have below : type.extraDir ++ ['/'] <+: p := by
      obtain ⟨name, rfl, _⟩ := matchesGlob_iff.mp pattern
      exact ⟨name, by simp⟩
    have apart : ∀ other : KeyType, other = .kekMic ∨ other = .dbMic →
        ¬ other.extraDir ++ ['/'] <+: p := by
      intro other isMic inside
      rcases List.prefix_or_prefix_of_prefix below inside with one | two
      · rcases oneOf with rfl | rfl <;> rcases isMic with rfl | rfl <;> revert one <;> decide
      · rcases oneOf with rfl | rfl <;> rcases isMic with rfl | rfl <;> revert two <;> decide
    rw [converts p (Or.inl slash), importFrame p (apart _ (Or.inl rfl)) (apart _ (Or.inr rfl)),
      elsewhere p (Or.inl slash)]
  · obtain ⟨content, found, there⟩ := microsoft key member
    refine ⟨content, ?_, ?_⟩
    · rw [← elsewhere _ (Or.inl (slash_mem_microsoftObject _ key))]
      exact found
    · rw [converts _ (Or.inl (by simp [importPath]))]
      exact there

theorem owner_of_mem_disowned {files : Files α} {paths : List Text} {e : Text × α}
    (member : e ∈ disowned files paths) : e.1 = gnomeosKeysUuid := by
  obtain ⟨path, _, found⟩ := List.mem_filterMap.mp member
  split at found
  · cases found
    rfl
  · cases found

theorem owner_of_mem_ownGiven {files : Files α} {path : Text} {e : Text × α}
    (member : e ∈ ownGiven files path) : e.1 = gnomeosKeysUuid := by
  obtain ⟨certificate, _, rfl⟩ := List.mem_map.mp member
  rfl

/-- The lists hold what was given in DER, as certificates of GNOME OS. -/
theorem build_lists {files files' : Files α} (noOwners : NoOwners files)
    (done : build files = some files') :
    (entries files' "KEK.esl".toList).Perm (ownGiven files "KEK.crt".toList ++
        disowned files (matched files .kek ".der".toList)) ∧
      (entries files' "DB.esl".toList).Perm (ownGiven files "DB.crt".toList ++
        disowned files (matched files .db ".der".toList)) ∧
      (∀ e ∈ entries files' "KEK-mic.esl".toList, e.1 = gnomeosKeysUuid) ∧
      ∀ key ∈ microsoftKek, ∃ certificate,
        files.lookup (microsoftObject "KEK".toList key) = some (.der certificate) := by
  obtain ⟨own, ownDone, rest⟩ := Option.bind_eq_some_iff.mp done
  obtain ⟨imported, importDone, rest'⟩ := Option.bind_eq_some_iff.mp rest
  obtain ⟨converted, convertDone, enrollDone⟩ := Option.bind_eq_some_iff.mp rest'
  have ready := prepared noOwners ownDone importDone convertDone
  have kek := (enrollTypes_ok ready.noOwners enrollDone "KEK.esl".toList
    ⟨.kek, by decide⟩).1
  have db := (enrollTypes_ok ready.noOwners enrollDone "DB.esl".toList
    ⟨.db, by decide⟩).1
  obtain ⟨kekMic, ders⟩ := enrollTypes_ok ready.noOwners enrollDone "KEK-mic.esl".toList
    ⟨.kek, by decide⟩
  refine ⟨?_, ?_, fun e member => ?_, fun key member => ?_⟩
  · rw [ready.kek, show types.filter (fun type => "KEK.esl".toList ∈ type.lists) = [.kek] by decide,
      List.flatMap_singleton] at kek
    exact kek.trans ((disowned_matched_perm (ready.extras .kek (Or.inl rfl) _)).append_left _)
  · rw [ready.db, show types.filter (fun type => "DB.esl".toList ∈ type.lists) = [.db] by decide,
      List.flatMap_singleton] at db
    exact db.trans ((disowned_matched_perm (ready.extras .db (Or.inr rfl) _)).append_left _)
  · rw [ready.kekMic] at kekMic
    rcases List.mem_append.mp (kekMic.subset member) with inOwn | inExtras
    · exact owner_of_mem_ownGiven inOwn
    · obtain ⟨type, _, inside⟩ := List.mem_flatMap.mp inExtras
      exact owner_of_mem_disowned inside
  · obtain ⟨content, found, there⟩ := ready.imported key member
    have listed : importPath .kekMic key ".der".toList ∈ matched converted .kekMic ".der".toList := by
      refine mem_matched.mpr ⟨AList.lookup_isSome.mp (Option.isSome_of_eq_some there), ?_⟩
      have patterns : ∀ key ∈ microsoftKek, matchesGlob KeyType.kekMic.extraDir ".der".toList
          (importPath .kekMic key ".der".toList) = true := by decide
      exact patterns key member
    obtain ⟨certificate, isDer⟩ := ders .kekMic (by decide) _ listed
    cases there.symm.trans isDer
    exact ⟨certificate, found⟩

/-- Since every entry has the same owner, no build lists the keys of Microsoft as theirs. -/
theorem build_not_listed {files files' : Files α} (staged : Staged files)
    (done : build files = some files') : ¬ Listed files files' := by
  intro listed
  obtain ⟨_, _, owners, ders⟩ := build_lists (noOwners_of_staged staged) done
  obtain ⟨certificate, found⟩ := ders _ (List.mem_cons_self)
  have inGiven : (microsoftOwner, certificate) ∈ microsoftGiven files "KEK".toList microsoftKek := by
    refine List.mem_filterMap.mpr ⟨_, List.mem_cons_self, ?_⟩
    rw [certificateOf, found]
    rfl
  have inList := listed.kekMic.symm.subset (List.mem_append_right _ inGiven)
  exact absurd (owners _ inList) (show microsoftOwner ≠ gnomeosKeysUuid by decide)

/-! ## A vendor certificate -/

/-- All that is staged, with one certificate in PEM and the owner that it should have. -/
def vendorFiles : Files Nat :=
  let vendor : List (Sigma fun _ : Text => Content Nat) :=
    [⟨"PK.crt".toList, .pem 0⟩, ⟨"PK.key".toList, .other⟩, ⟨"PK_MIC.crt".toList, .pem 1⟩,
      ⟨"PK_MIC.key".toList, .other⟩, ⟨"KEK.crt".toList, .pem 2⟩, ⟨"KEK.key".toList, .other⟩,
      ⟨"KEK_MIC.crt".toList, .pem 3⟩, ⟨"KEK_MIC.key".toList, .other⟩, ⟨"DB.crt".toList, .pem 4⟩,
      ⟨"extra-db/vendor.crt".toList, .pem 5⟩,
      ⟨"extra-db/vendor.owner".toList, .text "26d2f2ea-5b2c-4d5e-8e3c-5c8a4c8f9f5a\n".toList⟩]
  let kek := microsoftKek.map fun key => Sigma.mk (microsoftObject "KEK".toList key) (Content.der 6)
  let db := microsoftDb.map fun key => Sigma.mk (microsoftObject "DB".toList key) (Content.der 7)
  (vendor ++ kek ++ db).toAList

theorem vendorFiles_staged : Staged vendorFiles := by
  change ∀ p ∈ vendorFiles.keys, _
  decide +kernel

/-- The own certificate is all that comes into the list. -/
theorem vendorFiles_build : ∃ files', build vendorFiles = some files' ∧
    entries files' "DB.esl".toList = [(gnomeosKeysUuid, 4)] := by
  have evaluated : (build vendorFiles).any (fun files' =>
      entries files' "DB.esl".toList = [(gnomeosKeysUuid, 4)]) = true := by decide +kernel
  obtain ⟨files', done, short⟩ := (Option.any_eq_true _ _).mp evaluated
  exact ⟨files', done, of_decide_eq_true short⟩

/-- The vendor's certificate is in no list. -/
theorem vendor_dropped : ∃ files', build vendorFiles = some files' ∧
    entries files' "DB.esl".toList = [(gnomeosKeysUuid, 4)] ∧ ¬ Listed vendorFiles files' := by
  have wanted : (ownGiven vendorFiles "DB.crt".toList ++ given vendorFiles .db).length = 2 := by
    decide +kernel
  obtain ⟨files', done, list⟩ := vendorFiles_build
  refine ⟨files', done, list, fun listed => ?_⟩
  have lengths := listed.db.length_eq
  rw [list, wanted] at lengths
  cases lengths

/-- Nor are the keys of Microsoft listed as theirs. -/
theorem vendor_not_listed : ∃ files', build vendorFiles = some files' ∧
    ¬ Listed vendorFiles files' := by
  obtain ⟨files', done, _⟩ := vendorFiles_build
  exact ⟨files', done, build_not_listed vendorFiles_staged done⟩

end GnomeBuildMeta.BootKeys
