import GnomeBuildMeta.Control.Except
import GnomeBuildMeta.SecureVm.RunSecureVm

/-!
# The SMBIOS strings

QEMU splits the operand at single commas.  The kernel arguments survive this,
since their commas are doubled.  A credential arrives as it was given if its name
has no comma and its value is a file: `echo` adds a newline to any other value,
or takes it for an option.
-/

namespace GnomeBuildMeta.SecureVm

open Control Posix Words

variable {env : Environment} {given : List Argument} {s s' : Options}

/-! ## What QEMU reads -/

def valueString (piece : Bytes) : Option Bytes := piece.dropPrefix? (word "value=")

/-- The strings of the table: the operand is `type=11`, and values behind it. -/
def smbiosStrings : List Bytes → Option (List Bytes)
  | [option, operand] =>
      match splitDoubled comma operand with
      | [] => none
      | first :: values =>
          if option = word "-smbios" ∧ first = word "type=11" then
            values.mapM valueString
          else none
  | _ => none

/-! ## What is asked for -/

/-- The kernel arguments of an option. -/
def Argument.kernel : Argument → List Bytes
  | .serial => [word "console=ttyS0"]
  | .cmdline text => [text]
  | .breakpointInitrd point => [word "rd.systemd.break=" ++ point, word "rd.systemd.debug_shell=1"]
  | .breakpoint point => [word "systemd.break=" ++ point, word "systemd.debug_shell=1"]
  | .debugSystemd => [word "systemd.log_level=debug"]
  | _ => []

def Argument.credential? : Argument → Option Bytes
  | .credential text => some text
  | _ => none

/-- The kernel arguments of the options, and those that the script adds. -/
def kernelArguments (env : Environment) (given : List Argument) : List Bytes :=
  given.flatMap Argument.kernel ++ (if .homeDisk ∈ given then [word "gnome.initial-setup=0"] else []) ++
    (if .spiceApp ∈ given ∨ .gtk ∉ given ∧ env.spiceSupported = true then [word "console=tty0"] else []) ++
    [word "systemd.wants=sshd.service"]

/-- The bytes of a value: its own, or those of the file that it names. -/
def meant (env : Environment) : Bytes → Option Bytes
  | [] => some []
  | c :: rest => if c = atSign then env.readFile rest else some (c :: rest)

/-- A string has the name of a credential and the bytes of its value. -/
def Carries (env : Environment) (credential : Bytes × Bytes) (string : Bytes) : Prop :=
  ∃ payload bytes, string = credentialPrefix ++ credential.1 ++ equals :: payload ∧
    Base64.decode payload = some bytes ∧ meant env credential.2 = some bytes

def isKernel (string : Bytes) : Bool := kernelPrefix <+: string

def isCredential (string : Bytes) : Bool := credentialPrefix <+: string

/-- One string has the kernel arguments, and each credential has one of its own, in the order given. -/
structure Carried (env : Environment) (kernel : List Bytes) (credentials : List (Bytes × Bytes))
    (strings : List Bytes) : Prop where
  kernel : strings.filter isKernel = [kernelPrefix ++ [space].intercalate kernel]
  credentials : ∃ own others, strings.filter isCredential = own ++ others ∧
    List.Forall₂ (Carries env) credentials own

/-! ## The option loop -/

/-- The variables after the options that have been given. -/
structure Collected (env : Environment) (given : List Argument) (s : Options) : Prop where
  cmdline : s.cmdline = given.flatMap Argument.kernel
  credentials : List.Forall₂ (fun text encoded => addCredential env text = some encoded)
    (given.filterMap Argument.credential?) s.credentials
  homeDisk : s.homeDisk = true ↔ .homeDisk ∈ given
  spiceApp : s.spiceApp = true ↔ .spiceApp ∈ given
  gtk : s.gtk = true ↔ .gtk ∈ given

theorem collected_act {argument : Argument} (collected : Collected env given s)
    (acts : act env s argument = some s') : Collected env (given ++ [argument]) s' := by
  obtain ⟨cmdline, credentials, homeDisk, spiceApp, gtk⟩ := collected
  cases argument
  case credential text =>
    obtain ⟨encoded, added, rfl⟩ := Option.map_eq_some_iff.mp acts
    refine ⟨?_, ?_, ?_, ?_, ?_⟩
    · simp [cmdline, Argument.kernel]
    · rw [List.filterMap_append]
      exact List.rel_append credentials (List.Forall₂.cons added List.Forall₂.nil)
    all_goals simp [homeDisk, spiceApp, gtk]
  all_goals
    cases acts
    refine ⟨?_, ?_, ?_, ?_, ?_⟩
    · simp [cmdline, Argument.kernel]
    · simpa [List.filterMap_cons, Argument.credential?] using credentials
    all_goals simp [homeDisk, spiceApp, gtk]

theorem collected_foldlM {later : List Argument} (collected : Collected env given s)
    (run : later.foldlM (act env) s = some s') : Collected env (given ++ later) s' := by
  induction later generalizing given s with
  | nil =>
      cases run
      rwa [List.append_nil]
  | cons argument later ih =>
      rw [List.foldlM_cons] at run
      obtain ⟨next, acts, rest⟩ := Option.bind_eq_some_iff.mp run
      rw [List.append_cons]
      exact ih (collected_act collected acts) rest

theorem collected_nil (env : Environment) : Collected env [] {} where
  cmdline := rfl
  credentials := List.Forall₂.nil
  homeDisk := by simp
  spiceApp := by simp
  gtk := by simp

/-! ## The strings of a run -/

/-- The variables with the additions of the script. -/
structure Finished (env : Environment) (given : List Argument) (s : Options) : Prop where
  cmdline : s.cmdline = kernelArguments env given
  credentials : ∃ own added, s.credentials = own ++ added ∧ added ≠ [] ∧ (∀ text ∈ added, comma ∉ text) ∧
    List.Forall₂ (fun text encoded => addCredential env text = some encoded)
      (given.filterMap Argument.credential?) own

theorem comma_not_in_payload (bytes : Bytes) : comma ∉ Base64.encode bytes :=
  Base64.not_mem_encode (by decide +kernel) bytes

theorem comma_not_in_entry {name : Bytes} (plain : comma ∉ name) (content : Bytes) : comma ∉ entry name content := by
  rw [entry, List.mem_append, List.mem_cons]
  rintro (inside | here | inside)
  · exact plain inside
  · exact absurd here (by decide)
  · exact comma_not_in_payload content inside

theorem homeDisk_adds (run : homeDisk env s = some s') : ∃ added : List Bytes,
    (∀ text ∈ added, comma ∉ text) ∧ s' = { s with
      credentials := s.credentials ++ added
      cmdline := s.cmdline ++ if s.homeDisk then [word "gnome.initial-setup=0"] else [] } := by
  rw [homeDisk] at run
  split at run
  · next disk =>
    obtain ⟨key, _, rfl⟩ := Option.map_eq_some_iff.mp run
    refine ⟨[entry (word "home.add-signing-key.host.public") key], ?_, ?_⟩
    · exact List.forall_mem_singleton.mpr (comma_not_in_entry (by decide) key)
    · rw [if_pos disk]
  · next noDisk =>
    cases run
    refine ⟨[], List.forall_mem_nil _, ?_⟩
    rw [if_neg noDisk, List.append_nil, List.append_nil]

theorem tmpfiles_adds (env : Environment) (s : Options) : ∃ added : List Bytes,
    (∀ text ∈ added, comma ∉ text) ∧ tmpfiles env s = { s with credentials := s.credentials ++ added } := by
  rw [tmpfiles]
  split
  · refine ⟨[entry (word "tmpfiles.extra") env.tmpfilesExtra], ?_, rfl⟩
    exact List.forall_mem_singleton.mpr (comma_not_in_entry (by decide) _)
  · refine ⟨[], List.forall_mem_nil _, ?_⟩
    rw [List.append_nil]

theorem spiceApp_adds (env : Environment) (s : Options) : spiceApp env s = { s with
    cmdline := s.cmdline ++ if s.spiceApp || (!s.gtk && env.spiceSupported) then [word "console=tty0"] else [] } := by
  rw [spiceApp]
  split
  · rfl
  · rw [List.append_nil]

theorem finished_of_collected (collected : Collected env given s) (disk : homeDisk env s = some s') :
    Finished env given (ssh env (tmpfiles env (wantSshd (spiceApp env s')))) := by
  obtain ⟨keys, plainKeys, rfl⟩ := homeDisk_adds disk
  rw [spiceApp_adds, wantSshd]
  obtain ⟨extra, plainExtra, adds⟩ := tmpfiles_adds env { s with
    credentials := s.credentials ++ keys
    cmdline := s.cmdline ++ (if s.homeDisk then [word "gnome.initial-setup=0"] else []) ++
      (if s.spiceApp || (!s.gtk && env.spiceSupported) then [word "console=tty0"] else []) ++
      [word "systemd.wants=sshd.service"] }
  rw [adds, ssh]
  constructor
  · have spice : (s.spiceApp || (!s.gtk && env.spiceSupported)) = true ↔
        .spiceApp ∈ given ∨ .gtk ∉ given ∧ env.spiceSupported = true := by
      rw [Bool.or_eq_true, Bool.and_eq_true, Bool.not_eq_true', ← Bool.not_eq_true, collected.spiceApp,
        collected.gtk]
    simp only [kernelArguments, collected.cmdline, collected.homeDisk, spice]
  · refine ⟨s.credentials, keys ++ extra ++ [entry (word "ssh.ephemeral-authorized_keys-all") env.sshKey], ?_, ?_,
      ?_, collected.credentials⟩
    · simp only [List.append_assoc]
    · exact List.append_ne_nil_of_right_ne_nil _ (List.cons_ne_nil _ _)
    · simp only [List.mem_append, List.mem_singleton]
      rintro text ((listed | listed) | rfl)
      · exact plainKeys text listed
      · exact plainExtra text listed
      · exact comma_not_in_entry (by decide) _

theorem exists_finished {argv qemu : List Bytes} (parsed : arguments argv = some given)
    (run : runSecureVm env argv = some qemu) : ∃ s, Finished env given s ∧ qemu = smbios (type11 s) := by
  rw [runSecureVm, parsed] at run
  obtain ⟨_, same, run⟩ := Option.bind_eq_some_iff.mp run
  cases same
  obtain ⟨s, collects, run⟩ := Option.bind_eq_some_iff.mp run
  split at run
  · cases run
  · obtain ⟨s', disk, run⟩ := Option.bind_eq_some_iff.mp run
    cases run
    exact ⟨_, finished_of_collected (collected_foldlM (collected_nil env) collects) disk, rfl⟩

/-! ## Splitting the operand -/

/-- A credential as the operand has it. -/
def piece (encoded : Bytes) : Bytes := word "value=" ++ credentialPrefix ++ encoded

def credentialString (encoded : Bytes) : Bytes := credentialPrefix ++ encoded

theorem valueString_eq_some_iff {piece string : Bytes} :
    valueString piece = some string ↔ piece = word "value=" ++ string := by
  rw [valueString, List.dropPrefix?_eq_some_iff]
  constructor
  · rintro ⟨front, whole, same⟩
    rw [whole, eq_of_beq same]
  · intro whole
    exact ⟨_, whole, beq_self_eq_true _⟩

theorem piece_eq (encoded : Bytes) : ∃ rest, piece encoded = 118 :: rest := ⟨_, rfl⟩

theorem head?_pieces {credentials : List Bytes} (proper : credentials ≠ []) :
    ([comma].intercalate (credentials.map piece)).head? ≠ some comma := by
  obtain ⟨first, later, rfl⟩ := List.exists_cons_of_ne_nil proper
  obtain ⟨rest, begins⟩ := piece_eq first
  rw [List.map_cons, begins, List.intercalate_cons_cons_left, List.head?_cons]
  exact fun same => absurd (Option.some.inj same) (by decide)

theorem smbiosStrings_smbios (cmdline : s.cmdline ≠ []) (credentials : s.credentials ≠ []) :
    smbiosStrings (smbios (type11 s)) =
      ((splitDoubled comma ([comma].intercalate (s.credentials.map piece))).mapM valueString).map
        ((kernelPrefix ++ [space].intercalate s.cmdline) :: ·) := by
  have front : comma ∉ word "value=" ++ kernelPrefix := by decide
  have kernel : word "value=" ++ kernelPrefix ++ [space].intercalate (s.cmdline.map (doubled comma)) =
      doubled comma (word "value=" ++ (kernelPrefix ++ [space].intercalate s.cmdline)) := by
    rw [doubled_intercalate comma space (by decide), ← List.append_assoc, doubled_append _ (_ ++ _),
      doubled_of_not_mem front]
  have values : type11 s = doubled comma (word "value=" ++ (kernelPrefix ++ [space].intercalate s.cmdline)) ::
      s.credentials.map piece := by
    rw [type11, if_pos cmdline, kernel]
    rfl
  have others : s.credentials.map piece ≠ [] := mt List.map_eq_nil_iff.mp credentials
  have operand : word "type=11," ++ [comma].intercalate (type11 s) = doubled comma (word "type=11") ++
      comma :: (doubled comma (word "value=" ++ (kernelPrefix ++ [space].intercalate s.cmdline)) ++
        comma :: [comma].intercalate (s.credentials.map piece)) := by
    have type : word "type=11," = doubled comma (word "type=11") ++ [comma] := by decide
    rw [values, List.intercalate_cons_of_ne_nil others, type]
    simp only [List.append_assoc, List.singleton_append]
  have single : (doubled comma (word "value=" ++ (kernelPrefix ++ [space].intercalate s.cmdline)) ++
      comma :: [comma].intercalate (s.credentials.map piece)).head? ≠ some comma := by
    rw [← kernel]
    exact fun same => absurd (Option.some.inj same) (by decide)
  have proper : type11 s ≠ [] := by
    rw [values]
    exact List.cons_ne_nil _ _
  rw [smbios, if_pos proper, operand, smbiosStrings, splitDoubled_doubled_append single,
    splitDoubled_doubled_append (head?_pieces credentials)]
  simp only [and_self, if_true]
  rw [List.mapM_cons]
  have own : valueString (word "value=" ++ (kernelPrefix ++ [space].intercalate s.cmdline)) =
      some (kernelPrefix ++ [space].intercalate s.cmdline) := valueString_eq_some_iff.mpr rfl
  rw [own]
  cases (splitDoubled comma ([comma].intercalate (s.credentials.map piece))).mapM valueString <;> rfl

/-! ## Values -/

theorem echo_ne (value : Bytes) : echo value ≠ value := by
  intro same
  rw [echo] at same
  split at same
  · next option =>
    split at same
    · rw [← same] at option
      cases option
    · rw [← same] at option
      revert option
      decide
  · have longer := congrArg List.length same
    rw [List.length_append, List.length_singleton] at longer
    omega

/-- The bytes of a value are sent only if it is a file. -/
theorem meant_eq_content_iff {value bytes : Bytes} (sent : content env value = some bytes) :
    meant env value = some bytes ↔ value.head? = some atSign := by
  cases value with
  | nil =>
      cases sent
      exact iff_of_false (fun same => echo_ne [] (Option.some.inj same).symm) (by decide)
  | cons c rest =>
      rw [content] at sent
      rw [meant, List.head?_cons, Option.some.injEq]
      split at sent
      · next here => simp only [here, if_true, sent]
      · next here =>
        cases sent
        simp only [here, if_false, iff_false, Option.some.injEq]
        exact fun same => echo_ne _ same.symm

/-! ## Credentials -/

/-- What is sent for a credential. -/
def Sent (env : Environment) (credential : Bytes × Bytes) (encoded : Bytes) : Prop :=
  ∃ bytes, content env credential.2 = some bytes ∧ encoded = entry credential.1 bytes

theorem ne_equals {name : Bytes} (plain : equals ∉ name) : ∀ c ∈ name, decide (c ≠ equals) = true :=
  fun _ inside => decide_eq_true fun same => plain (same ▸ inside)

theorem nameOf_append {name : Bytes} (plain : equals ∉ name) (value : Bytes) :
    nameOf (name ++ equals :: value) = name := by
  rw [nameOf, List.takeWhile_append_of_pos (ne_equals plain), List.takeWhile_cons_of_neg (by decide),
    List.append_nil]

theorem valueOf_append {name : Bytes} (plain : equals ∉ name) (value : Bytes) :
    valueOf (name ++ equals :: value) = value := by
  rw [valueOf, List.dropWhile_append_of_pos (ne_equals plain), List.dropWhile_cons_of_neg (by decide)]

theorem sent_of_addCredential {credential : Bytes × Bytes} {encoded : Bytes} (plain : equals ∉ credential.1)
    (added : addCredential env (credential.1 ++ equals :: credential.2) = some encoded) :
    Sent env credential encoded := by
  rw [addCredential, nameOf_append plain, valueOf_append plain] at added
  obtain ⟨bytes, found, rfl⟩ := Option.map_eq_some_iff.mp added
  exact ⟨bytes, found, rfl⟩

theorem sent_of_encodes {credentials : List (Bytes × Bytes)} {own : List Bytes}
    (plain : ∀ credential ∈ credentials, equals ∉ credential.1)
    (encodes : List.Forall₂ (fun credential encoded =>
      addCredential env (credential.1 ++ equals :: credential.2) = some encoded) credentials own) :
    List.Forall₂ (Sent env) credentials own := by
  induction encodes with
  | nil => exact List.Forall₂.nil
  | cons here later ih =>
      obtain ⟨plainHere, plainLater⟩ := List.forall_mem_cons.mp plain
      exact List.Forall₂.cons (sent_of_addCredential plainHere here) (ih plainLater)

/-- A string that has the credential is where it should be, and the rest is read behind it. -/
theorem first_of_carries {credential : Bytes × Bytes} {encoded text mine : Bytes} {strings others : List Bytes}
    (plain : equals ∉ credential.1) (sent : Sent env credential encoded)
    (read : (splitDoubled comma (piece encoded ++ comma :: text)).mapM valueString = some strings)
    (found : strings.filter isCredential = mine :: others) (carries : Carries env credential mine) :
    (comma ∉ credential.1 ∧ credential.2.head? = some atSign) ∧
      ∃ later, (splitDoubled comma text).mapM valueString = some later ∧
        later.filter isCredential = others := by
  obtain ⟨bytes, sends, rfl⟩ := sent
  obtain ⟨payload, bytes', same, decoded, means⟩ := carries
  cases split : splitDoubled comma (piece (entry credential.1 bytes) ++ comma :: text) with
  | nil =>
      rw [split] at read
      cases read
      cases found
  | cons first pieces =>
      rw [split, List.mapM_cons] at read
      obtain ⟨string, here, read⟩ := Option.bind_eq_some_iff.mp read
      obtain ⟨later, readLater, read⟩ := Option.bind_eq_some_iff.mp read
      cases read
      rw [valueString_eq_some_iff] at here
      obtain ⟨behind, whole, ends⟩ := of_splitDoubled_eq_cons split
      have single : ∀ c ∈ behind.head?, c = comma := by
        rcases ends with ⟨rfl, _⟩ | ⟨rest, rfl, _⟩
        · exact fun c impossible => by cases impossible
        · exact fun c first => (Option.some.inj first).symm
      -- The string begins like any credential, so it is the one that was found.
      have front : comma ∉ word "value=" ++ credentialPrefix := by decide
      rw [piece, List.append_assoc] at whole
      obtain ⟨encoded, begins, encodedSame⟩ := of_doubled_append_eq front single whole.symm
      have string_eq : string = credentialPrefix ++ encoded := by
        rw [here, List.append_assoc] at begins
        exact List.append_cancel_left begins
      have kept : isCredential string = true := decide_eq_true (string_eq ▸ List.prefix_append _ _)
      rw [List.filter_cons_of_pos kept] at found
      obtain ⟨rfl, behindIt⟩ := List.cons.inj found
      rw [string_eq, List.append_assoc] at same
      rw [List.append_cancel_left same, doubled_append, doubled_cons_of_ne (by decide),
        doubled_of_not_mem (Base64.not_mem_of_decode (by decide +kernel) decoded), entry, List.append_assoc,
        List.append_assoc, List.cons_append, List.cons_append] at encodedSame
      -- A doubled comma would be in front of the `=`.
      obtain ⟨name, payloads⟩ := line_inj (mt mem_of_mem_doubled plain) plain encodedSame
      have plainPayload := Base64.not_mem_of_decode (c := comma) (by decide +kernel) decoded
      rcases ends with ⟨rfl, _⟩ | ⟨rest, rfl, rfl⟩
      · rw [List.append_nil] at payloads
        exact absurd (payloads ▸ List.mem_append_right _ List.mem_cons_self) plainPayload
      · obtain ⟨rfl, rfl⟩ := line_inj plainPayload (comma_not_in_payload bytes) payloads
        rw [Base64.decode_encode] at decoded
        cases decoded
        exact ⟨⟨doubled_eq_self_iff.mp name, (meant_eq_content_iff sends).mp means⟩, later, readLater, behindIt⟩

/-- By induction on the credentials: each one ends where the next begins. -/
theorem plain_of_carries {credentials : List (Bytes × Bytes)} {own added strings carried others : List Bytes}
    (plain : ∀ credential ∈ credentials, equals ∉ credential.1) (proper : added ≠ [])
    (sent : List.Forall₂ (Sent env) credentials own)
    (read : (splitDoubled comma ([comma].intercalate ((own ++ added).map piece))).mapM valueString = some strings)
    (found : strings.filter isCredential = carried ++ others)
    (carries : List.Forall₂ (Carries env) credentials carried) :
    ∀ credential ∈ credentials, comma ∉ credential.1 ∧ credential.2.head? = some atSign := by
  induction sent generalizing strings carried with
  | nil => exact List.forall_mem_nil _
  | @cons credential encoded credentials own sends sent ih =>
      cases carries with
      | @cons _ mine _ carried here later =>
          have more : (own ++ added).map piece ≠ [] :=
            mt List.map_eq_nil_iff.mp (List.append_ne_nil_of_right_ne_nil own proper)
          rw [List.cons_append, List.map_cons, List.intercalate_cons_of_ne_nil more, List.append_assoc,
            List.singleton_append] at read
          obtain ⟨plainHere, plainLater⟩ := List.forall_mem_cons.mp plain
          obtain ⟨good, strings, readLater, foundLater⟩ := first_of_carries plainHere sends read found here
          exact List.forall_mem_cons.mpr ⟨good, ih plainLater readLater foundLater later⟩

/-- Pieces without commas are read as they are. -/
theorem read_pieces {credentials : List Bytes} (proper : credentials ≠ [])
    (plain : ∀ encoded ∈ credentials, comma ∉ encoded) :
    (splitDoubled comma ([comma].intercalate (credentials.map piece))).mapM valueString =
      some (credentials.map credentialString) := by
  have same : credentials.map piece = (credentials.map piece).map (doubled comma) := by
    rw [List.map_map]
    refine List.map_congr_left fun encoded listed => ?_
    refine (doubled_of_not_mem fun inside => ?_).symm
    rcases List.mem_append.mp inside with front | inside
    · exact absurd front (by decide)
    · exact plain encoded listed inside
  rw [same, splitDoubled_intercalate (mt List.map_eq_nil_iff.mp proper), List.mapM_map]
  · exact mapM_eq_map fun encoded _ => valueString_eq_some_iff.mpr (List.append_assoc _ _ _)
  · refine List.forall_mem_map.mpr fun encoded _ => ?_
    obtain ⟨rest, begins⟩ := piece_eq encoded
    exact ⟨118, rest, begins, by decide⟩

/-- The two kinds of strings differ in the shorter one's prefix. -/
theorem kinds_differ {string : Bytes} (kernel : kernelPrefix <+: string) (credential : credentialPrefix <+: string) :
    False :=
  absurd (List.prefix_of_prefix_length_le credential kernel (by decide)) (by decide)

theorem not_isKernel (encoded : Bytes) : isKernel (credentialString encoded) = false :=
  decide_eq_false fun kernel => kinds_differ kernel (List.prefix_append _ _)

theorem not_isCredential (kernel : Bytes) : isCredential (kernelPrefix ++ kernel) = false :=
  decide_eq_false fun credential => kinds_differ (List.prefix_append _ _) credential

theorem carries_of_sent {credential : Bytes × Bytes} {encoded : Bytes} (sent : Sent env credential encoded)
    (file : credential.2.head? = some atSign) : Carries env credential (credentialString encoded) := by
  obtain ⟨bytes, sends, rfl⟩ := sent
  refine ⟨Base64.encode bytes, bytes, ?_, Base64.decode_encode bytes, (meant_eq_content_iff sends).mpr file⟩
  rw [credentialString, entry, List.append_assoc]

theorem comma_not_in_sent {credential : Bytes × Bytes} {encoded : Bytes} (sent : Sent env credential encoded)
    (plain : comma ∉ credential.1) : comma ∉ encoded := by
  obtain ⟨bytes, _, rfl⟩ := sent
  exact comma_not_in_entry plain bytes

theorem carries_of_plain {credentials : List (Bytes × Bytes)} {own : List Bytes}
    (sent : List.Forall₂ (Sent env) credentials own)
    (good : ∀ credential ∈ credentials, comma ∉ credential.1 ∧ credential.2.head? = some atSign) :
    (∀ encoded ∈ own, comma ∉ encoded) ∧ List.Forall₂ (Carries env) credentials (own.map credentialString) := by
  induction sent with
  | nil => exact ⟨List.forall_mem_nil _, List.Forall₂.nil⟩
  | cons here later ih =>
      obtain ⟨⟨plain, file⟩, goodLater⟩ := List.forall_mem_cons.mp good
      obtain ⟨plainLater, carries⟩ := ih goodLater
      exact ⟨List.forall_mem_cons.mpr ⟨comma_not_in_sent here plain, plainLater⟩,
        List.Forall₂.cons (carries_of_sent here file) carries⟩

/-! ## Runs -/

section Run

variable {argv qemu : List Bytes} {credentials : List (Bytes × Bytes)}

/-- QEMU reads the strings that are asked for. -/
def ReadsCarried (env : Environment) (given : List Argument) (credentials : List (Bytes × Bytes))
    (qemu : List Bytes) : Prop :=
  ∃ strings, smbiosStrings qemu = some strings ∧ Carried env (kernelArguments env given) credentials strings

/-- The credentials that the options give, each a name without `=` and a value. -/
structure Credentials (given : List Argument) (credentials : List (Bytes × Bytes)) : Prop where
  all : given.filterMap Argument.credential? =
    credentials.map fun credential => credential.1 ++ equals :: credential.2
  plain : ∀ credential ∈ credentials, equals ∉ credential.1

theorem Finished.read (finished : Finished env given s) (named : Credentials given credentials) :
    ∃ own added, s.credentials = own ++ added ∧ added ≠ [] ∧ (∀ text ∈ added, comma ∉ text) ∧
      List.Forall₂ (Sent env) credentials own ∧ smbiosStrings (smbios (type11 s)) =
        ((splitDoubled comma ([comma].intercalate ((own ++ added).map piece))).mapM valueString).map
          ((kernelPrefix ++ [space].intercalate (kernelArguments env given)) :: ·) := by
  obtain ⟨cmdline, own, added, own_eq, proper, plainAdded, encodes⟩ := finished
  rw [named.all, List.forall₂_map_left_iff] at encodes
  have someCmdline : s.cmdline ≠ [] := by
    rw [cmdline, kernelArguments]
    exact List.append_ne_nil_of_right_ne_nil _ (List.cons_ne_nil _ _)
  have someCredentials : s.credentials ≠ [] := own_eq ▸ List.append_ne_nil_of_right_ne_nil own proper
  refine ⟨own, added, own_eq, proper, plainAdded, sent_of_encodes named.plain encodes, ?_⟩
  rw [smbiosStrings_smbios someCmdline someCredentials, own_eq, cmdline]

theorem plain_of_readsCarried (parsed : arguments argv = some given) (run : runSecureVm env argv = some qemu)
    (named : Credentials given credentials) (reads : ReadsCarried env given credentials qemu) :
    ∀ credential ∈ credentials, comma ∉ credential.1 ∧ credential.2.head? = some atSign := by
  obtain ⟨s, finished, rfl⟩ := exists_finished parsed run
  obtain ⟨own, added, _, proper, _, sent, read⟩ := finished.read named
  obtain ⟨strings, readStrings, _, mine, others, found, carries⟩ := reads
  rw [read] at readStrings
  obtain ⟨later, readLater, rfl⟩ := Option.map_eq_some_iff.mp readStrings
  rw [List.filter_cons_of_neg (Bool.eq_false_iff.mp (not_isCredential _))] at found
  exact plain_of_carries named.plain proper sent readLater found carries

theorem readsCarried_of_plain (parsed : arguments argv = some given) (run : runSecureVm env argv = some qemu)
    (named : Credentials given credentials)
    (good : ∀ credential ∈ credentials, comma ∉ credential.1 ∧ credential.2.head? = some atSign) :
    ReadsCarried env given credentials qemu := by
  obtain ⟨s, finished, rfl⟩ := exists_finished parsed run
  obtain ⟨own, added, _, proper, plainAdded, sent, read⟩ := finished.read named
  obtain ⟨plainOwn, carries⟩ := carries_of_plain sent good
  have all : own ++ added ≠ [] := List.append_ne_nil_of_right_ne_nil own proper
  rw [ReadsCarried, read, read_pieces all (List.forall_mem_append.mpr ⟨plainOwn, plainAdded⟩)]
  refine ⟨_, rfl, ?_, own.map credentialString, added.map credentialString, ?_, carries⟩
  · have noKernel : ((own ++ added).map credentialString).filter isKernel = [] := by
      refine List.filter_eq_nil_iff.mpr (List.forall_mem_map.mpr fun encoded _ => ?_)
      exact Bool.eq_false_iff.mp (not_isKernel encoded)
    have kernel : isKernel (kernelPrefix ++ [space].intercalate (kernelArguments env given)) = true :=
      decide_eq_true (List.prefix_append _ _)
    rw [List.filter_cons_of_pos kernel, noKernel]
  · have kept : ((own ++ added).map credentialString).filter isCredential =
        (own ++ added).map credentialString := by
      refine List.filter_eq_self.mpr (List.forall_mem_map.mpr fun encoded _ => ?_)
      exact decide_eq_true (List.prefix_append _ _)
    rw [List.filter_cons_of_neg (Bool.eq_false_iff.mp (not_isCredential _)), kept, List.map_append]

/--
In a run that starts QEMU the strings of the table are the kernel arguments and
the credentials, if and only if no name has a comma and every value is a file.
-/
theorem readsCarried_iff (parsed : arguments argv = some given) (run : runSecureVm env argv = some qemu)
    (named : Credentials given credentials) : ReadsCarried env given credentials qemu ↔
      ∀ credential ∈ credentials, comma ∉ credential.1 ∧ credential.2.head? = some atSign :=
  ⟨plain_of_readsCarried parsed run named, readsCarried_of_plain parsed run named⟩

end Run

/-! ## Two runs -/

/-- There is one file, `key`. -/
def oneFile : Environment where
  readFile path := if path = word "key" then some (word "x") else none
  spiceSupported := false
  signingKey := []
  tmpfilesExtra := []
  sshKey := word "ssh-ed25519 A"

theorem file_carried : ∃ qemu,
    runSecureVm oneFile [word "--cmdline", word "a=b,c", word "--credential", word "a=@key"] = some qemu ∧
      ReadsCarried oneFile [.cmdline (word "a=b,c"), .credential (word "a=@key")]
        [(word "a", word "@key")] qemu := by
  have starts : (runSecureVm oneFile
      [word "--cmdline", word "a=b,c", word "--credential", word "a=@key"]).isSome = true := by decide +kernel
  obtain ⟨qemu, run⟩ := Option.isSome_iff_exists.mp starts
  have named : Credentials [.cmdline (word "a=b,c"), .credential (word "a=@key")] [(word "a", word "@key")] :=
    ⟨by decide +kernel, by decide +kernel⟩
  exact ⟨qemu, run, (readsCarried_iff (by decide +kernel) run named).mpr (by decide +kernel)⟩

/-- A value that is no file is sent with a newline, and a comma in a name cuts it. -/
theorem value_not_carried :
    (∃ qemu, arguments [word "--credential", word "a=x"] = some [.credential (word "a=x")] ∧
      runSecureVm oneFile [word "--credential", word "a=x"] = some qemu ∧
        ¬ ReadsCarried oneFile [.credential (word "a=x")] [(word "a", word "x")] qemu) ∧
      ∃ qemu, arguments [word "--credential", word "a,b=@key"] = some [.credential (word "a,b=@key")] ∧
        runSecureVm oneFile [word "--credential", word "a,b=@key"] = some qemu ∧
        ¬ ReadsCarried oneFile [.credential (word "a,b=@key")] [(word "a,b", word "@key")] qemu := by
  have differ : ∀ {text : Bytes} {credential : Bytes × Bytes},
      (runSecureVm oneFile [word "--credential", text]).isSome = true →
      arguments [word "--credential", text] = some [.credential text] →
      Credentials [.credential text] [credential] →
      ¬ (comma ∉ credential.1 ∧ credential.2.head? = some atSign) →
      ∃ qemu, arguments [word "--credential", text] = some [.credential text] ∧
        runSecureVm oneFile [word "--credential", text] = some qemu ∧
        ¬ ReadsCarried oneFile [.credential text] [credential] qemu := by
    intro text credential starts parsed named bad
    obtain ⟨qemu, run⟩ := Option.isSome_iff_exists.mp starts
    exact ⟨qemu, parsed, run, fun reads => bad (plain_of_readsCarried parsed run named reads _ List.mem_cons_self)⟩
  exact ⟨differ (by decide +kernel) (by decide +kernel) ⟨by decide +kernel, by decide +kernel⟩ (by decide +kernel),
    differ (by decide +kernel) (by decide +kernel) ⟨by decide +kernel, by decide +kernel⟩ (by decide +kernel)⟩

end GnomeBuildMeta.SecureVm
