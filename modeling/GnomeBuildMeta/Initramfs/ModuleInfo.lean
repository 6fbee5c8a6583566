import GnomeBuildMeta.Initramfs.FileDependencies

/-!
# The `.modinfo` section

A kernel module lists what it needs as `key=value` entries, each with a NUL
behind it and perhaps more for the alignment.  The names of all `depends` and
`firmware` entries are read back, each by its resolver and in the order that they
are written in.
-/

namespace GnomeBuildMeta.Initramfs

open GnomeBuildMeta.Control GnomeBuildMeta.Words

/-- What an entry says. -/
inductive ModuleEntry where
  | depends (names : List Bytes)
  | firmware (names : List Bytes)
  | other (key value : Bytes)

namespace ModuleEntry

def key : ModuleEntry → Bytes
  | .depends _ => dependsKey
  | .firmware _ => firmwareKey
  | .other key _ => key

def value : ModuleEntry → Bytes
  | .depends names => List.intercalate [44] names
  | .firmware names => List.intercalate [44] names
  | .other _ value => value

def render (entry : ModuleEntry) : Bytes := entry.key ++ 61 :: entry.value

/-- No name has a comma or a NUL, and the names can be told from none at all. -/
structure Names (names : List Bytes) : Prop where
  noComma : ∀ name ∈ names, 44 ∉ name
  noNul : ∀ name ∈ names, 0 ∉ name

/-- The entry can be read. -/
def Readable : ModuleEntry → Prop
  | .depends names => Names names ∧ names ≠ [[]]
  | .firmware names => Names names ∧ names ≠ []
  | .other key value => 61 ∉ key ∧ 0 ∉ key ∧ 0 ∉ value ∧
      key ≠ dependsKey ∧ key ≠ firmwareKey

/-- What the names of an entry are resolved to. -/
def paths (tools : Tools) (exists? : Exists) : ModuleEntry → Raising (List Chars)
  | .depends names => names.mapM (resolveModule tools)
  | .firmware names => names.mapM (resolveFirmware exists?)
  | .other _ _ => .ok []

end ModuleEntry

/-- The entries, each with the NUL behind it and that many more. -/
def renderModinfo (entries : List (ModuleEntry × Nat)) : Bytes :=
  entries.flatMap fun entry => entry.1.render ++ 0 :: List.replicate entry.2 0

variable {tools : Tools} {exists? : Exists}

theorem ModuleEntry.key_noEquals {entry : ModuleEntry} (readable : entry.Readable) : 61 ∉ entry.key := by
  cases entry with
  | depends names =>
      change 61 ∉ dependsKey
      decide
  | firmware names =>
      change 61 ∉ firmwareKey
      decide
  | other key value => exact readable.1

theorem ModuleEntry.render_noNul {entry : ModuleEntry} (readable : entry.Readable) : 0 ∉ entry.render := by
  have listed {names : List Bytes} (clean : Names names) : 0 ∉ List.intercalate [44] names := by
    intro member
    rcases of_mem_intercalate member with comma | ⟨name, inside, member⟩
    · cases comma
    · exact clean.noNul name inside member
  have both : 0 ∉ entry.key ∧ 0 ∉ entry.value := by
    cases entry with
    | depends names => exact ⟨show 0 ∉ dependsKey by decide, listed readable.1⟩
    | firmware names => exact ⟨show 0 ∉ firmwareKey by decide, listed readable.1⟩
    | other key value => exact ⟨readable.2.1, readable.2.2.1⟩
  intro member
  rcases List.mem_append.mp member with inKey | inValue
  · exact both.1 inKey
  · rcases List.mem_cons.mp inValue with impossible | inValue
    · cases impossible
    · exact both.2 inValue

/-- The key and the value come apart at the first `=`. -/
theorem takeWhile_render {key : Bytes} (value : Bytes) (noEquals : 61 ∉ key) :
    (key ++ 61 :: value).takeWhile (· ≠ 61) = key ∧
      ((key ++ 61 :: value).dropWhile (· ≠ 61)).tail = value := by
  have all : ∀ c ∈ key, decide (c ≠ (61 : UInt8)) = true := by
    intro c member
    exact decide_eq_true fun same => noEquals (same ▸ member)
  constructor
  · rw [List.takeWhile_append_of_pos all]
    simp
  · rw [List.dropWhile_append_of_pos all]
    simp

/-- One entry is read as it is written. -/
theorem entryDependencies_render {entry : ModuleEntry} (readable : entry.Readable) :
    entryDependencies tools exists? entry.render = entry.paths tools exists? := by
  obtain ⟨front, behind⟩ := takeWhile_render entry.value (entry.key_noEquals readable)
  have marked : 61 ∈ entry.render := List.mem_append_right _ List.mem_cons_self
  rw [entryDependencies, if_pos marked, ModuleEntry.render, front, behind]
  cases entry with
  | depends names =>
      rw [ModuleEntry.key, if_pos rfl]
      change (if ModuleEntry.value (.depends names) = [] then pure [] else _) = _
      obtain ⟨clean, notEmpty⟩ := readable
      cases names with
      | nil => rfl
      | cons name rest =>
          have some' : ModuleEntry.value (.depends (name :: rest)) ≠ [] := by
            cases rest with
            | nil =>
                intro empty
                rw [ModuleEntry.value, List.intercalate_singleton] at empty
                exact notEmpty (by rw [empty])
            | cons next rest => simp [ModuleEntry.value, List.intercalate_cons_cons]
          rw [if_neg some', ModuleEntry.value, List.splitOn_intercalate 44 clean.noComma (List.cons_ne_nil _ _)]
          rfl
  | firmware names =>
      rw [ModuleEntry.key, if_neg (by decide), if_pos rfl]
      obtain ⟨clean, some'⟩ := readable
      change (List.splitOn 44 (ModuleEntry.value (.firmware names))).mapM (resolveFirmware exists?) = _
      rw [ModuleEntry.value, List.splitOn_intercalate 44 clean.noComma some']
      rfl
  | other key value =>
      obtain ⟨_, _, _, noDepends, noFirmware⟩ := readable
      rw [ModuleEntry.key, if_neg noDepends, if_neg noFirmware]
      rfl

theorem words_replicate_append (pad : Nat) (after : Bytes) :
    words (· = 0) (List.replicate pad 0 ++ after) = words (· = 0) after := by
  induction pad with
  | zero => rfl
  | succ pad ih =>
      rw [List.replicate_succ, List.cons_append, ← List.nil_append (0 :: (List.replicate pad 0 ++ after)),
        words_append_break (by simp), words_nil, ih, List.nil_append]

theorem words_renderModinfo {entries : List (ModuleEntry × Nat)}
    (readable : ∀ entry ∈ entries, entry.1.Readable) :
    words (· = 0) (renderModinfo entries) = entries.map fun entry => entry.1.render := by
  induction entries with
  | nil => exact words_nil
  | cons entry rest ih =>
      obtain ⟨here, later⟩ := List.forall_mem_cons.mp readable
      have clean := ModuleEntry.render_noNul here
      have proper : entry.1.render ≠ [] := by simp [ModuleEntry.render]
      have noBreak : ∀ c ∈ entry.1.render, decide (c = (0 : UInt8)) = false :=
        fun c member => decide_eq_false fun same => clean (same ▸ member)
      rw [renderModinfo, List.flatMap_cons, List.append_assoc, List.cons_append,
        words_append_break (by simp), words_replicate_append, words_of_no_break proper noBreak, List.map_cons]
      exact congrArg _ (ih later)

/-- The section is read back, whatever NULs stand before and between its entries. -/
theorem getDependenciesModules_render {entries : List (ModuleEntry × Nat)} (pad : Nat)
    (readable : ∀ entry ∈ entries, entry.1.Readable) :
    getDependenciesModules tools exists? (List.replicate pad 0 ++ renderModinfo entries) =
      (entries.mapM fun entry => entry.1.paths tools exists?) >>= fun paths => pure paths.flatten := by
  have same : (entries.map fun entry => entry.1.render).mapM (entryDependencies tools exists?) =
      entries.mapM fun entry => entry.1.paths tools exists? := by
    rw [List.mapM_map]
    induction entries with
    | nil => rfl
    | cons entry rest ih =>
        obtain ⟨here, later⟩ := List.forall_mem_cons.mp readable
        rw [List.mapM_cons, List.mapM_cons, ih later, Function.comp_apply, entryDependencies_render here]
  rw [getDependenciesModules, words_replicate_append, words_renderModinfo readable, same]

/-- A driver with a licence, padding behind it, two modules that it needs and one firmware file. -/
def driverEntries : List (ModuleEntry × Nat) :=
  [(.other (utf8 "license".toList) (utf8 "GPL".toList), 3),
    (.depends [utf8 "mii".toList, utf8 "usbnet".toList], 0), (.firmware [utf8 "a.b".toList], 0)]

/-- Every module is found, uncompressed. -/
def driverTools : Tools where
  libdirs := []
  ignores := []
  readElf := fun _ => none
  loads := fun _ => none
  xz := fun _ => none
  zstd := fun _ => none
  modinfo := fun name => some ("/usr/lib/modules/".toList ++ name ++ ".ko\x00".toList)
  depth := 1

theorem resolveModule_driver (name : Chars) : resolveModule driverTools (utf8 name) =
    .ok (("/usr/lib/modules/".toList ++ name ++ ".ko\x00".toList).rdropWhile (· = '\x00')) := by
  rw [resolveModule, decode, decodeUtf8_utf8]
  rfl

theorem resolveFirmware_missing (name : Chars) : resolveFirmware (fun _ => false) (utf8 name) =
    .ok (joinPath firmwareDir name ++ ".zstd".toList) := by
  rw [resolveFirmware, decode, decodeUtf8_utf8]
  rfl

theorem driver_paths : (driverEntries.mapM fun entry => entry.1.paths driverTools fun _ => false) =
    .ok [[], ["/usr/lib/modules/mii.ko".toList, "/usr/lib/modules/usbnet.ko".toList],
      ["/usr/lib/firmware/a.b.zstd".toList]] := by
  simp only [driverEntries, List.mapM_cons, List.mapM_nil, ModuleEntry.paths, resolveModule_driver,
    resolveFirmware_missing]
  decide +kernel

theorem driver_read_back :
    getDependenciesModules driverTools (fun _ => false) (List.replicate 2 0 ++ renderModinfo driverEntries) =
      .ok ["/usr/lib/modules/mii.ko".toList, "/usr/lib/modules/usbnet.ko".toList,
        "/usr/lib/firmware/a.b.zstd".toList] := by
  have readable : ∀ entry ∈ driverEntries, entry.1.Readable := by
    intro entry member
    simp only [driverEntries, List.mem_cons, List.not_mem_nil, or_false] at member
    rcases member with rfl | rfl | rfl
    · exact ⟨by decide, by decide, by decide, by decide, by decide⟩
    · exact ⟨⟨by decide, by decide⟩, by decide⟩
    · exact ⟨⟨by decide, by decide⟩, by decide⟩
  rw [getDependenciesModules_render 2 readable, driver_paths]
  rfl

end GnomeBuildMeta.Initramfs
