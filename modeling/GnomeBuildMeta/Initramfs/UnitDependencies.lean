import GnomeBuildMeta.Control.Except
import GnomeBuildMeta.Initramfs.UnitReading
import GnomeBuildMeta.Words.Cut
import Mathlib.Data.List.Dedup

/-!
# The dependencies of a unit

The values of a property are joined before they are taken apart again.  Of the
command lines of a property only the first one is still told from the rest.
-/

namespace GnomeBuildMeta.Initramfs

open Control Words

/-! ## The resolver -/

structure UnitResolver where
  resolveUnit : Chars → Chars
  resolveExe : Chars → Chars

/-- `os.path.join` of two paths -/
def joinPath (first second : Chars) : Chars :=
  if second.head? = some '/' then second
  else if first = [] ∨ first.getLast? = some '/' then first ++ second
  else first ++ '/' :: second

/-- One step of `os.path.normpath` from the root; what is kept is in reverse. -/
def keepPiece (kept : List Chars) (piece : Chars) : List Chars :=
  if piece = [] ∨ piece = ['.'] then kept
  else if piece = ['.', '.'] then kept.tail
  else piece :: kept

/-- `os.path.relpath(name, '/')` of an absolute path -/
def relpathRoot (name : Chars) : Chars :=
  match ((name.splitOn '/').foldl keepPiece []).reverse with
  | [] => ['.']
  | pieces => List.intercalate ['/'] pieces

/-- `os.path.splitext`; a name that only dots come before has no extension. -/
def splitext (path : Chars) : Chars × Chars :=
  let file := path.rtakeWhile (· ≠ '/')
  let stem := (file.rdropWhile (· ≠ '.')).dropLast
  if '.' ∈ file ∧ stem.any (· ≠ '.') then
    (path.take (path.length - (file.length - stem.length)), file.drop stem.length)
  else (path, [])

/-- `SystemdResolver`, with what `os.path.exists` tells -/
def systemdResolver (exists? : Chars → Bool) (rootPath : Chars) : UnitResolver where
  resolveUnit name :=
    let unitDir := joinPath rootPath "usr/lib/systemd/system".toList
    let path := joinPath unitDir name
    if exists? path then path
    else if '@' ∈ name then
      let (base, ext) := splitext path
      let template := joinPath unitDir (base.takeWhile (· ≠ '@') ++ '@' :: ext)
      if exists? template then template else path
    else path
  resolveExe name :=
    if name.head? = some '/' then joinPath rootPath (relpathRoot name)
    else joinPath (joinPath rootPath "usr/bin".toList) name

/-! ## The dependencies -/

/-- The order in which Python goes through a set. -/
structure SetOrder where
  order : List Chars → List Chars
  perm : ∀ names, (order names).Perm names

def unitProperties : List (Chars × Chars) :=
  ["Wants", "Requires", "Upholds", "BindsTo"].map fun key => ("Unit".toList, key.toList)

def execProperties : List (Chars × Chars) :=
  ["ExecStart", "ExecStartPost", "ExecStartPre", "ExecStop", "ExecStopPost", "ExecStopPre"].map
    fun key => ("Service".toList, key.toList)

/-- `conf.get(prop[0], {}).get(prop[1], [])` -/
def valuesAt (conf : Data) (prop : Chars × Chars) : List (Option Chars) :=
  (conf.valuesOf prop.1 prop.2).getD []

def textOf? : Option Chars → Except Unparsed Chars
  | some text => .ok text
  | none => .error .typeError

/-- `' '.join(values)` -/
def joinValues (values : List (Option Chars)) : Except Unparsed Chars :=
  (values.mapM textOf?).map (List.intercalate [' '])

/-- The names of a property. -/
def namesOf (conf : Data) (prop : Chars × Chars) : Except Unparsed (List Chars) :=
  (joinValues (valuesAt conf prop)).map (words (· = ' '))

/-- The executable of a value, `value.split(' ')[0]` after at most one prefix. -/
def commandOf (value : Chars) : Chars :=
  (if value.head? = some '-' ∨ value.head? = some '@' then value.tail else value).takeWhile (· ≠ ' ')

def exeOf (resolver : UnitResolver) (conf : Data) (prop : Chars × Chars) : Except Unparsed (List Chars) :=
  (joinValues (valuesAt conf prop)).map fun value =>
    if value = [] then [] else [resolver.resolveExe (commandOf value)]

/-- What the generator yields for a unit that is parsed. -/
def dependenciesOf (resolver : UnitResolver) (set : SetOrder) (conf : Data) :
    Except Unparsed (List Chars) := do
  let names ← unitProperties.mapM (namesOf conf)
  let units := (set.order names.flatten.dedup).filter ('%' ∉ ·)
  let exes ← execProperties.mapM (exeOf resolver conf)
  return units.map resolver.resolveUnit ++ exes.flatten

/-- `get_dependencies_systemd` of a file with that content -/
def getDependenciesSystemd (resolver : UnitResolver) (set : SetOrder) (content : Chars) :
    Except Unparsed (List Chars) :=
  parseSystemd content >>= dependenciesOf resolver set

/-! ## What systemd runs -/

def commandProperties : List (Chars × Chars) :=
  ["ExecStart", "ExecStartPre", "ExecStartPost", "ExecStop", "ExecStopPost"].map
    fun key => ("Service".toList, key.toList)

def isPrefix (c : Char) : Bool := c = '@' || c = '-' || c = ':' || c = '+' || c = '!'

/-- The first word of a command line after all of its prefixes. -/
def executable (value : Chars) : Chars :=
  (((value.dropWhile isBlank).dropWhile isPrefix).dropWhile isBlank).takeWhile fun c => !isBlank c

/-- Every executable and every unit without a specifier is among the paths. -/
structure YieldsAll (resolver : UnitResolver) (conf : Data) (paths : List Chars) : Prop where
  commands : ∀ prop ∈ commandProperties, ∀ value, some value ∈ valuesAt conf prop →
    executable value ≠ [] → resolver.resolveExe (executable value) ∈ paths
  units : ∀ prop ∈ unitProperties, ∀ value, some value ∈ valuesAt conf prop →
    ∀ unit ∈ words isBlank value, '%' ∉ unit → resolver.resolveUnit unit ∈ paths

/-- The texts among the values of a property. -/
def textsAt (conf : Data) (prop : Chars × Chars) : List Chars := (valuesAt conf prop).filterMap id

/-- The first command line of a property. -/
def firstCommand (conf : Data) (prop : Chars × Chars) : Option Chars :=
  (textsAt conf prop).head?.map commandOf

/-- The command lines that the script can tell. -/
def firstCommands (conf : Data) : List Chars := execProperties.filterMap (firstCommand conf)

/-- Every executable stands first in its property or is one that does, and no name is hidden
by a tab. -/
structure Covered (conf : Data) : Prop where
  texts : ∀ prop ∈ unitProperties ++ execProperties, none ∉ valuesAt conf prop
  commands : ∀ prop ∈ commandProperties, ∀ value, some value ∈ valuesAt conf prop →
    executable value ≠ [] → executable value ∈ firstCommands conf
  units : ∀ prop ∈ unitProperties, ∀ value, some value ∈ valuesAt conf prop →
    ∀ unit ∈ words isBlank value, '%' ∉ unit →
      ∃ other ∈ unitProperties, ∃ value', some value' ∈ valuesAt conf other ∧ unit ∈ words (· = ' ') value'

/-! ## Joined values -/

theorem mapM_textOf_iff {values : List (Option Chars)} {texts : List Chars} :
    values.mapM textOf? = .ok texts ↔ values = texts.map some := by
  rw [mapM_ok_iff]
  constructor
  · intro related
    induction related with
    | nil => rfl
    | @cons value text _ _ one _ ih =>
        cases value with
        | none => cases one
        | some _ =>
            cases one
            rw [List.map_cons, ih]
  · rintro rfl
    induction texts with
    | nil => exact .nil
    | cons text texts ih => exact .cons rfl ih

theorem joinValues_iff {values : List (Option Chars)} {joined : Chars} :
    joinValues values = .ok joined ↔
      ∃ texts, values = texts.map some ∧ joined = List.intercalate [' '] texts := by
  rw [joinValues]
  cases run : values.mapM textOf? with
  | error e =>
      constructor
      · intro impossible
        cases impossible
      · rintro ⟨texts, same, _⟩
        rw [mapM_textOf_iff.mpr same] at run
        cases run
  | ok texts =>
      have same := mapM_textOf_iff.mp run
      constructor
      · intro done
        cases done
        exact ⟨texts, same, rfl⟩
      · rintro ⟨texts', same', rfl⟩
        have equal : texts = texts' :=
          List.map_injective_iff.mpr (fun _ _ => Option.some.inj) (same.symm.trans same')
        rw [equal]
        rfl

theorem exists_texts {values : List (Option Chars)} (present : none ∉ values) :
    ∃ texts : List Chars, values = texts.map some := by
  induction values with
  | nil => exact ⟨[], rfl⟩
  | cons value values ih =>
      obtain ⟨rest, rfl⟩ := ih fun later => present (List.mem_cons_of_mem _ later)
      cases value with
      | none => exact absurd List.mem_cons_self present
      | some text => exact ⟨text :: rest, rfl⟩

theorem words_intercalate (texts : List Chars) :
    words (· = ' ') (List.intercalate [' '] texts) = texts.flatMap (words (· = ' ')) := by
  induction texts with
  | nil => exact words_nil
  | cons text texts ih =>
      cases texts with
      | nil => simp
      | cons next texts =>
          rw [List.intercalate_cons_cons, List.append_assoc, List.singleton_append,
            words_append_break rfl, ih, ← List.flatMap_cons]

theorem takeWhile_append_space (text rest : Chars) :
    (text ++ ' ' :: rest).takeWhile (· ≠ ' ') = text.takeWhile (· ≠ ' ') := by
  induction text with
  | nil => rfl
  | cons c text ih => rw [List.cons_append, List.takeWhile_cons, List.takeWhile_cons, ih]

theorem intercalate_ne_nil {first : Chars} (nonempty : first ≠ []) (rest : List Chars) :
    List.intercalate [' '] (first :: rest) ≠ [] := by
  cases rest with
  | nil => simpa using nonempty
  | cons next rest => simp [List.intercalate_cons_cons]

/-- Only the first command line is looked at. -/
theorem commandOf_intercalate {first : Chars} (nonempty : first ≠ []) (rest : List Chars) :
    commandOf (List.intercalate [' '] (first :: rest)) = commandOf first := by
  cases rest with
  | nil => simp
  | cons next rest =>
      rw [List.intercalate_cons_cons, List.append_assoc, List.singleton_append]
      cases first with
      | nil => exact absurd rfl nonempty
      | cons c first =>
          have head (later : Chars) : (c :: first ++ later).head? = (c :: first).head? := rfl
          rw [commandOf, commandOf, head]
          by_cases marked : (c :: first).head? = some '-' ∨ (c :: first).head? = some '@'
          · rw [if_pos marked, if_pos marked]
            exact takeWhile_append_space first _
          · rw [if_neg marked, if_neg marked]
            exact takeWhile_append_space (c :: first) _

/-! ## Parsed units have no empty value -/

def Data.Filled (data : Data) : Prop :=
  ∀ name key values, data.valuesOf name key = some values → some [] ∉ values

theorem Data.Filled.setValue {data data' : Data} (filled : data.Filled) {current : Option Chars}
    {key : Chars} {value : Option Chars} (done : setValue data current key value = .ok data') :
    data'.Filled := by
  obtain ⟨name, rfl⟩ := current_of_setValue done
  intro name' key' values held
  by_cases here : name' = name ∧ key' = key
  · obtain ⟨rfl, rfl⟩ := here
    rw [valuesOf_setValue done] at held
    cases held
    split
    case isTrue => exact List.not_mem_nil
    case isFalse nonempty =>
      intro member
      rcases List.mem_append.mp member with early | last
      · cases before : data.valuesOf name' key' with
        | none =>
            rw [before] at early
            cases early
        | some values =>
            rw [before] at early
            exact filled name' key' values before early
      · exact nonempty (List.mem_singleton.mp last).symm
  · rw [valuesOf_setValue_of_ne done here] at held
    exact filled name' key' values held

theorem Data.Filled.header {data : Data} (filled : data.Filled) (name : Chars) :
    Data.Filled (Function.update data name (some fun _ => none)) := by
  intro name' key values held
  by_cases here : name' = name
  · subst here
    rw [Data.valuesOf, Function.update_self] at held
    cases held
  · rw [Data.valuesOf, Function.update_of_ne here] at held
    exact filled name' key values held

theorem filled_parseLine {s s' : Parsing} {line : Chars} (filled : s.data.Filled)
    (done : parseLine s line = .ok s') : s'.data.Filled := by
  rw [parseLine] at done
  split at done
  · rw [emptyLine] at done
    split at done
    · cases done
      exact filled
    · obtain ⟨data, set, same⟩ := bind_ok_iff.mp done
      cases same
      exact filled.setValue set
  · split at done
    · cases done
      exact filled
    · split at done
      · rw [headerLine] at done
        split at done
        · cases done
        · cases done
          exact filled.header _
      · split at done
        · rw [continuationLine] at done
          split at done
          · cases done
          · split at done
            · cases done
              exact filled
            · obtain ⟨data, set, same⟩ := bind_ok_iff.mp done
              cases same
              exact filled.setValue set
        · rw [assignmentLine] at done
          split at done
          · cases done
          · split at done
            · cases done
              exact filled
            · obtain ⟨data, set, same⟩ := bind_ok_iff.mp done
              cases same
              exact filled.setValue set

theorem filled_parseSystemd {content : Chars} {conf : Data} (parsed : parseSystemd content = .ok conf) :
    conf.Filled := by
  obtain ⟨s, run, same⟩ := bind_ok_iff.mp parsed
  cases same
  refine foldlM_invariant (I := fun s => s.data.Filled) ?_ ?_ run
  · intro s line s' _ filled done
    exact filled_parseLine filled done
  · intro name key values held
    cases held

/-! ## What is yielded -/

theorem not_mem_valuesAt {conf : Data} {prop : Chars × Chars} (filled : conf.Filled) :
    some [] ∉ valuesAt conf prop := by
  rw [valuesAt]
  cases held : conf.valuesOf prop.1 prop.2 with
  | none => exact List.not_mem_nil
  | some values => exact filled _ _ values held

theorem map_ok_iff {α β : Type} {x : Except Unparsed α} {f : α → β} {y : β} :
    x.map f = .ok y ↔ ∃ z, x = .ok z ∧ f z = y := by
  cases x with
  | error e => simp [Except.map]
  | ok z => simp [Except.map]

theorem mem_textsAt {conf : Data} {prop : Chars × Chars} {value : Chars} :
    value ∈ textsAt conf prop ↔ some value ∈ valuesAt conf prop := by
  simp [textsAt, List.mem_filterMap]

theorem joinValues_valuesAt_iff {conf : Data} {prop : Chars × Chars} {joined : Chars} :
    joinValues (valuesAt conf prop) = .ok joined ↔
      none ∉ valuesAt conf prop ∧ joined = List.intercalate [' '] (textsAt conf prop) := by
  rw [joinValues_iff, textsAt]
  constructor
  · rintro ⟨texts, same, rfl⟩
    rw [same]
    exact ⟨by simp, by simp [List.filterMap_map]⟩
  · rintro ⟨present, rfl⟩
    obtain ⟨texts, same⟩ := exists_texts present
    rw [same]
    exact ⟨texts, rfl, by simp [List.filterMap_map]⟩

theorem namesOf_iff {conf : Data} {prop : Chars × Chars} {names : List Chars} :
    namesOf conf prop = .ok names ↔
      none ∉ valuesAt conf prop ∧ names = (textsAt conf prop).flatMap (words (· = ' ')) := by
  rw [namesOf, map_ok_iff]
  constructor
  · rintro ⟨joined, done, rfl⟩
    obtain ⟨present, rfl⟩ := joinValues_valuesAt_iff.mp done
    exact ⟨present, words_intercalate _⟩
  · rintro ⟨present, rfl⟩
    exact ⟨_, joinValues_valuesAt_iff.mpr ⟨present, rfl⟩, words_intercalate _⟩

theorem exe_of_texts (resolver : UnitResolver) {texts : List Chars} (filled : [] ∉ texts) :
    (if List.intercalate [' '] texts = [] then []
      else [resolver.resolveExe (commandOf (List.intercalate [' '] texts))]) =
      (texts.head?.map commandOf).toList.map resolver.resolveExe := by
  cases texts with
  | nil => rfl
  | cons first rest =>
      have nonempty : first ≠ [] := by
        rintro rfl
        exact filled List.mem_cons_self
      rw [commandOf_intercalate nonempty, if_neg (intercalate_ne_nil nonempty rest)]
      rfl

theorem exeOf_iff {resolver : UnitResolver} {conf : Data} (filled : conf.Filled)
    {prop : Chars × Chars} {exes : List Chars} :
    exeOf resolver conf prop = .ok exes ↔
      none ∉ valuesAt conf prop ∧ exes = (firstCommand conf prop).toList.map resolver.resolveExe := by
  have noEmpty : [] ∉ textsAt conf prop := fun empty => not_mem_valuesAt filled (mem_textsAt.mp empty)
  rw [exeOf, map_ok_iff]
  constructor
  · rintro ⟨joined, done, rfl⟩
    obtain ⟨present, rfl⟩ := joinValues_valuesAt_iff.mp done
    exact ⟨present, exe_of_texts resolver noEmpty⟩
  · rintro ⟨present, rfl⟩
    exact ⟨_, joinValues_valuesAt_iff.mpr ⟨present, rfl⟩, exe_of_texts resolver noEmpty⟩

/-- The units that are named between spaces. -/
def unitNames (conf : Data) : List Chars :=
  unitProperties.flatMap fun prop => (textsAt conf prop).flatMap (words (· = ' '))

theorem dependenciesOf_iff {resolver : UnitResolver} {set : SetOrder} {conf : Data} (filled : conf.Filled)
    {paths : List Chars} :
    dependenciesOf resolver set conf = .ok paths ↔
      (∀ prop ∈ unitProperties ++ execProperties, none ∉ valuesAt conf prop) ∧
        paths = ((set.order (unitNames conf).dedup).filter ('%' ∉ ·)).map resolver.resolveUnit ++
          (firstCommands conf).map resolver.resolveExe := by
  have exes : (execProperties.map fun prop =>
      (firstCommand conf prop).toList.map resolver.resolveExe).flatten =
      (firstCommands conf).map resolver.resolveExe := by
    rw [firstCommands, List.filterMap_eq_flatMap_toList, List.map_flatMap]
    rfl
  rw [dependenciesOf, bind_ok_iff]
  constructor
  · rintro ⟨names, named, rest⟩
    obtain ⟨lists, resolved, same⟩ := bind_ok_iff.mp rest
    obtain ⟨units, rfl⟩ := (mapM_iff fun _ _ => namesOf_iff).mp named
    obtain ⟨commands, rfl⟩ := (mapM_iff fun _ _ => exeOf_iff filled).mp resolved
    cases same
    refine ⟨List.forall_mem_append.mpr ⟨units, commands⟩, ?_⟩
    rw [exes]
    rfl
  · rintro ⟨texts, rfl⟩
    obtain ⟨units, commands⟩ := List.forall_mem_append.mp texts
    refine ⟨_, (mapM_iff fun _ _ => namesOf_iff).mpr ⟨units, rfl⟩, ?_⟩
    refine bind_ok_iff.mpr ⟨_, (mapM_iff fun _ _ => exeOf_iff filled).mpr ⟨commands, rfl⟩, ?_⟩
    rw [exes]
    rfl

theorem mem_unitNames {conf : Data} {unit : Chars} :
    unit ∈ unitNames conf ↔ ∃ prop ∈ unitProperties, ∃ value, some value ∈ valuesAt conf prop ∧
      unit ∈ words (· = ' ') value := by
  simp only [unitNames, List.mem_flatMap, mem_textsAt]

/-- Every command line and every unit of a parsed unit is found exactly if it is covered. -/
theorem yieldsAll_iff {content : Chars} {conf : Data} (parsed : parseSystemd content = .ok conf) :
    (∀ resolver set, ∃ paths, getDependenciesSystemd resolver set content = .ok paths ∧
      YieldsAll resolver conf paths) ↔ Covered conf := by
  have filled := filled_parseSystemd parsed
  simp only [getDependenciesSystemd, parsed]
  change (∀ resolver set, ∃ paths, dependenciesOf resolver set conf = .ok paths ∧ _) ↔ _
  constructor
  · intro yields
    -- two resolvers that tell all names and both kinds of them apart
    obtain ⟨paths, run, commands, units⟩ := yields ⟨List.cons 'u', List.cons 'e'⟩ ⟨id, fun _ => .refl _⟩
    obtain ⟨texts, rfl⟩ := (dependenciesOf_iff filled).mp run
    refine ⟨texts, fun prop listed value held nonempty => ?_, fun prop listed value held unit word plain => ?_⟩
    · have member := commands prop listed value held nonempty
      simpa using member
    · have member := units prop listed value held unit word plain
      exact mem_unitNames.mp (by simpa [plain] using member)
  · intro covered resolver set
    refine ⟨_, (dependenciesOf_iff filled).mpr ⟨covered.texts, rfl⟩, ?_, ?_⟩
    · intro prop listed value held nonempty
      exact List.mem_append_right _ (List.mem_map_of_mem (covered.commands prop listed value held nonempty))
    · intro prop listed value held unit word plain
      refine List.mem_append_left _ (List.mem_map_of_mem ?_)
      have named := mem_unitNames.mpr (covered.units prop listed value held unit word plain)
      exact List.mem_filter.mpr ⟨(set.perm _).mem_iff.mpr (List.mem_dedup.mpr named), by simpa using plain⟩

theorem covered_of_texts {conf : Data}
    (texts : ∀ prop ∈ unitProperties ++ execProperties, none ∉ valuesAt conf prop)
    (commands : ∀ prop ∈ commandProperties, ∀ value ∈ textsAt conf prop,
      executable value ≠ [] → executable value ∈ firstCommands conf)
    (units : ∀ prop ∈ unitProperties, ∀ value ∈ textsAt conf prop, ∀ unit ∈ words isBlank value,
      '%' ∉ unit → unit ∈ unitNames conf) : Covered conf where
  texts := texts
  commands prop listed value held := commands prop listed value (mem_textsAt.mpr held)
  units prop listed value held unit word plain :=
    mem_unitNames.mp (units prop listed value (mem_textsAt.mpr held) unit word plain)

def plainUnit : Chars :=
  "[Unit]\nWants=a.service  b@%i.service\n[Service]\nExecStart=-/bin/a x\nExecStop=/bin/b\n".toList

theorem plainUnit_yields : ∃ conf, parseSystemd plainUnit = .ok conf ∧
    ∀ resolver set, ∃ paths, getDependenciesSystemd resolver set plainUnit = .ok paths ∧
      YieldsAll resolver conf paths :=
  ⟨_, rfl, (yieldsAll_iff rfl).mpr (covered_of_texts (by decide +kernel) (by decide +kernel) (by decide +kernel))⟩

/-! ## Two command lines -/

def enableEncryption : Chars :=
  "[Service]\nExecStart=/usr/bin/cp -rT /sysusr /run\nExecStart=/usr/bin/gen-recovery-key /run/a\n".toList

theorem enableEncryption_misses : ∃ conf, parseSystemd enableEncryption = .ok conf ∧
    getDependenciesSystemd (systemdResolver (fun _ => true) ['/']) ⟨id, fun _ => .refl _⟩ enableEncryption =
      .ok ["/usr/bin/cp".toList] ∧
    ¬ ∃ paths, getDependenciesSystemd (systemdResolver (fun _ => true) ['/']) ⟨id, fun _ => .refl _⟩
      enableEncryption = .ok paths ∧ YieldsAll (systemdResolver (fun _ => true) ['/']) conf paths := by
  have run : getDependenciesSystemd (systemdResolver (fun _ => true) ['/']) ⟨id, fun _ => .refl _⟩
      enableEncryption = .ok ["/usr/bin/cp".toList] := rfl
  refine ⟨_, rfl, run, ?_⟩
  rintro ⟨paths, again, yields⟩
  rw [run] at again
  cases again
  have second := yields.commands ("Service".toList, "ExecStart".toList) (by decide +kernel)
    "/usr/bin/gen-recovery-key /run/a".toList (by decide +kernel) (by decide +kernel)
  revert second
  decide +kernel

end GnomeBuildMeta.Initramfs
