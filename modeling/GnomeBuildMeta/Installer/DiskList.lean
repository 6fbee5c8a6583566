import GnomeBuildMeta.Installer.FrontEnd
import GnomeBuildMeta.Posix.RealPath
import GnomeBuildMeta.Posix.Text

/-!
# The list of disks

`get_disks` looks at the objects of UDisks, and each disk that it returns
becomes a row of the list.  Rows with an error cannot be selected, and the
install button acts on the selected row.
-/

namespace GnomeBuildMeta.Installer.DiskList

open GnomeBuildMeta.Control GnomeBuildMeta.Posix

/-! ## UDisks -/

/-- The properties of a `Drive` that are read. -/
structure Drive where
  model : String
  mediaCompatibility : List String
  deriving DecidableEq, Repr

/-- The properties of a `Block` that are read, and the `Type` of its `PartitionTable`. -/
structure Block where
  path : String
  drive : String
  device : List UInt8
  size : Nat
  readOnly : Bool
  hintPartitionable : Bool
  partitionTable : Option String
  deriving DecidableEq, Repr

/-- What `GetManagedObjects` tells of one path, by the interfaces that it has. -/
structure ManagedObject where
  path : String
  drive : Option Drive
  block : Option Block
  partition : Bool

inductive Level where
  | warning
  | error
  deriving DecidableEq, Repr

/-- An entry of the list that `get_disks` returns. -/
structure Disk where
  name : String
  model : String
  size : Nat
  media : List String
  empty : Bool
  invalid : Option (Level × String)
  block : Block
  deriving DecidableEq, Repr

/-- `os.path.relpath(device, '/dev')`, which does not take an empty path. -/
def relpath (cwd : Path String) (device : String) : Option String :=
  if device = "" then none
  else
    let text := pathText device
    match (normFrom (if isabs text then [] else cwd) text).reverse with
    | "dev" :: [] => some "."
    | "dev" :: rest => some ("/".intercalate rest)
    | others => some ("/".intercalate (".." :: others))

def gibibyte : Nat := 1024 * 1024 * 1024

/-- Why the disk is no good, if there is a reason. -/
def invalidOf (block : Block) : Option (Level × String) :=
  if block.partitionTable.isSome then
    some (.warning, "<b>Disk already has a partition table.</b>")
  else if block.readOnly then some (.error, "<b>Disk is read-only</b>")
  else if !block.hintPartitionable then some (.error, "<b>Disk cannot be partitioned</b>")
  else if block.size ≠ 0 ∧ block.size < 10 * gibibyte then
    some (.error, "<b>Disk is too small.</b>")
  else if block.size ≠ 0 ∧ block.size < 30 * gibibyte then
    some (.warning, "<b>Disk is small.</b>\nWe recommend to use a disk with at least 30GB.")
  else if block.size = 0 then some (.warning, "<b>Size is unknown.</b>")
  else none

/-- One round of the second loop; `none` is an exception. -/
def diskOf (cwd : Path String) (drive : Drive) (block : Block) : Option Disk := do
  let devicePath := (block.device.reverse.dropWhile (· = 0)).reverse
  let device ← String.fromUTF8? ⟨devicePath.toArray⟩
  return {
    name := ← relpath cwd device
    model := drive.model
    size := block.size
    media := drive.mediaCompatibility
    empty := block.partitionTable.isNone
    invalid := invalidOf block
    block := block }

/-- The block devices that are no partitions. -/
def blocksOf (objects : List ManagedObject) : List Block :=
  objects.filterMap fun object => if object.partition then none else object.block

def driveAt (objects : List ManagedObject) (path : String) : Option Drive :=
  (objects.find? fun object => object.path = path && object.drive.isSome).bind ManagedObject.drive

def getDisks (cwd : Path String) (objects : List ManagedObject) : Option (List Disk) :=
  ((blocksOf objects).filterMap fun block =>
    (driveAt objects block.drive).map fun drive => (drive, block)).mapM
      fun (drive, block) => diskOf cwd drive block

/-! ## Rows -/

inductive Suffix where
  | warningIcon (text : String)
  | errorIcon (text : String)
  deriving DecidableEq, Repr

structure DiskRow where
  deviceName : String
  empty : Bool
  block : Block
  title : String
  selectable : Bool
  suffix : Option Suffix
  icon : String
  deriving DecidableEq, Repr

/-- The icon of the first medium that has one. -/
def iconOf : List String → String
  | [] => "drive-harddisk-symbolic"
  | m :: media =>
      if m.startsWith "flash" then "media-flash-symbolic"
      else if m = "thumb" then "drive-harddisk-usb-symbolic"
      else if m.startsWith "floppy" then "media-floppy-symbolic"
      else if m.startsWith "optical" then "media-optical-symbolic"
      else iconOf media

/-- `DiskRow.__init__` -/
def DiskRow.new (disk : Disk) : DiskRow where
  deviceName := disk.name
  empty := disk.empty
  block := disk.block
  title := disk.model
  selectable := disk.invalid.all fun invalid => invalid.1 = .warning
  suffix := disk.invalid.map fun
    | (.warning, text) => .warningIcon text
    | (.error, text) => .errorIcon text
  icon := iconOf disk.media

/-- What the code of the other windows knows of a row. -/
def DiskRow.row (row : DiskRow) : FrontEnd.Row := ⟨row.deviceName, row.block.path, row.empty⟩

/-! ## The window -/

/-- The rows, the one that is selected, and whether the button takes clicks. -/
structure Selector where
  rows : List DiskRow
  selected : Option DiskRow
  canTarget : Bool

inductive Event where
  | select (row : DiskRow)
  | unselect
  | click (row : DiskRow) (activity : FrontEnd.Activity)
  deriving DecidableEq, Repr

def Selector.start (disks : List Disk) : Selector := ⟨disks.map .new, none, false⟩

/-- Only a selectable row is ever selected; a click without a selected row raises. -/
inductive Selector.Step : Selector → Event → Selector → Prop where
  | select (s : Selector) (row : DiskRow) : row ∈ s.rows → row.selectable = true →
      Step s (.select row) { s with selected := some row, canTarget := true }
  | unselect (s : Selector) : Step s .unselect { s with selected := none, canTarget := true }
  | click (s : Selector) (row : DiskRow) : s.canTarget = true → s.selected = some row →
      Step s (.click row (FrontEnd.afterClick row.row)) s

/-- The erase dialog is opened for the row. -/
def Erases (trace : List Event) (row : DiskRow) : Prop :=
  .click row (.asking row.row) ∈ trace

/-! ## Disks that must not be installed to -/

/-- Read-only, not partitionable, or known to be too small. -/
def Unfit (block : Block) : Prop :=
  block.readOnly = true ∨ block.hintPartitionable = false ∨
    block.size ≠ 0 ∧ block.size < 10 * gibibyte

/-- The disk has an error, its row cannot be selected, and it is never asked about. -/
structure Refused (disks : List Disk) (disk : Disk) : Prop where
  error : ∃ text, disk.invalid = some (.error, text)
  unselectable : (DiskRow.new disk).selectable = false
  unreachable : ∀ trace s, Run Selector.Step (.start disks) trace s → ¬ Erases trace (.new disk)

theorem invalidOf_error_iff {block : Block} (unfit : Unfit block) :
    (∃ text, invalidOf block = some (.error, text)) ↔ block.partitionTable = none := by
  unfold invalidOf
  constructor
  · rintro ⟨text, isError⟩
    cases table : block.partitionTable with
    | none => rfl
    | some type =>
        rw [table, Option.isSome_some, if_pos rfl] at isError
        cases isError
  · intro noTable
    rw [noTable, Option.isSome_none, if_neg Bool.false_ne_true]
    rcases unfit with readOnly | unpartitionable | small
    · rw [if_pos readOnly]
      exact ⟨_, rfl⟩
    · split
      · exact ⟨_, rfl⟩
      · rw [unpartitionable, Bool.not_false, if_pos rfl]
        exact ⟨_, rfl⟩
    · split
      · exact ⟨_, rfl⟩
      · split
        · exact ⟨_, rfl⟩
        · exact ⟨_, rfl⟩

/-- Each disk is made from its block device. -/
theorem of_mem_getDisks {cwd : Path String} {objects : List ManagedObject} {disks : List Disk}
    {disk : Disk} (listed : getDisks cwd objects = some disks) (member : disk ∈ disks) :
    disk.invalid = invalidOf disk.block := by
  have made : ∀ drive block, diskOf cwd drive block = some disk →
      disk.invalid = invalidOf disk.block := by
    intro drive block one
    obtain ⟨device, _, rest⟩ := Option.bind_eq_some_iff.mp one
    obtain ⟨name, _, same⟩ := Option.bind_eq_some_iff.mp rest
    cases same
    rfl
  obtain ⟨entries, found⟩ : ∃ entries : List (Drive × Block),
      entries.mapM (fun (drive, block) => diskOf cwd drive block) = some disks := ⟨_, listed⟩
  clear listed
  induction entries generalizing disks with
  | nil =>
      cases found
      cases member
  | cons entry entries ih =>
      rw [List.mapM_cons] at found
      obtain ⟨first, one, rest⟩ := Option.bind_eq_some_iff.mp found
      obtain ⟨others, later, same⟩ := Option.bind_eq_some_iff.mp rest
      cases same
      rcases List.mem_cons.mp member with rfl | inside
      · exact made _ _ one
      · exact ih inside later

/-- What is selected or clicked is selectable. -/
theorem selectable_of_run {disks : List Disk} {trace : List Event} {s : Selector}
    (run : Run Selector.Step (.start disks) trace s) :
    (∀ row, s.selected = some row → row.selectable = true) ∧
      ∀ row activity, .click row activity ∈ trace → row.selectable = true := by
  refine run.invariant (I := fun trace s => (∀ row, s.selected = some row → row.selectable = true) ∧
    ∀ row activity, .click row activity ∈ trace → row.selectable = true) ?_ ?_
  · constructor
    · intro row impossible
      cases impossible
    · intro row activity impossible
      cases impossible
  · rintro trace s e s' ⟨selected, clicked⟩ step
    cases step with
    | select row listed selectable =>
        refine ⟨fun other same => ?_, fun other activity inside => ?_⟩
        · cases same
          exact selectable
        · simp only [List.mem_append, List.mem_singleton, reduceCtorEq, or_false] at inside
          exact clicked other activity inside
    | unselect =>
        refine ⟨fun other impossible => ?_, fun other activity inside => ?_⟩
        · cases impossible
        · simp only [List.mem_append, List.mem_singleton, reduceCtorEq, or_false] at inside
          exact clicked other activity inside
    | click row _ here =>
        refine ⟨selected, fun other activity inside => ?_⟩
        rcases List.mem_append.mp inside with earlier | now
        · exact clicked other activity earlier
        · cases List.mem_singleton.mp now
          exact selected row here

/-- An unfit disk is refused exactly if it has no partition table. -/
theorem getDisks_refuses_iff {cwd : Path String} {objects : List ManagedObject} {disks : List Disk}
    (listed : getDisks cwd objects = some disks) {disk : Disk} (member : disk ∈ disks) :
    (Unfit disk.block → Refused disks disk) ↔
      (Unfit disk.block → disk.block.partitionTable = none) := by
  have invalid := of_mem_getDisks listed member
  refine forall_congr' fun unfit => ⟨fun refused => ?_, fun noTable => ?_⟩
  · rw [← invalidOf_error_iff unfit, ← invalid]
    exact refused.error
  · obtain ⟨text, isError⟩ := (invalidOf_error_iff unfit).mpr noTable
    have unselectable : (DiskRow.new disk).selectable = false := by
      simp [DiskRow.new, invalid, isError]
    refine ⟨⟨text, invalid.trans isError⟩, unselectable, fun trace s run erases => ?_⟩
    rw [(selectable_of_run run).2 _ _ erases] at unselectable
    cases unselectable

/-! ## A read-only disk in use -/

def inUse : Block where
  path := "/org/freedesktop/UDisks2/block_devices/sda"
  drive := "/org/freedesktop/UDisks2/drives/disk"
  device := [0x2f, 0x64, 0x65, 0x76, 0x2f, 0x73, 0x64, 0x61, 0]
  size := 64 * gibibyte
  readOnly := true
  hintPartitionable := true
  partitionTable := some "gpt"

def attached (block : Block) : List ManagedObject :=
  [⟨block.drive, some ⟨"Disk", []⟩, none, false⟩, ⟨block.path, none, some block, false⟩]

def inUseDisk : Disk :=
  ⟨"sda", "Disk", 64 * gibibyte, [], false,
    some (.warning, "<b>Disk already has a partition table.</b>"), inUse⟩

def unusedDisk : Disk :=
  ⟨"sda", "Disk", 64 * gibibyte, [], true, some (.error, "<b>Disk is read-only</b>"),
    { inUse with partitionTable := none }⟩

/-- The warning of the partition table hides the error, and the user is asked to erase the disk. -/
theorem inUse_erased : ∃ disks disk, getDisks [] (attached inUse) = some disks ∧ disk ∈ disks ∧
    Unfit disk.block ∧ ¬ Refused disks disk ∧
      ∃ trace s, Run Selector.Step (.start disks) trace s ∧ Erases trace (.new disk) := by
  have listed : getDisks [] (attached inUse) = some [inUseDisk] := by decide +kernel
  have member : inUseDisk ∈ [inUseDisk] := List.mem_cons_self
  have unfit : Unfit inUseDisk.block := Or.inl rfl
  have row : DiskRow.new inUseDisk ∈ (Selector.start [inUseDisk]).rows := List.mem_cons_self
  have run : Run Selector.Step (.start [inUseDisk])
      [.select (.new inUseDisk), .click (.new inUseDisk) (FrontEnd.afterClick (DiskRow.new inUseDisk).row)]
      ⟨[.new inUseDisk], some (.new inUseDisk), true⟩ :=
    .snoc (.snoc .nil (.select _ _ row rfl)) (.click _ _ rfl rfl)
  refine ⟨_, _, listed, member, unfit, fun refused => ?_, _, _, run, ?_⟩
  · obtain ⟨text, isError⟩ := refused.error
    cases isError
  · exact List.mem_cons_of_mem _ List.mem_cons_self

/-- Without a partition table the same disk is refused. -/
theorem unused_refused : ∃ disks disk,
    getDisks [] (attached { inUse with partitionTable := none }) = some disks ∧ disk ∈ disks ∧
      Unfit disk.block ∧ Refused disks disk := by
  have listed : getDisks [] (attached { inUse with partitionTable := none }) =
      some [unusedDisk] := by decide +kernel
  have member : unusedDisk ∈ [unusedDisk] := List.mem_cons_self
  have unfit : Unfit unusedDisk.block := Or.inl rfl
  exact ⟨_, _, listed, member, unfit, (getDisks_refuses_iff listed member).mpr (fun _ => rfl) unfit⟩

end GnomeBuildMeta.Installer.DiskList
