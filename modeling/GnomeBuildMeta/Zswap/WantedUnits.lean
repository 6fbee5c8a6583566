import GnomeBuildMeta.Zswap.UnitDirectory

/-!
# Wanted swap units are complete

The generator links a swap unit only after it and its service are there as a
whole.  So whenever the generator fails or is killed, and whatever others do
meanwhile, no half written unit is wanted.
-/

namespace GnomeBuildMeta.Zswap

open Control

/-! ## Names -/

theorem Tmp.ne_of_hyphen (tmp : Tmp) {name : Text} (hyphen : '-' ∈ name) : tmp.name ≠ name := by
  rintro rfl
  exact absurd (tmp.alphanum _ hyphen) (by decide)

theorem hyphen_mem_swapName (name : Text) : '-' ∈ swapName name :=
  List.mem_append_left _ (List.mem_append_left _ (by decide))

theorem Tmp.ne_swapName (tmp : Tmp) (name : Text) : tmp.name ≠ swapName name :=
  tmp.ne_of_hyphen (hyphen_mem_swapName name)

theorem swapName_injective {name other : Text} (same : swapName name = swapName other) : name = other :=
  framed_injective _ _ same

/-! ## One entry -/

@[simp]
theorem Dirs.entries_set_self (dirs : Dirs) (place : Place) (name : Text) (entry : Option Entry) :
    (dirs.set place name entry).entries place name = entry := by
  simp [Dirs.set]

theorem Dirs.entries_set_of_ne (dirs : Dirs) {place place' : Place} {name name' : Text} (entry : Option Entry)
    (differs : place' = place → name' ≠ name) :
    (dirs.set place name entry).entries place' name' = dirs.entries place' name' := by
  by_cases same : place' = place
  · subst same
    simp [Dirs.set, Function.update_of_ne (differs rfl)]
  · simp [Dirs.set, Function.update_of_ne same]

/-- An entry that the generator has come to. -/
structure Current where
  name : Text
  cfg : Cfg
  path : Text
  size : Int64
  tmp : Tmp
  path_eq : getPath name cfg = .ok path
  size_eq : getSize name cfg = .ok size

namespace Current

variable (c : Current)

def service : UnitFile := serviceUnit c.name c.path c.size

theorem writeUnits_eq : writeUnits c.name c.cfg = .ok [c.service, swapUnit c.name] := by
  rw [writeUnits, c.path_eq, c.size_eq]
  rfl

end Current

/-- How far the generator has come with an entry. -/
inductive Spot where
  | service (written rest : List Text)
  | serviced
  | swap (written rest : List Text)
  | swapped
  | created
  | linked

namespace Spot

variable (c : Current)

def ops : Spot → List Op
  | .service _ rest => rest.map .writeln ++ .commit :: (unitOps (swapUnit c.name) ++ linkOps c.name c.tmp)
  | .serviced => unitOps (swapUnit c.name) ++ linkOps c.name c.tmp
  | .swap _ rest => rest.map .writeln ++ .commit :: linkOps c.name c.tmp
  | .swapped => linkOps c.name c.tmp
  | .created => forceSymlink .wants (swapTarget c.name) (swapName c.name) c.tmp
  | .linked => [.rename .wants c.tmp (swapName c.name)]

/-- The service is there. -/
def Serviced (dirs : Dirs) : Prop := dirs.units (serviceName c.name) = some c.service.lines

def Swapped (dirs : Dirs) : Prop :=
  Serviced c dirs ∧ dirs.units (swapName c.name) = some (swapUnit c.name).lines

def Holds (dirs : Dirs) (pending : Option UnitFile) : Spot → Prop
  | .service written rest => pending = some ⟨serviceName c.name, written⟩ ∧ written ++ rest = c.service.lines
  | .serviced => Serviced c dirs
  | .swap written rest =>
      Serviced c dirs ∧ pending = some ⟨swapName c.name, written⟩ ∧
        written ++ rest = (swapUnit c.name).lines
  | .swapped | .created => Swapped c dirs
  | .linked => Swapped c dirs ∧ dirs.entries .wants c.tmp.name = some (.link (swapTarget c.name))

end Spot

/-! ## The progress of a process -/

/-- What is left of the loop: the entries in `done` have their units and links. -/
inductive AtEntry (dirs : Dirs) (pending : Option UnitFile) (error : Option Error) (done : Table) :
    Table → List Op → Prop where
  | between {draw : Nat → Tmp} {todo : Table} (same : (tableOps draw todo).2 = error) :
      AtEntry dirs pending error done todo (tableOps draw todo).1
  | inside (c : Current) (spot : Spot) {draw : Nat → Tmp} {todo : Table} (holds : spot.Holds c dirs pending)
      (same : (tableOps draw todo).2 = error) :
      AtEntry dirs pending error done ((c.name, c.cfg) :: todo) (spot.ops c ++ (tableOps draw todo).1)

/-- What is left of `disable_sysctl`. -/
inductive AtMask (dirs : Dirs) : List Op → Prop where
  | remove {tmp : Tmp} : AtMask dirs (disableSysctl tmp)
  | create {tmp : Tmp} : AtMask dirs (.createDirAll .sysctl :: forceSymlink .sysctl devNull mask tmp)
  | symlink {tmp : Tmp} : AtMask dirs (forceSymlink .sysctl devNull mask tmp)
  | rename {tmp : Tmp} (linked : dirs.entries .sysctl tmp.name = some (.link devNull)) :
      AtMask dirs [.rename .sysctl tmp mask]
  | masked (linked : dirs.entries .sysctl mask = some (.link devNull)) : AtMask dirs []

/-- What the directories say about a process under way. -/
structure Process.Sound (dirs : Dirs) (p : Process) : Prop where
  disabled : generator p.machine = .disabled → AtMask dirs p.ops ∧ p.error = none
  failed : ∀ e, generator p.machine = .failed e → p.ops = [] ∧ p.error = some e
  units : ∀ files error, generator p.machine = .units files error →
    ∀ table, readConfig p.machine = .ok table → (table.map Prod.fst).Nodup ∧
      ∃ done todo, table = done ++ todo ∧ (∀ entry ∈ done, dirs.Placed entry) ∧
        AtEntry dirs p.pending p.error done todo p.ops

structure System.Sound (s : System) : Prop where
  wanted : s.dirs.Wanted
  process : ∀ p, s.process = some p → p.Sound s.dirs

/-! ## What changes leave alone -/

section Frames

variable {dirs after : Dirs} {name other : Text} {entry : Text × Cfg} {c : Current}

theorem Dirs.Complete.congr (complete : dirs.Complete name)
    (units : ∀ file ∈ fileNames name, after.units file = dirs.units file) : after.Complete name where
  swap := (units _ (by simp [fileNames])).trans complete.swap
  service := by
    obtain ⟨path, size, there⟩ := complete.service
    exact ⟨path, size, (units _ (by simp [fileNames])).trans there⟩

theorem Dirs.Placed.congr (placed : dirs.Placed entry)
    (units : ∀ file ∈ fileNames entry.1, after.units file = dirs.units file)
    (link : after.entries .wants (swapName entry.1) = dirs.entries .wants (swapName entry.1)) :
    after.Placed entry where
  swap := (units _ (by simp [fileNames])).trans placed.swap
  service := by
    obtain ⟨path, size, path_eq, size_eq, there⟩ := placed.service
    exact ⟨path, size, path_eq, size_eq, (units _ (by simp [fileNames])).trans there⟩
  link := link.trans placed.link

theorem Dirs.Wanted.congr (wanted : dirs.Wanted)
    (units : ∀ name, ∀ file ∈ fileNames name, after.units file = dirs.units file)
    (links : ∀ name, after.entries .wants (swapName name) = dirs.entries .wants (swapName name)) :
    after.Wanted := by
  intro name entry found
  rw [links] at found
  obtain ⟨same, complete⟩ := wanted name entry found
  exact ⟨same, complete.congr (units name)⟩

/-- The files of other entries stay when one is committed. -/
theorem units_commit_of_ne {u : UnitFile} (differ : name ≠ other) (written : u.name ∈ fileNames other) :
    ∀ kept ∈ fileNames name, (dirs.commit u).units kept = dirs.units kept := by
  intro kept inside
  refine Function.update_of_ne (fun same => ?_) _ _
  exact fileNames_disjoint differ inside (same ▸ written)

theorem units_commit_ne {u : UnitFile} {file : Text} (apart : file ≠ u.name) :
    (dirs.commit u).units file = dirs.units file := by
  rw [Dirs.commit]
  exact Function.update_of_ne apart _ _

theorem swap_commit_service : (dirs.commit c.service).units (swapName c.name) = dirs.units (swapName c.name) := by
  have apart : swapName c.name ≠ c.service.name := (serviceName_ne_swapName c.name c.name).symm
  exact units_commit_ne apart

theorem service_commit_swap :
    (dirs.commit (swapUnit c.name)).units (serviceName c.name) = dirs.units (serviceName c.name) := by
  have apart : serviceName c.name ≠ (swapUnit c.name).name := serviceName_ne_swapName c.name c.name
  exact units_commit_ne apart

theorem units_commit_self (u : UnitFile) : (dirs.commit u).units u.name = some u.lines :=
  Function.update_self _ _ _

theorem Dirs.Wanted.commitService (wanted : dirs.Wanted) : (dirs.commit c.service).Wanted := by
  intro name entry found
  obtain ⟨same, complete⟩ := wanted name entry found
  refine ⟨same, ?_⟩
  by_cases here : name = c.name
  · subst here
    exact ⟨swap_commit_service.trans complete.swap, c.path, c.size, units_commit_self c.service⟩
  · exact complete.congr (units_commit_of_ne here List.mem_cons_self)

theorem Dirs.Wanted.commitSwap (wanted : dirs.Wanted) (serviced : Spot.Serviced c dirs) :
    (dirs.commit (swapUnit c.name)).Wanted := by
  intro name entry found
  obtain ⟨same, complete⟩ := wanted name entry found
  refine ⟨same, ?_⟩
  by_cases here : name = c.name
  · subst here
    exact ⟨units_commit_self (swapUnit c.name), c.path, c.size, service_commit_swap.trans serviced⟩
  · exact complete.congr (units_commit_of_ne here (List.mem_cons_of_mem _ List.mem_cons_self))

/-- A link under a name that is no swap unit's. -/
theorem Dirs.Wanted.set (wanted : dirs.Wanted) {place : Place} {file : Text} {made : Option Entry}
    (apart : ∀ name, swapName name ≠ file) : (dirs.set place file made).Wanted :=
  wanted.congr (fun _ _ _ => rfl) fun name => Dirs.entries_set_of_ne _ _ fun _ => apart name

theorem Dirs.Wanted.linked (wanted : dirs.Wanted) (swapped : Spot.Swapped c dirs) :
    (dirs.set .wants (swapName c.name) (some (.link (swapTarget c.name)))).Wanted := by
  intro name entry found
  by_cases here : name = c.name
  · subst here
    rw [Dirs.entries_set_self] at found
    exact ⟨(Option.some.inj found).symm, swapped.2, c.path, c.size, swapped.1⟩
  · rw [Dirs.entries_set_of_ne _ _ fun _ same => here (swapName_injective same)] at found
    obtain ⟨same, complete⟩ := wanted name entry found
    exact ⟨same, complete.congr fun _ _ => rfl⟩

end Frames

/-! ## The operations of an entry -/

theorem exists_current {name : Text} {cfg : Cfg} {units : List UnitFile} (tmp : Tmp)
    (done : writeUnits name cfg = .ok units) : ∃ c : Current, c.name = name ∧ c.cfg = cfg ∧ c.tmp = tmp ∧
      units = [c.service, swapUnit name] := by
  obtain ⟨path, path_eq, later⟩ := bind_ok_iff.mp done
  obtain ⟨size, size_eq, same⟩ := bind_ok_iff.mp later
  cases same
  exact ⟨⟨name, cfg, path, size, tmp, path_eq, size_eq⟩, rfl, rfl, rfl, rfl⟩

theorem ops_serviced (c : Current) : Spot.serviced.ops c =
    .openUnit (swapName c.name) :: (Spot.swap [] (swapUnit c.name).lines).ops c := by
  simp only [Spot.ops, unitOps, List.cons_append, List.append_assoc, List.nil_append]
  rfl

theorem tableOps_cons {c : Current} {draw : Nat → Tmp} (tmp : draw 0 = c.tmp) (todo : Table) :
    tableOps draw ((c.name, c.cfg) :: todo) =
      (.openUnit (serviceName c.name) :: (Spot.service [] c.service.lines).ops c ++
        (tableOps (fun i => draw (i + 1)) todo).1, (tableOps (fun i => draw (i + 1)) todo).2) := by
  rw [tableOps, c.writeUnits_eq, tmp]
  simp only [List.flatMap_cons, List.flatMap_nil, List.append_nil, unitOps, Spot.ops, List.cons_append,
    List.append_assoc, List.nil_append]
  rfl

section Operation

variable {dirs dirs' : Dirs} {pending pending' : Option UnitFile} {error : Option Error} {done todo : Table}
  {op : Op} {rest : List Op}

/-- What one operation of the loop leaves behind. -/
structure Advanced (dirs' : Dirs) (pending' : Option UnitFile) (error : Option Error) (table : Table)
    (rest : List Op) : Prop where
  wanted : dirs'.Wanted
  progress : ∃ done todo, table = done ++ todo ∧ (∀ entry ∈ done, dirs'.Placed entry) ∧
    AtEntry dirs' pending' error done todo rest

theorem advanced_between {draw : Nat → Tmp} (wanted : dirs.Wanted)
    (placed : ∀ entry ∈ done, dirs.Placed entry) (next : (tableOps draw todo).1 = op :: rest)
    (run : op.run dirs pending = some (dirs', pending')) :
    Advanced dirs' pending' (tableOps draw todo).2 (done ++ todo) rest := by
  cases todo with
  | nil => cases next
  | cons entry todo =>
      obtain ⟨name, cfg⟩ := entry
      cases taken : writeUnits name cfg with
      | error e =>
          rw [tableOps, taken] at next
          cases next
      | ok units =>
          obtain ⟨c, rfl, rfl, tmp, rfl⟩ := exists_current (draw 0) taken
          rw [tableOps_cons tmp.symm] at next ⊢
          obtain ⟨rfl, rfl⟩ := List.cons.inj next
          cases run
          exact ⟨wanted, done, _, rfl, placed, .inside c (.service [] c.service.lines) ⟨rfl, rfl⟩ rfl⟩

/-- The files of the entry at hand belong to no entry that is done. -/
theorem placed_commit {c : Current} {u : UnitFile} (written : u.name ∈ fileNames c.name)
    (apart : ∀ entry ∈ done, entry.1 ≠ c.name) (placed : ∀ entry ∈ done, dirs.Placed entry) :
    ∀ entry ∈ done, (dirs.commit u).Placed entry :=
  fun entry inside => (placed entry inside).congr (units_commit_of_ne (apart entry inside) written) rfl

theorem placed_set {place : Place} {file : Text} {made : Option Entry}
    (apart : ∀ entry ∈ done, swapName entry.1 ≠ file) (placed : ∀ entry ∈ done, dirs.Placed entry) :
    ∀ entry ∈ done, (dirs.set place file made).Placed entry :=
  fun entry inside => (placed entry inside).congr (fun _ _ => rfl)
    (Dirs.entries_set_of_ne _ _ fun _ => apart entry inside)

theorem advanced_at {c : Current} {spot : Spot} {draw : Nat → Tmp} (wanted : dirs.Wanted)
    (placed : ∀ entry ∈ done, dirs.Placed entry) (apart : ∀ entry ∈ done, entry.1 ≠ c.name)
    (holds : spot.Holds c dirs pending) (next : spot.ops c ++ (tableOps draw todo).1 = op :: rest)
    (run : op.run dirs pending = some (dirs', pending')) :
    Advanced dirs' pending' (tableOps draw todo).2 (done ++ (c.name, c.cfg) :: todo) rest := by
  cases spot with
  | service written left =>
      obtain ⟨rfl, whole⟩ := holds
      cases left with
      | nil =>
          obtain ⟨rfl, rfl⟩ := List.cons.inj next
          cases run
          rw [List.append_nil] at whole
          subst whole
          refine ⟨wanted.commitService, done, _, rfl, placed_commit List.mem_cons_self apart placed, ?_⟩
          exact .inside c .serviced (units_commit_self c.service) rfl
      | cons line left =>
          obtain ⟨rfl, rfl⟩ := List.cons.inj next
          cases run
          refine ⟨wanted, done, _, rfl, placed, .inside c (.service (written ++ [line]) left) ⟨rfl, ?_⟩ rfl⟩
          rw [← whole, List.append_assoc]
          rfl
  | serviced =>
      rw [ops_serviced] at next
      obtain ⟨rfl, rfl⟩ := List.cons.inj next
      cases run
      exact ⟨wanted, done, _, rfl, placed, .inside c (.swap [] (swapUnit c.name).lines) ⟨holds, rfl, rfl⟩ rfl⟩
  | swap written left =>
      obtain ⟨serviced, rfl, whole⟩ := holds
      cases left with
      | nil =>
          obtain ⟨rfl, rfl⟩ := List.cons.inj next
          cases run
          rw [List.append_nil] at whole
          subst whole
          have written' : (swapUnit c.name).name ∈ fileNames c.name := List.mem_cons_of_mem _ List.mem_cons_self
          refine ⟨wanted.commitSwap serviced, done, _, rfl, placed_commit written' apart placed, ?_⟩
          exact .inside c .swapped
            ⟨service_commit_swap.trans serviced, units_commit_self (swapUnit c.name)⟩ rfl
      | cons line left =>
          obtain ⟨rfl, rfl⟩ := List.cons.inj next
          cases run
          refine ⟨wanted, done, _, rfl, placed,
            .inside c (.swap (written ++ [line]) left) ⟨serviced, rfl, ?_⟩ rfl⟩
          rw [← whole, List.append_assoc]
          rfl
  | swapped =>
      obtain ⟨rfl, rfl⟩ := List.cons.inj next
      cases run
      refine ⟨wanted.congr (fun _ _ _ => rfl) fun _ => rfl, done, _, rfl, fun entry inside => ?_, .inside c .created holds rfl⟩
      exact (placed entry inside).congr (fun _ _ => rfl) rfl
  | created =>
      obtain ⟨rfl, rfl⟩ := List.cons.inj next
      rw [Op.run] at run
      split at run
      case isFalse => cases run
      case isTrue =>
        cases run
        have others : ∀ name, swapName name ≠ c.tmp.name := fun name => (c.tmp.ne_swapName name).symm
        refine ⟨wanted.set others, done, _, rfl, placed_set (fun entry _ => others entry.1) placed, ?_⟩
        exact .inside c .linked ⟨holds, Dirs.entries_set_self _ _ _ _⟩ rfl
  | linked =>
      obtain ⟨rfl, rfl⟩ := List.cons.inj next
      obtain ⟨swapped, linked⟩ := holds
      rw [Op.run, linked] at run
      cases run
      have others : ∀ name, swapName name ≠ c.tmp.name := fun name => (c.tmp.ne_swapName name).symm
      refine ⟨(wanted.set others).linked swapped, done ++ [(c.name, c.cfg)], todo, by simp, ?_, .between rfl⟩
      intro entry inside
      rcases List.mem_append.mp inside with before | here
      · refine placed_set (fun entry listed same => ?_) (placed_set (fun entry _ => others entry.1) placed)
          entry before
        exact apart entry listed (swapName_injective same)
      · rw [List.mem_singleton.mp here]
        exact ⟨swapped.2, ⟨c.path, c.size, c.path_eq, c.size_eq, swapped.1⟩, Dirs.entries_set_self _ _ _ _⟩

end Operation

/-! ## Masking -/

theorem AtMask.advance {dirs dirs' : Dirs} {pending pending' : Option UnitFile} {op : Op} {rest : List Op}
    (at' : AtMask dirs (op :: rest)) (run : op.run dirs pending = some (dirs', pending')) :
    AtMask dirs' rest ∧ (dirs.Wanted → dirs'.Wanted) := by
  cases at' with
  | remove =>
      cases run
      exact ⟨.create, fun wanted => wanted.congr (fun _ _ _ => rfl) fun _ => rfl⟩
  | create =>
      cases run
      exact ⟨.symlink, fun wanted => wanted.congr (fun _ _ _ => rfl) fun _ => rfl⟩
  | @symlink tmp =>
      rw [Op.run] at run
      split at run
      case isFalse => cases run
      case isTrue =>
        cases run
        refine ⟨.rename (Dirs.entries_set_self _ _ _ _), fun wanted => wanted.congr (fun _ _ _ => rfl) ?_⟩
        exact fun _ => Dirs.entries_set_of_ne _ _ fun impossible => by cases impossible
  | @rename tmp linked =>
      rw [Op.run, linked] at run
      cases run
      refine ⟨.masked (Dirs.entries_set_self _ _ _ _), fun wanted => wanted.congr (fun _ _ _ => rfl) ?_⟩
      intro name
      have apart : ∀ {file : Text}, Place.wants = .sysctl → swapName name ≠ file := fun impossible => by
        cases impossible
      rw [Dirs.entries_set_of_ne _ _ apart, Dirs.entries_set_of_ne _ _ apart]

/-! ## What others do -/

section Others

variable {dirs after : Dirs}

theorem Dirs.Keeps.swapName (keeps : dirs.Keeps after) (name : Text) :
    after.entries .wants (swapName name) = dirs.entries .wants (swapName name) :=
  keeps.entries .wants _ (Or.inr ⟨name, rfl⟩)

theorem Dirs.Keeps.wanted (keeps : dirs.Keeps after) (wanted : dirs.Wanted) : after.Wanted :=
  wanted.congr keeps.units keeps.swapName

theorem Dirs.Keeps.placed (keeps : dirs.Keeps after) {entry : Text × Cfg} (placed : dirs.Placed entry) :
    after.Placed entry :=
  placed.congr (keeps.units entry.1) (keeps.swapName entry.1)

theorem Dirs.Keeps.serviced (keeps : dirs.Keeps after) {c : Current} (serviced : Spot.Serviced c dirs) :
    Spot.Serviced c after :=
  (keeps.units c.name _ List.mem_cons_self).trans serviced

theorem Dirs.Keeps.swapped (keeps : dirs.Keeps after) {c : Current} (swapped : Spot.Swapped c dirs) :
    Spot.Swapped c after :=
  ⟨keeps.serviced swapped.1,
    (keeps.units c.name _ (List.mem_cons_of_mem _ List.mem_cons_self)).trans swapped.2⟩

theorem Spot.Holds.keeps {c : Current} {spot : Spot} {pending : Option UnitFile}
    (holds : spot.Holds c dirs pending) (keeps : dirs.Keeps after) : spot.Holds c after pending := by
  cases spot with
  | service written rest => exact holds
  | serviced => exact keeps.serviced holds
  | swap written rest => exact ⟨keeps.serviced holds.1, holds.2⟩
  | swapped => exact keeps.swapped holds
  | created => exact keeps.swapped holds
  | linked => exact ⟨keeps.swapped holds.1, (keeps.entries .wants _ (Or.inl ⟨c.tmp, rfl⟩)).trans holds.2⟩

theorem AtEntry.keeps {pending : Option UnitFile} {error : Option Error} {done todo : Table} {ops : List Op}
    (at' : AtEntry dirs pending error done todo ops) (keeps : dirs.Keeps after) :
    AtEntry after pending error done todo ops := by
  cases at' with
  | between same => exact .between same
  | inside c spot holds same => exact .inside c spot (holds.keeps keeps) same

theorem AtMask.keeps {ops : List Op} (at' : AtMask dirs ops) (keeps : dirs.Keeps after) :
    AtMask after ops := by
  cases at' with
  | remove => exact .remove
  | create => exact .create
  | symlink => exact .symlink
  | @rename tmp linked => exact .rename ((keeps.entries .sysctl _ (Or.inl ⟨tmp, rfl⟩)).trans linked)
  | masked linked => exact .masked ((keeps.entries .sysctl _ (Or.inr rfl)).trans linked)

theorem Process.Sound.keeps {p : Process} (sound : p.Sound dirs) (keeps : dirs.Keeps after) :
    p.Sound after where
  disabled outcome := ⟨(sound.disabled outcome).1.keeps keeps, (sound.disabled outcome).2⟩
  failed := sound.failed
  units files error outcome table config := by
    obtain ⟨distinct, done, todo, split, placed, at'⟩ := sound.units files error outcome table config
    exact ⟨distinct, done, todo, split, fun entry inside => keeps.placed (placed entry inside),
      at'.keeps keeps⟩

end Others

/-! ## Steps -/

theorem AtEntry.advance {dirs dirs' : Dirs} {pending pending' : Option UnitFile} {error : Option Error}
    {done todo : Table} {op : Op} {rest : List Op} (at' : AtEntry dirs pending error done todo (op :: rest))
    (wanted : dirs.Wanted) (placed : ∀ entry ∈ done, dirs.Placed entry)
    (distinct : ((done ++ todo).map Prod.fst).Nodup) (run : op.run dirs pending = some (dirs', pending')) :
    Advanced dirs' pending' error (done ++ todo) rest := by
  generalize ops : op :: rest = left at at'
  cases at' with
  | between same => exact same ▸ advanced_between wanted placed ops.symm run
  | @inside c spot draw todo holds same =>
      refine same ▸ advanced_at wanted placed (fun entry listed equal => ?_) holds ops.symm run
      rw [List.map_append, List.map_cons] at distinct
      exact (List.nodup_append.mp distinct).2.2 _ (List.mem_map_of_mem listed) _ List.mem_cons_self equal

theorem exists_table {m : Machine} {files : List UnitFile} {error : Option Error}
    (outcome : generator m = .units files error) : ∃ table, readConfig m = .ok table := by
  cases config : readConfig m with
  | ok table => exact ⟨table, rfl⟩
  | error e =>
      rw [generator] at outcome
      split at outcome
      · cases outcome
      · split at outcome
        · cases outcome
        · split at outcome
          · cases outcome
          · split at outcome
            · cases outcome
            · rw [config] at outcome
              cases outcome

/-- One operation of a process. -/
theorem System.Sound.op {s : System} {p : Process} {op : Op} {rest : List Op} {dirs : Dirs}
    {pending : Option UnitFile} (sound : s.Sound) (running : s.process = some p) (next : p.ops = op :: rest)
    (done : op.run s.dirs p.pending = some (dirs, pending)) :
    System.Sound ⟨dirs, some { p with ops := rest, pending }⟩ := by
  have before := sound.process p running
  cases outcome : generator p.machine with
  | failed e =>
      have nothing := (before.failed e outcome).1
      rw [next] at nothing
      cases nothing
  | disabled =>
      obtain ⟨at', noError⟩ := before.disabled outcome
      obtain ⟨later, wanted⟩ := (next ▸ at').advance done
      refine ⟨wanted sound.wanted, fun p' same => ?_⟩
      cases same
      exact {
        disabled := fun _ => ⟨later, noError⟩
        failed := fun e other => by cases outcome.symm.trans other
        units := fun _ _ other => by cases outcome.symm.trans other }
  | units files error =>
      obtain ⟨table, config⟩ := exists_table outcome
      obtain ⟨distinct, finished, todo, rfl, placed, at'⟩ := before.units _ _ outcome table config
      obtain ⟨wanted, progress⟩ := (next ▸ at').advance sound.wanted placed distinct done
      refine ⟨wanted, fun p' same => ?_⟩
      cases same
      exact {
        disabled := fun other => by cases outcome.symm.trans other
        failed := fun e other => by cases outcome.symm.trans other
        units := fun _ _ _ table' config' => by
          cases config.symm.trans config'
          exact ⟨distinct, progress⟩ }

/-- A process that has just started. -/
theorem sound_generatorOps (dirs : Dirs) (m : Machine) (draw : Nat → Tmp)
    (distinct : ∀ table, readConfig m = .ok table → (table.map Prod.fst).Nodup) :
    Process.Sound dirs ⟨m, (generatorOps m draw).1, (generatorOps m draw).2, none⟩ where
  disabled outcome := by
    have outcome : generator m = .disabled := outcome
    have same : generatorOps m draw = (disableSysctl (draw 0), none) := by rw [generatorOps, outcome]
    exact ⟨congrArg Prod.fst same ▸ .remove, congrArg Prod.snd same⟩
  failed e outcome := by
    have outcome : generator m = .failed e := outcome
    have same : generatorOps m draw = ([], some e) := by rw [generatorOps, outcome]
    exact ⟨congrArg Prod.fst same, congrArg Prod.snd same⟩
  units files error outcome table config := by
    have outcome : generator m = .units files error := outcome
    have config : readConfig m = .ok table := config
    refine ⟨distinct table config, [], table, rfl, fun _ impossible => absurd impossible List.not_mem_nil, ?_⟩
    simp only [generatorOps, outcome, config]
    exact .between rfl

theorem Step.sound {s s' : System} {a : Action} (step : Step s a s') (sound : s.Sound) : s'.Sound := by
  cases step with
  | @start m draw idle distinct =>
      refine ⟨sound.wanted, fun p same => ?_⟩
      cases same
      exact sound_generatorOps s.dirs m draw distinct
  | op running next done => exact sound.op running next done
  | stop running => exact ⟨sound.wanted, fun _ impossible => by cases impossible⟩
  | finish running done => exact ⟨sound.wanted, fun _ impossible => by cases impossible⟩
  | others keeps => exact ⟨keeps.wanted sound.wanted, fun p running => (sound.process p running).keeps keeps⟩
  | flush idle noUnits noLinks =>
      refine ⟨fun name entry found => ?_, fun p running => ?_⟩
      · cases (noLinks _).symm.trans found
      · cases idle.symm.trans running

/-! ## Histories -/

theorem AtEntry.stopsBehind {dirs : Dirs} {pending : Option UnitFile} {error : Option Error}
    {done todo : Table} (at' : AtEntry dirs pending error done todo [])
    (placed : ∀ entry ∈ done, dirs.Placed entry) : StopsBehind (done ++ todo) done error := by
  have taken : ∀ entry ∈ done, Taken entry := by
    intro entry inside
    obtain ⟨path, size, path_eq, size_eq, _⟩ := (placed entry inside).service
    refine ⟨[serviceUnit entry.1 path size, swapUnit entry.1], ?_⟩
    rw [writeUnits, path_eq, size_eq]
    rfl
  generalize ops : ([] : List Op) = left at at'
  cases at' with
  | @inside c spot draw todo holds same => cases spot <;> simp [Spot.ops, linkOps, forceSymlink, unitOps] at ops
  | @between draw todo same =>
      refine ⟨taken, ?_⟩
      cases todo with
      | nil => exact Or.inl ⟨List.append_nil _, same.symm⟩
      | cons entry todo =>
          obtain ⟨name, cfg⟩ := entry
          cases refused : writeUnits name cfg with
          | error e =>
              rw [tableOps, refused] at same
              exact Or.inr ⟨name, cfg, todo, e, rfl, refused, same.symm⟩
          | ok units =>
              obtain ⟨c, rfl, rfl, tmp, rfl⟩ := exists_current (draw 0) refused
              rw [tableOps_cons tmp.symm] at ops
              cases ops

/--
Whatever fails or is killed, and whatever others do at other names, a swap unit
is wanted only when it and its service are there as a whole, if at first none
was wanted.  A generator that gets to its end has placed the entries up to the
first that is refused, or has masked the sysctl configuration.
-/
theorem wanted_units_complete {dirs : Dirs} (fresh : ∀ name, dirs.entries .wants (swapName name) = none)
    {actions : List Action} {s : System} (run : Run Step ⟨dirs, none⟩ actions s) :
    s.dirs.Wanted ∧ ∀ p, s.process = some p → p.ops = [] →
      (generator p.machine = .disabled → s.dirs.entries .sysctl mask = some (.link devNull)) ∧
      ∀ files error, generator p.machine = .units files error → ∀ table, readConfig p.machine = .ok table →
        ∃ taken, StopsBehind table taken p.error ∧ ∀ entry ∈ taken, s.dirs.Placed entry := by
  have start : System.Sound ⟨dirs, none⟩ := by
    refine ⟨fun name entry found => ?_, fun _ impossible => by cases impossible⟩
    cases (fresh name).symm.trans found
  have sound : s.Sound := run.invariant (I := fun _ s => s.Sound) start fun _ _ _ _ sound step => step.sound sound
  refine ⟨sound.wanted, fun p running ended => ⟨fun outcome => ?_, fun files error outcome table config => ?_⟩⟩
  · have at' := ((sound.process p running).disabled outcome).1
    rw [ended] at at'
    cases at' with
    | masked linked => exact linked
  · obtain ⟨_, done, todo, rfl, placed, at'⟩ :=
      (sound.process p running).units files error outcome table config
    rw [ended] at at'
    exact ⟨done, at'.stopsBehind placed, placed⟩

/-! ## Two swap files -/

def runOps (ops : List Op) (state : Dirs × Option UnitFile) : Option (Dirs × Option UnitFile) :=
  ops.foldlM (fun state op => Op.run state.1 state.2 op) state

/-- A process that nothing disturbs does one operation after the other. -/
theorem run_ops {dirs dirs' : Dirs} {pending pending' : Option UnitFile} {actions : List Action} {s : System}
    {m : Machine} {error : Option Error} {rest : List Op} (ops : List Op)
    (before : Run Step s actions ⟨dirs, some ⟨m, ops ++ rest, error, pending⟩⟩)
    (done : runOps ops (dirs, pending) = some (dirs', pending')) :
    Run Step s (actions ++ List.replicate ops.length .op) ⟨dirs', some ⟨m, rest, error, pending'⟩⟩ := by
  induction ops generalizing dirs pending actions with
  | nil =>
      cases done
      rw [List.length_nil, List.replicate_zero, List.append_nil]
      exact before
  | cons op ops ih =>
      rw [runOps, List.foldlM_cons, Option.bind_eq_bind, Option.bind_eq_some_iff] at done
      obtain ⟨⟨middle, written⟩, first, later⟩ := done
      rw [List.length_cons, List.replicate_succ, List.append_cons]
      have step := Step.op (s := ⟨dirs, some ⟨m, op :: ops ++ rest, error, pending⟩⟩) rfl rfl first
      exact ih (before.snoc step) later

def noDirs : Dirs := ⟨fun _ => none, fun _ => false, fun _ _ => none⟩

def eightLetters : Tmp where
  name := List.replicate 8 'a'
  length := rfl
  alphanum := by
    intro c inside
    rw [List.eq_of_mem_replicate inside]
    rfl

theorem twoEntries_wanted : ∃ actions s, Run Step ⟨noDirs, none⟩ actions s ∧ s.dirs.Wanted ∧
    ∃ p taken, s.process = some p ∧ p.ops = [] ∧ StopsBehind twoEntries taken p.error ∧
      ∀ entry ∈ taken, s.dirs.Placed entry := by
  have evaluated : (runOps (tableOps (fun _ => eightLetters) twoEntries).1 (noDirs, none)).isSome = true := by
    decide +kernel
  obtain ⟨⟨dirs, pending⟩, done⟩ := Option.isSome_iff_exists.mp evaluated
  have started : Run Step ⟨noDirs, none⟩ [.start (machineWith twoEntries) fun _ => eightLetters]
      ⟨noDirs, some ⟨machineWith twoEntries, (tableOps (fun _ => eightLetters) twoEntries).1 ++ [], none, none⟩⟩ := by
    rw [List.append_nil]
    refine .snoc .nil (.start rfl fun table config => ?_)
    cases config
    decide
  have run := run_ops _ started done
  obtain ⟨wanted, ended⟩ := wanted_units_complete (fun _ => rfl) run
  obtain ⟨taken, stops, placed⟩ := (ended _ rfl rfl).2 _ _ rfl twoEntries rfl
  exact ⟨_, _, run, wanted, _, taken, rfl, rfl, stops, placed⟩

end GnomeBuildMeta.Zswap
