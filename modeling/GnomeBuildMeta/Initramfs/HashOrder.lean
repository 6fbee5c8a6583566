import GnomeBuildMeta.Initramfs.ParentsFirst
import GnomeBuildMeta.Initramfs.UnitDependencies

/-!
# The order of Python's sets

Python goes through its sets in an order that is another one in every process.  A
run for one path succeeds exactly if all that it walks over can be analysed and
read, and then it brings the copies of that and nothing else.  So the orders show
neither in whether a run succeeds nor in the target root that it leaves.
-/

namespace GnomeBuildMeta.Initramfs

open GnomeBuildMeta.Control GnomeBuildMeta.Posix

/-! ## Other orders -/

/-- Both raise the same, or both report the same paths, perhaps in another order. -/
def SameReports {ε α : Type} : Except ε (List α) → Except ε (List α) → Prop
  | .ok deps, .ok deps' => ∀ d, d ∈ deps ↔ d ∈ deps'
  | .error e, .error e' => e = e'
  | _, _ => False

namespace SameReports

variable {ε α : Type} {one two : Except ε (List α)}

theorem refl (one : Except ε (List α)) : SameReports one one := by
  cases one with
  | ok deps => exact fun _ => Iff.rfl
  | error e => rfl

theorem symm (same : SameReports one two) : SameReports two one := by
  cases one with
  | ok deps =>
      cases two with
      | ok deps' => exact fun d => (same d).symm
      | error e => exact same.elim
  | error e =>
      cases two with
      | ok deps' => exact same.elim
      | error e' => exact Eq.symm same

theorem of_ok {deps : List α} (same : SameReports (.ok deps) two) :
    ∃ deps', two = .ok deps' ∧ ∀ d, d ∈ deps ↔ d ∈ deps' := by
  cases two with
  | ok deps' => exact ⟨deps', rfl, same⟩
  | error e => exact same.elim

theorem bind {β : Type} (x : Except ε β) {f g : β → Except ε (List α)}
    (each : ∀ b, SameReports (f b) (g b)) : SameReports (x >>= f) (x >>= g) := by
  cases x with
  | ok b => exact each b
  | error e => rfl

theorem map {β : Type} (f : α → β) (same : SameReports one two) :
    SameReports (one.map fun deps => deps.map f) (two.map fun deps => deps.map f) := by
  cases one with
  | ok deps =>
      obtain ⟨deps', rfl, members⟩ := same.of_ok
      intro d
      simp only [List.mem_map, members]
  | error e =>
      cases two with
      | ok deps' => exact same.elim
      | error e' => exact same

theorem mapError {ε' : Type} (f : ε → ε') (same : SameReports one two) :
    SameReports (one.mapError f) (two.mapError f) := by
  cases one with
  | ok deps =>
      obtain ⟨deps', rfl, members⟩ := same.of_ok
      exact members
  | error e =>
      cases two with
      | ok deps' => exact same.elim
      | error e' => exact congrArg f same

end SameReports

/-- A unit names its dependencies in the order of a set. -/
theorem getDependenciesSystemd_sameReports (resolver : UnitResolver) (set set' : SetOrder)
    (content : Chars) :
    SameReports (getDependenciesSystemd resolver set content)
      (getDependenciesSystemd resolver set' content) := by
  have units : ∀ names name, name ∈ set.order names ↔ name ∈ set'.order names := by
    intro names name
    rw [(set.perm names).mem_iff, (set'.perm names).mem_iff]
  refine .bind _ fun conf => .bind _ fun names => .bind _ fun exes => ?_
  intro path
  simp only [List.mem_append, List.mem_map, List.mem_filter, units]

/-- The same host and user in a process with other orders. -/
structure Env.Alike (env env' : Env) : Prop where
  host : env'.host = env.host
  uid : env'.uid = env.uid
  gid : env'.gid = env.gid
  reports : ∀ t, SameReports (env.fileDependencies t) (env'.fileDependencies t)

namespace Env.Alike

variable {env env' : Env} {root root' : FileSystem String} {source t d : Text}

theorem refl (env : Env) : env.Alike env := ⟨rfl, rfl, rfl, fun _ => .refl _⟩

theorem symm (alike : env.Alike env') : env'.Alike env where
  host := alike.host.symm
  uid := alike.uid.symm
  gid := alike.gid.symm
  reports t := (alike.reports t).symm

theorem trans {env'' : Env} (one : env.Alike env') (two : env'.Alike env'') : env.Alike env'' where
  host := two.host.trans one.host
  uid := two.uid.trans one.uid
  gid := two.gid.trans one.gid
  reports t := by
    have first := one.reports t
    have second := two.reports t
    cases reported : env.fileDependencies t with
    | ok deps =>
        rw [reported] at first
        obtain ⟨deps', same, members⟩ := first.of_ok
        rw [same] at second
        obtain ⟨deps'', same', members'⟩ := second.of_ok
        rw [same']
        exact fun d => (members d).trans (members' d)
    | error e =>
        rw [reported] at first
        cases same : env'.fileDependencies t with
        | ok deps =>
            rw [same] at first
            exact first.elim
        | error e' =>
            rw [same] at first second
            cases first
            exact second

theorem getDependencies (alike : env.Alike env') (t : Text) :
    SameReports (Initramfs.getDependencies env t) (Initramfs.getDependencies env' t) := by
  rw [Initramfs.getDependencies, Initramfs.getDependencies, alike.host]
  split
  · exact .refl _
  · split
    · exact .refl _
    · exact alike.reports t

theorem dep (alike : env.Alike env') (needs : Dep env t d) : Dep env' t d := by
  obtain ⟨deps, reported, inside⟩ := needs
  have same := alike.getDependencies t
  rw [reported] at same
  obtain ⟨deps', reported', members⟩ := same.of_ok
  exact ⟨deps', reported', inside.imp_left (members d).mp⟩

theorem copyOf (alike : env.Alike env') (node : Node String) : env'.copyOf node = env.copyOf node := by
  cases node with
  | file stat data => simp [Env.copyOf, alike.uid, alike.gid]
  | dir _ | symlink _ | chardev _ _ => rfl

theorem visited (alike : env.Alike env')
    (same : ∀ t, isAlreadyCopied env.host root' t = isAlreadyCopied env.host root t)
    (visited : Visited env root source t) : Visited env' root' source t := by
  have fresh : ∀ t, Fresh env root t → Fresh env' root' t := by
    intro t fresh
    rw [Fresh, alike.host, same]
    exact fresh
  induction visited with
  | start new => exact .start (fresh _ new)
  | dep _ needs new ih => exact .dep ih (alike.dep needs) (fresh _ new)

end Env.Alike

/-! ## Building the graph -/

variable {env : Env} {root root' : FileSystem String} {source t : Text}

/-- The loop raises only what the analysis of a path that it walks over raises. -/
theorem Built.buildGraph_error {g : Graph} {queue : Queue} (built : Built env root source g queue)
    {fuel : Nat} {e : Halt} (failed : Initramfs.buildGraph env root fuel g queue = .error e) :
    e = .outOfFuel ∨ ∃ t, Visited env root source t ∧ getDependencies env t = .error e := by
  induction fuel generalizing g queue with
  | zero =>
      cases queue with
      | nil => cases failed
      | cons _ rest =>
          cases failed
          exact Or.inl rfl
  | succ fuel ih =>
      cases queue with
      | nil => cases failed
      | cons entry rest =>
          obtain ⟨x, rfl, asked⟩ := built.queued entry List.mem_cons_self
          rw [Initramfs.buildGraph] at failed
          cases round : Initramfs.expand env root g x x rest with
          | ok next =>
              rw [round] at failed
              exact ih (built.expand round) failed
          | error e' =>
              rw [round] at failed
              cases failed
              have cases' := expanded env root g x x rest
              rw [round] at cases'
              cases cases' with
              | raised new _ present raises =>
                  exact Or.inr ⟨x, built.visited asked ⟨new, present⟩, raises⟩

/-- A graph that is built has the analysis of all that the loop walks over. -/
theorem Built.analysed {g : Graph} (built : Built env root source g [])
    (visited : Visited env root source t) : ∃ deps, getDependencies env t = .ok deps := by
  obtain ⟨_, _, ⟨deps, reported, _⟩, _⟩ := built.sources t _ ((built.sourceOf_iff t).mpr visited)
  exact ⟨deps, reported⟩

/-! ## Copies that fail -/

/-- In a directory every entry can be copied that can be read. -/
theorem copy_succeeds {node : Node String} (found : env.host.lstat t = some node)
    (readable : ∀ major minor, node ≠ .chardev major minor)
    (parent : root.isDirAt (reallinkpath env.host t).tail = true) :
    ∃ root', copy env (some t) t root = .ok root' := by
  rw [copy]
  generalize reallinkpath env.host t = p at parent ⊢
  cases p with
  | nil =>
      have top : root.lexists (textOf []) = true :=
        lexists_of_empties fun _ impossible => (List.not_mem_nil impossible).elim
      exact ⟨root, if_pos top⟩
  | cons n p =>
      have isDir : root.isDirAt p = true := parent
      rw [root.lexists_textOf (FileSystem.plain_cons_of_isDirAt isDir)]
      split
      · exact ⟨root, rfl⟩
      · rename_i free
        rw [Option.not_isSome_iff_eq_none] at free
        have makes : ∀ entry, root.create (textOf (n :: p)) entry = .ok (root.insert n p entry isDir free) :=
          fun entry => root.create_ok entry isDir free
        cases node with
        | symlink link =>
            simp only [FileSystem.readlink, found, Option.bind_some, Node.target]
            exact ⟨_, ofErrno_ok_iff.mpr (makes _)⟩
        | dir perm =>
            have stat : env.host.stat t = some (.dir perm) := FileSystem.stat_of_lstat found rfl
            have there : (root.insert n p (.dir 0o755) isDir free).get (n :: p) = some (.dir 0o755) :=
              (root.get_insert isDir free (n :: p)).trans (if_pos rfl)
            simp only [FileSystem.readlink, found, Option.bind_some, Node.target, FileSystem.isdir, stat,
              Option.any_some, Node.isDir, ↓reduceIte]
            have second : copystat env (root.insert n p (.dir 0o755) isDir free) t (textOf (n :: p)) =
                .ok ((root.insert n p (.dir 0o755) isDir free).chmodAt (n :: p) perm) := by
              rw [copystat, stat]
              exact ofErrno_ok_iff.mpr (FileSystem.chmod_dir _ perm there)
            exact ⟨_, bind_ok_iff.mpr ⟨_, ofErrno_ok_iff.mpr (makes _), second⟩⟩
        | file stat data =>
            have there : env.host.stat t = some (.file stat data) := FileSystem.stat_of_lstat found rfl
            simp only [FileSystem.readlink, found, Option.bind_some, Node.target, FileSystem.isdir, there,
              Option.any_some, Node.isDir, Bool.false_eq_true, ↓reduceIte, copy2]
            exact ⟨_, ofErrno_ok_iff.mpr (root.writeFile_new _ data isDir free)⟩
        | chardev major minor => exact absurd rfl (readable major minor)

/-- A device is copied only where its place is taken. -/
theorem taken_of_device {major minor : Nat} (found : env.host.lstat t = some (.chardev major minor))
    (done : copy env (some t) t root = .ok root') : root' = root := by
  have stat : env.host.stat t = some (.chardev major minor) := FileSystem.stat_of_lstat found rfl
  rw [copy] at done
  split at done
  · cases done
    rfl
  · simp only [FileSystem.readlink, found, Option.bind_some, Node.target, FileSystem.isdir, stat,
      Option.any_some, Node.isDir, Bool.false_eq_true, ↓reduceIte, copy2, reduceCtorEq] at done

/-- How a call of `process` that raises has come to an end. -/
def Stopped (env : Env) (g : Graph) (result : Except Halt Unit) (p : Progress) : Prop :=
  ∀ e, result = .error e → e = .outOfFuel ∨ ∃ call ∈ p.calls, ∃ src, g.sourceOf call.1 = some src ∧
    ∀ root', copy env src call.1 call.2 ≠ .ok root'

/-- It is a call of `copy` that raises. -/
theorem processScript_stopped (env : Env) (g : Graph) (fuel : Nat) (t : Text) :
    Program.Ensures (fun _ => True) (processScript env g fuel t) (Stopped env g) := by
  induction fuel generalizing t with
  | zero =>
      intro p _ e failed
      cases failed
      exact Or.inl rfl
  | succ fuel ih =>
      intro p _
      by_cases seen : t ∈ p.processed
      · rw [processScript_of_seen seen]
        intro e impossible
        cases impossible
      · cases found : g.sourceOf t with
        | none =>
            rw [processScript_of_noSource seen found]
            intro e impossible
            cases impossible
        | some src =>
            rw [processScript_of_source seen found]
            have loop : Program.Ensures (fun _ => True)
                ((env.order t ((g.dependencies t).getD [])).forM (processScript env g fuel))
                (Stopped env g) :=
              Program.Ensures.forM (fun _ _ e impossible => by cases impossible) fun d _ s _ =>
                ⟨fun _ => trivial, fun e failed => by
                  rw [← failed]
                  exact ih d s trivial⟩
            have whole : Program.Ensures (fun _ => True) (visitScript env g fuel src t) (Stopped env g) := by
              refine Program.Ensures.bind (fun _ _ => True)
                (loop.cases (fun _ _ _ => trivial) fun _ _ stopped => stopped) fun _ =>
                  Program.Ensures.bind (fun _ s => ∃ root, (t, root) ∈ s.calls ∧ root = s.root)
                    (fun s _ => ⟨s.root, by simp [Program.update, Progress.call], rfl⟩) fun _ s last => ?_
              obtain ⟨root, called, same⟩ := last
              intro e failed
              have keeps : Program.Keeps (fun s => (t, root) ∈ s.calls) (copyScript env src t) :=
                copyScript_keeps (fun _ _ before => before) src t
              refine Or.inr ⟨(t, root), keeps s called, src, found, fun root' copied => ?_⟩
              rw [copyScript_ok_iff.mpr ⟨root', same ▸ copied, rfl⟩] at failed
              cases failed
            exact whole (p.mark t) trivial

/-! ## One run -/

/-- It can be analysed, and it is nothing that only a driver can read. -/
def Copyable (env : Env) (t : Text) : Prop :=
  (∃ deps, getDependencies env t = .ok deps) ∧
    ∀ major minor, env.host.lstat t ≠ some (.chardev major minor)

/-- The copies of all that the run walks over are there, and nothing else has changed. -/
def Brings (env : Env) (root : FileSystem String) (source : Text) (root' : FileSystem String) : Prop :=
  ∀ q node, root'.get q = some node ↔ root.get q = some node ∨
    (root.get q = none ∧ ∃ t original, Visited env root source t ∧ reallinkpath env.host t = q ∧
      env.host.get q = some original ∧ node = env.copyOf original)

theorem Brings.unique {root'' : FileSystem String} (one : Brings env root source root')
    (two : Brings env root source root'') (q : Path String) : root''.get q = root'.get q :=
  Option.ext fun node => (two q node).trans (one q node).symm

theorem Copied.brings {copied : List Text} (after : Copied env root root' copied)
    (visited' : ∀ t, t ∈ copied ↔ Visited env root source t) : Brings env root source root' := by
  have notTop : ∀ q, root.get q = none → q ≠ [] := by
    rintro q free rfl
    obtain ⟨perm, top⟩ := root.get_root
    rw [top] at free
    cases free
  have copyAt : ∀ q node, root.get q = none → root'.get q = some node →
      ∃ original, env.host.get q = some original ∧ node = env.copyOf original :=
    fun q node free found => (after.mirrors q node found).resolve_left (notTop q free)
  intro q node
  constructor
  · intro found
    cases before : root.get q with
    | some old =>
        rw [after.kept q old before] at found
        exact Or.inl found
    | none =>
        obtain ⟨original, there, same⟩ := copyAt q node before found
        rcases after.new q (Option.isSome_of_eq_some found) with old | ⟨t, member, location⟩
        · rw [before] at old
          cases old
        · exact Or.inr ⟨rfl, t, original, (visited' t).mp member, location.symm, there, same⟩
  · rintro (old | ⟨free, t, original, visited, location, there, same⟩)
    · exact after.kept q node old
    · obtain ⟨copy, found⟩ :=
        Option.isSome_iff_exists.mp (after.present t ((visited' t).mpr visited))
      rw [location] at found
      obtain ⟨original', there', rfl⟩ := copyAt q copy free found
      cases there.symm.trans there'
      rw [found, same]

theorem main_of_script {fuel : Nat} {dest : Text} {p : Progress}
    (done : mainScript env fuel source dest ⟨[], root, []⟩ = (.ok (), p)) :
    main env fuel source dest root = .ok p.copying := by
  have whole : mainScript env fuel source dest ⟨[], root, []⟩ =
      (Program.outside (buildGraph env root fuel .empty [(source, dest)]) >>= fun g =>
        processScript env g fuel dest) ⟨[], root, []⟩ := rfl
  rw [whole] at done
  obtain ⟨g, middle, looped, copying⟩ := Program.bind_ok_iff.mp done
  obtain ⟨building, rfl⟩ := Program.outside_ok_iff.mp looped
  exact bind_ok_iff.mpr ⟨g, building, process_of_script copying⟩

/-- A run without errors has come over no device. -/
theorem readable_of_main {fuel : Nat} {c : Copying} (mirrors : Mirrors env root)
    (done : main env fuel source source root = .ok c) (visited : Visited env root source t)
    (major minor : Nat) : env.host.lstat t ≠ some (.chardev major minor) := by
  intro device
  obtain ⟨spec, visited', _⟩ := main_spec mirrors done
  obtain ⟨g, building, copying⟩ := bind_ok_iff.mp done
  have built := (Built.start source).buildGraph building
  -- no copy makes a device
  have state := process_invariant
    (I := fun root' copied => Copied env root root' copied ∧ ∀ q major minor,
      root'.get q = some (.chardev major minor) → root.get q = some (.chardev major minor))
    (fun root' copied u src root'' before sourceOf one => by
      obtain ⟨rfl, walked, _⟩ := built.sources u src sourceOf
      obtain ⟨node, found⟩ := Option.isSome_iff_exists.mp walked.fresh.2
      refine ⟨before.1.copy walked.fresh.2 one, fun q major minor there => ?_⟩
      rcases copy_cases before.1.mirrors found one with ⟨rfl, _⟩ | ⟨free, same⟩
      · exact before.2 q major minor there
      · rw [same] at there
        split at there
        · obtain rfl : node = .chardev major minor := by
            cases node <;> simp_all [Env.copyOf]
          have unchanged := same (reallinkpath env.host u)
          rw [taken_of_device found one, free, if_pos rfl] at unchanged
          cases unchanged
        · exact before.2 q major minor there)
    ⟨.start mirrors, fun _ _ _ same => same⟩ copying
  have onHost := get_reallinkpath device
  obtain ⟨copy, found⟩ := Option.isSome_iff_exists.mp (spec.present t ((visited' t).mpr visited))
  rcases spec.mirrors _ copy found with top | ⟨original, there, rfl⟩
  · obtain ⟨perm, root'⟩ := env.host.get_root
    rw [top, root'] at onHost
    cases onHost
  · cases onHost.symm.trans there
    have before := state.2 _ major minor found
    have fresh := visited.fresh.1
    rw [isAlreadyCopied, root.lexists_textOf (mirrors.plain onHost), before] at fresh
    cases fresh

/-- With enough fuel a run raises nothing if all that it walks over can be copied. -/
theorem mainScript_succeeds (plain : LinksPlain env.host) (ready : Ready env.host root)
    (byLocation : env.ByLocation) (absolute : isabs source = true)
    (copyable : ∀ t, Visited env root source t → Copyable env t) :
    ∃ fuel p, mainScript env fuel source source ⟨[], root, []⟩ = (.ok (), p) := by
  obtain ⟨space, inside, closed⟩ := exists_closed_space byLocation source
  have queued : ∀ e ∈ [(source, source)], e.2 ∈ space := by
    intro e member
    rw [List.mem_singleton.mp member]
    exact inside
  have graph : GraphEnds env root .empty [(source, source)] :=
    graphEnds byLocation closed .empty [(source, source)] queued
  obtain ⟨enough, result, known, ends⟩ := graph
  cases result with
  | error e =>
      rcases (Built.start source).buildGraph_error (ends enough (Nat.le_refl _)) with rfl | ⟨t, visited, raises⟩
      · exact absurd rfl known
      · obtain ⟨deps, reported⟩ := (copyable t visited).1
        rw [reported] at raises
        cases raises
  | ok g =>
      have built := (Built.start source).buildGraph (ends enough (Nat.le_refl _))
      have within : g.Within space :=
        buildGraph_within closed queued (fun _ impossible => by cases impossible) (ends enough (Nat.le_refl _))
      obtain ⟨fuel, bound, room⟩ : ∃ fuel, enough ≤ fuel ∧ Room space ⟨[], root, []⟩ < fuel :=
        ⟨enough + Room space ⟨[], root, []⟩ + 1, by omega, by omega⟩
      have whole : mainScript env fuel source source ⟨[], root, []⟩ =
          processScript env g fuel source ⟨[], root, []⟩ := by
        change (Program.outside (buildGraph env root fuel .empty [(source, source)]) >>= fun g =>
          processScript env g fuel source) ⟨[], root, []⟩ = _
        rw [ends fuel bound]
        rfl
      have ended : Ended (processScript env g fuel source ⟨[], root, []⟩).1 :=
        (processScript_ends within room).1
      have stopped := processScript_stopped env g fuel source ⟨[], root, []⟩ trivial
      cases run : processScript env g fuel source ⟨[], root, []⟩ with
      | mk result p =>
          rw [run] at ended stopped
          cases result with
          | ok _ => exact ⟨fuel, p, whole.trans run⟩
          | error e =>
              exfalso
              have fits : Request.Fits ⟨source, source, absolute, absolute⟩ env.host root :=
                fun differ => absurd rfl differ
              have safe := (mainScript_safe plain ready fits (whole.trans run)).1
              rcases stopped e rfl with rfl | ⟨⟨t, before⟩, member, src, sourceOf, fails⟩
              · exact ended rfl
              · obtain ⟨rfl, visited, _⟩ := built.sources t src sourceOf
                obtain ⟨node, found⟩ := Option.isSome_iff_exists.mp visited.fresh.2
                obtain ⟨root', done⟩ := copy_succeeds found
                  (fun major minor same => (copyable t visited).2 major minor (same ▸ found))
                  (safe _ member)
                exact fails root' done

/-- A run for one path raises nothing exactly if all that it walks over can be copied. -/
theorem mainScript_ok_iff (plain : LinksPlain env.host) (ready : Ready env.host root)
    (mirrors : Mirrors env root) (byLocation : env.ByLocation) (absolute : isabs source = true) :
    (∃ fuel p, mainScript env fuel source source ⟨[], root, []⟩ = (.ok (), p)) ↔
      ∀ t, Visited env root source t → Copyable env t := by
  refine ⟨?_, mainScript_succeeds plain ready byLocation absolute⟩
  rintro ⟨fuel, p, done⟩ t visited
  have run := main_of_script done
  obtain ⟨g, building, _⟩ := bind_ok_iff.mp run
  exact ⟨((Built.start source).buildGraph building).analysed visited, readable_of_main mirrors run visited⟩

/-! ## All runs -/

/-- What the target root is between the runs. -/
structure Kept (env : Env) (root : FileSystem String) : Prop where
  ready : Ready env.host root
  mirrors : Mirrors env root

/-- A run for one path that raises nothing, in a process with an order of its own. -/
def RunIn (env : Env) (root : FileSystem String) (source : Text) (root' : FileSystem String) : Prop :=
  isabs source = true ∧ ∃ env' fuel p, env.Alike env' ∧
    mainScript env' fuel source source ⟨[], root, []⟩ = (.ok (), p) ∧ p.root = root'

namespace Env.Alike

variable {env' : Env}

theorem mirrors (alike : env.Alike env') (mirrors : Mirrors env root) : Mirrors env' root := by
  intro q node found
  refine (mirrors q node found).imp_right fun ⟨original, there, same⟩ => ⟨original, ?_, ?_⟩
  · rw [alike.host]
    exact there
  · rw [alike.copyOf]
    exact same

theorem copyable (alike : env.Alike env') (copyable : Copyable env t) : Copyable env' t := by
  obtain ⟨⟨deps, reported⟩, readable⟩ := copyable
  have same := alike.getDependencies t
  rw [reported] at same
  obtain ⟨deps', reported', _⟩ := same.of_ok
  exact ⟨⟨deps', reported'⟩, alike.host.symm ▸ readable⟩

theorem brings (alike : env.Alike env') (brings : Brings env' root source root') :
    Brings env root source root' := by
  intro q node
  rw [brings q node]
  refine or_congr_right (and_congr_right fun _ => exists_congr fun t => exists_congr fun original => ?_)
  have visited : Visited env' root source t ↔ Visited env root source t :=
    ⟨alike.symm.visited fun t => by rw [alike.host], alike.visited fun t => rfl⟩
  rw [visited, alike.host, alike.copyOf]

end Env.Alike

theorem RunIn.outcome (plain : LinksPlain env.host) (kept : Kept env root)
    (run : RunIn env root source root') : Kept env root' ∧ Brings env root source root' := by
  obtain ⟨absolute, env', fuel, p, alike, done, rfl⟩ := run
  have plain' : LinksPlain env'.host := alike.host.symm ▸ plain
  have ready' : Ready env'.host root := alike.host.symm ▸ kept.ready
  have mirrors' := alike.mirrors kept.mirrors
  obtain ⟨after, visited', _⟩ := main_spec mirrors' (main_of_script done)
  refine ⟨⟨?_, alike.symm.mirrors after.mirrors⟩, alike.brings (after.brings visited')⟩
  rw [← alike.host]
  have fits : Request.Fits ⟨source, source, absolute, absolute⟩ env'.host root :=
    fun differ => absurd rfl differ
  exact (mainScript_safe plain' ready' fits done).2 rfl

theorem kept_of_run (plain : LinksPlain env.host) {perm : Nat} {sources : List Text}
    (run : Run (RunIn env) (.bare perm) sources root) : Kept env root :=
  run.invariant (I := fun _ root => Kept env root) ⟨.bare _ perm, .bare perm⟩
    fun _ _ _ _ kept one => (one.outcome plain kept).1

/-- What is there decides what a run walks over. -/
theorem isAlreadyCopied_congr (same : ∀ q, root'.get q = root.get q) (t : Text) :
    isAlreadyCopied env.host root' t = isAlreadyCopied env.host root t := by
  have tree : root'.get = root.get := funext same
  rw [isAlreadyCopied, isAlreadyCopied, FileSystem.lexists, FileSystem.lexists, FileSystem.lstat,
    FileSystem.lstat, FileSystem.locate, FileSystem.locate, tree]

theorem Brings.congr {start start' : FileSystem String} (same : ∀ q, start'.get q = start.get q)
    (brings : Brings env start' source root') : Brings env start source root' := by
  intro q node
  have visited : ∀ t, Visited env start' source t ↔ Visited env start source t := fun t =>
    ⟨(Env.Alike.refl env).visited fun t => (isAlreadyCopied_congr same t).symm,
      (Env.Alike.refl env).visited (isAlreadyCopied_congr same)⟩
  rw [brings q node, same q]
  simp only [visited]

/-- By induction on the runs, which bring the same each time. -/
theorem runs_same (plain : LinksPlain env.host) {perm : Nat} {sources : List Text}
    (one : Run (RunIn env) (.bare perm) sources root) (other : Run (RunIn env) (.bare perm) sources root')
    (q : Path String) : root'.get q = root.get q := by
  induction one generalizing root' q with
  | nil =>
      rw [Run.nil_iff.mp other]
  | @snoc sources before source after earlier last ih =>
      obtain ⟨before', earlier', last'⟩ := Run.snoc_iff.mp other
      have brings := (last.outcome plain (kept_of_run plain earlier)).2
      have brings' := (last'.outcome plain (kept_of_run plain earlier')).2
      exact brings.unique (brings'.congr fun q => ih earlier' q) q

/-- After earlier runs, the next one brings exactly what it walks over, unless that cannot be copied. -/
theorem run_outcome (plain : LinksPlain env.host) {perm : Nat} {sources : List Text}
    (earlier : Run (RunIn env) (.bare perm) sources root) (byLocation : env.ByLocation)
    (absolute : isabs source = true) :
    ((∃ fuel p, mainScript env fuel source source ⟨[], root, []⟩ = (.ok (), p)) ↔
        ∀ t, Visited env root source t → Copyable env t) ∧
      ∀ fuel p, mainScript env fuel source source ⟨[], root, []⟩ = (.ok (), p) →
        Brings env root source p.root := by
  have kept := kept_of_run plain earlier
  refine ⟨mainScript_ok_iff plain kept.ready kept.mirrors byLocation absolute, fun fuel p done => ?_⟩
  obtain ⟨after, visited', _⟩ := main_spec kept.mirrors (main_of_script done)
  exact after.brings visited'

/-- Two services that a third one wants. -/
def wantsHost : FileSystem String where
  entries :=
    [([], .dir 0o755),
      (["u"], .file ⟨0o644, 1, 0, 0⟩ [87]),
      (["a"], .file ⟨0o644, 1, 0, 0⟩ [10]),
      (["b"], .file ⟨0o644, 1, 0, 0⟩ [10])]
  nodup := by simp
  root := rfl
  parents := by simp [List.lookup_cons, List.lookup_nil, Node.isDir]

def wantsText (name : String) : Text := [.empty, .name name]

def wants : List Text := [wantsText "a", wantsText "b"]

/-- A process that goes through its sets in one order or in the other. -/
def wantsEnv (backwards : Bool) : Env where
  host := wantsHost
  fileDependencies t :=
    match wantsHost.lstat t with
    | some (.file _ [87]) => .ok (if backwards then wants.reverse else wants)
    | _ => .ok []
  order _ deps := if backwards then deps.reverse else deps
  order_perm _ deps := by
    cases backwards with
    | false => exact .refl _
    | true => exact deps.reverse_perm
  uid := 0
  gid := 0

theorem wantsEnv_byLocation (backwards : Bool) : (wantsEnv backwards).ByLocation where
  same t t' node found found' _ _ := by
    change wantsHost.lstat t = some node at found
    change wantsHost.lstat t' = some node at found'
    simp only [wantsEnv, found, found']
  ends t impossible := by
    simp only [wantsEnv] at impossible
    split at impossible <;> cases impossible

theorem wantsEnv_alike : (wantsEnv false).Alike (wantsEnv true) where
  host := rfl
  uid := rfl
  gid := rfl
  reports t := by
    simp only [wantsEnv]
    split
    · intro d
      simp
    · exact .refl _

theorem wantsHost_linksPlain : LinksPlain wantsHost := by
  intro n dir link found _
  have entry := (wantsHost.mem_entries_iff _ _).mpr found
  simp [wantsHost] at entry

theorem wants_outcome : ∃ fuel p,
    mainScript (wantsEnv false) fuel (wantsText "u") (wantsText "u") ⟨[], .bare 0o755, []⟩ = (.ok (), p) ∧
      Brings (wantsEnv false) (.bare 0o755) (wantsText "u") p.root :=
  ⟨10, _, rfl, (run_outcome wantsHost_linksPlain (.nil : Run _ (FileSystem.bare 0o755) [] _)
    (wantsEnv_byLocation false) rfl).2 10 _ rfl⟩

/--
Whatever the orders of the earlier runs, they leave the same target root, and
whether the next run raises anything does not depend on its own order either.
-/
theorem runs_any_hash_order (plain : LinksPlain env.host) {perm : Nat} {sources : List Text}
    (one : Run (RunIn env) (.bare perm) sources root) (other : Run (RunIn env) (.bare perm) sources root')
    {first second : Env} (alike : env.Alike first) (alike' : env.Alike second)
    (byLocation : first.ByLocation) (byLocation' : second.ByLocation) (absolute : isabs source = true) :
    (∀ q, root'.get q = root.get q) ∧
      ((∃ fuel p, mainScript first fuel source source ⟨[], root, []⟩ = (.ok (), p)) ↔
        ∃ fuel p, mainScript second fuel source source ⟨[], root', []⟩ = (.ok (), p)) := by
  have same := runs_same plain one other
  refine ⟨same, ?_⟩
  have outcome : ∀ {env' : Env} {root : FileSystem String}, env.Alike env' → env'.ByLocation →
      Kept env root → ((∃ fuel p, mainScript env' fuel source source ⟨[], root, []⟩ = (.ok (), p)) ↔
        ∀ t, Visited env root source t → Copyable env t) := by
    intro env' root alike byLocation kept
    have plain' : LinksPlain env'.host := alike.host.symm ▸ plain
    have ready' : Ready env'.host root := alike.host.symm ▸ kept.ready
    rw [mainScript_ok_iff plain' ready' (alike.mirrors kept.mirrors) byLocation absolute]
    constructor
    · exact fun copyable t visited => alike.symm.copyable (copyable t (alike.visited (fun t => rfl) visited))
    · refine fun copyable t visited => alike.copyable (copyable t ?_)
      exact alike.symm.visited (fun t => by rw [alike.host]) visited
  rw [outcome alike byLocation (kept_of_run plain one), outcome alike' byLocation' (kept_of_run plain other)]
  refine forall_congr' fun t => imp_congr_left ?_
  exact ⟨(Env.Alike.refl env).visited (isAlreadyCopied_congr same),
    (Env.Alike.refl env).visited fun t => (isAlreadyCopied_congr same t).symm⟩

/-- One run for the third service in either order, and another run after it. -/
theorem wants_any_hash_order : ∃ root root', Run (RunIn (wantsEnv false)) (.bare 0o755) [wantsText "u"] root ∧
    (∀ q, root'.get q = root.get q) ∧
      ((∃ fuel p, mainScript (wantsEnv false) fuel (wantsText "a") (wantsText "a") ⟨[], root, []⟩ =
          (.ok (), p)) ↔
        ∃ fuel p, mainScript (wantsEnv true) fuel (wantsText "a") (wantsText "a") ⟨[], root', []⟩ =
          (.ok (), p)) := by
  have one : ∀ backwards, (wantsEnv false).Alike (wantsEnv backwards) →
      Run (RunIn (wantsEnv false)) (.bare 0o755) [wantsText "u"]
        (mainScript (wantsEnv backwards) 10 (wantsText "u") (wantsText "u") ⟨[], .bare 0o755, []⟩).2.root := by
    intro backwards alike
    refine Run.snoc_iff.mpr ⟨_, .nil, rfl, wantsEnv backwards, 10, _, alike, ?_, rfl⟩
    cases backwards <;> rfl
  exact ⟨_, _, one false (.refl _), runs_any_hash_order wantsHost_linksPlain (one false (.refl _))
    (one true wantsEnv_alike) (.refl _) wantsEnv_alike (wantsEnv_byLocation false)
    (wantsEnv_byLocation true) rfl⟩

end GnomeBuildMeta.Initramfs
