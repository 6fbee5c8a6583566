import GnomeBuildMeta.Control.Program
import GnomeBuildMeta.Initramfs.CopyGraph

/-!
# Whole runs of copy-initramfs.py

What a run has made stays when it raises later on.  Each call of `copy` is kept
together with the target root that it found, in the order of the calls.
-/

namespace GnomeBuildMeta.Initramfs

open GnomeBuildMeta.Containers GnomeBuildMeta.Control GnomeBuildMeta.Posix

/-- The set `processed`, the target root, and the calls of `copy` with the target root as it was. -/
structure Progress where
  processed : List Text
  root : FileSystem String
  calls : List (Text × FileSystem String)

namespace Progress

def mark (p : Progress) (target : Text) : Progress := { p with processed := target :: p.processed }

def call (p : Progress) (target : Text) : Progress := { p with calls := p.calls ++ [(target, p.root)] }

/-- The paths that `copy` was called for. -/
def copied (p : Progress) : List Text := p.calls.map Prod.fst

/-- What a run without errors tells of it. -/
def copying (p : Progress) : Copying := ⟨p.processed, p.root, p.copied⟩

@[simp] theorem copied_call (p : Progress) (target : Text) : (p.call target).copied = p.copied ++ [target] := by
  simp [copied, call]

end Progress

abbrev Script := Program Halt Progress

/-- A system call that changes the target root. -/
def onRoot (f : FileSystem String → Except Halt (FileSystem String)) : Script Unit :=
  Program.change fun p => (f p.root).map fun root => { p with root := root }

/-- The system calls of `copy`. -/
def copyCalls (env : Env) (source : Option Text) (dest : Text) : Script Unit :=
  match source with
  | none => onRoot fun root => ofErrno (root.mkdir dest 0o755)
  | some source =>
      match env.host.readlink source with
      | some link => onRoot fun root => ofErrno (root.symlink link dest)
      | none =>
          if env.host.isdir source then do
            onRoot fun root => ofErrno (root.mkdir dest 0o755)
            onRoot fun root => copystat env root source dest
          else onRoot fun root => copy2 env root source dest

/-- `copy`, one system call after the other. -/
def copyScript (env : Env) (source : Option Text) (target : Text) : Script Unit := do
  let p ← Program.get
  if p.root.lexists (textOf (reallinkpath env.host target)) then pure ()
  else copyCalls env source (textOf (reallinkpath env.host target))

def processScript (env : Env) (g : Graph) : Nat → Text → Script Unit
  | 0, _ => Program.fail .outOfFuel
  | fuel + 1, target => do
      let p ← Program.get
      if target ∈ p.processed then pure ()
      else do
        Program.update fun p => p.mark target
        match g.sourceOf target with
        | none => pure ()
        | some source => do
            (env.order target ((g.dependencies target).getD [])).forM (processScript env g fuel)
            Program.update fun p => p.call target
            copyScript env source target

/-- The whole script; the graph is built before anything is copied. -/
def mainScript (env : Env) (fuel : Nat) (source dest : Text) : Script Unit := do
  let p ← Program.get
  let g ← Program.outside (buildGraph env p.root fuel .empty [(source, dest)])
  processScript env g fuel dest

variable {env : Env} {g : Graph}

/-! ## The steps of `process` -/

/-- What is left to do for a path that has just been marked. -/
def visitScript (env : Env) (g : Graph) (fuel : Nat) (source : Option Text) (target : Text) : Script Unit := do
  (env.order target ((g.dependencies target).getD [])).forM (processScript env g fuel)
  Program.update fun p => p.call target
  copyScript env source target

section

variable {fuel : Nat} {target : Text} {p : Progress}

theorem processScript_of_seen (seen : target ∈ p.processed) :
    processScript env g (fuel + 1) target p = (.ok (), p) := by
  rw [processScript, Program.get_bind, if_pos seen]
  rfl

theorem processScript_of_noSource (new : target ∉ p.processed) (found : g.sourceOf target = none) :
    processScript env g (fuel + 1) target p = (.ok (), p.mark target) := by
  rw [processScript, Program.get_bind, if_neg new, found]
  rfl

theorem processScript_of_source (new : target ∉ p.processed) {source : Option Text}
    (found : g.sourceOf target = some source) :
    processScript env g (fuel + 1) target p = visitScript env g fuel source target (p.mark target) := by
  rw [processScript, Program.get_bind, if_neg new, found]
  rfl

end

/-! ## Runs without errors -/

theorem onRoot_ok_iff {f : FileSystem String → Except Halt (FileSystem String)} {p p' : Progress} :
    onRoot f p = (.ok (), p') ↔ ∃ root, f p.root = .ok root ∧ p' = { p with root := root } := by
  rw [onRoot, Program.change_ok_iff]
  cases f p.root with
  | error e =>
      constructor
      · intro impossible
        cases impossible
      · rintro ⟨_, impossible, _⟩
        cases impossible
  | ok root =>
      constructor
      · intro done
        cases done
        exact ⟨root, rfl, rfl⟩
      · rintro ⟨_, same, rfl⟩
        cases same
        rfl

theorem copyScript_ok_iff {source : Option Text} {target : Text} {p p' : Progress} :
    copyScript env source target p = (.ok (), p') ↔
      ∃ root, copy env source target p.root = .ok root ∧ p' = { p with root := root } := by
  rw [copyScript, Program.get_bind, copy.eq_def]
  generalize textOf (reallinkpath env.host target) = dest
  dsimp only
  split
  case isTrue taken =>
    constructor
    · intro done
      cases done
      exact ⟨p.root, rfl, rfl⟩
    · rintro ⟨_, same, rfl⟩
      cases same
      rfl
  case isFalse free =>
    rw [copyCalls.eq_def]
    cases source with
    | none => exact onRoot_ok_iff
    | some source =>
        dsimp only
        cases env.host.readlink source with
        | some link => exact onRoot_ok_iff
        | none =>
            dsimp only
            split
            · rw [Program.bind_ok_iff]
              constructor
              · rintro ⟨_, _, first, second⟩
                obtain ⟨made, mkdir, rfl⟩ := onRoot_ok_iff.mp first
                obtain ⟨root, chmod, rfl⟩ := onRoot_ok_iff.mp second
                exact ⟨root, bind_ok_iff.mpr ⟨made, mkdir, chmod⟩, rfl⟩
              · rintro ⟨root, done, rfl⟩
                obtain ⟨made, mkdir, chmod⟩ := bind_ok_iff.mp done
                exact ⟨(), _, onRoot_ok_iff.mpr ⟨made, mkdir, rfl⟩, onRoot_ok_iff.mpr ⟨root, chmod, rfl⟩⟩
            · exact onRoot_ok_iff

/-- A run of `process` that raises nothing is one of the function on values. -/
theorem process_of_script {fuel : Nat} {target : Text} {p p' : Progress}
    (done : processScript env g fuel target p = (.ok (), p')) :
    process env g fuel p.copying target = .ok p'.copying := by
  induction fuel generalizing target p p' with
  | zero => cases done
  | succ fuel ih =>
      rw [process]
      change (if target ∈ p.processed then _ else _) = _
      by_cases seen : target ∈ p.processed
      · rw [processScript_of_seen seen] at done
        cases done
        exact if_pos seen
      · rw [if_neg seen]
        cases found : g.sourceOf target with
        | none =>
            rw [processScript_of_noSource seen found] at done
            cases done
            rfl
        | some source =>
            rw [processScript_of_source seen found] at done
            obtain ⟨_, middle, loop, rest⟩ := Program.bind_ok_iff.mp done
            obtain ⟨_, called, second, last⟩ := Program.bind_ok_iff.mp rest
            cases second
            obtain ⟨root, copied, rfl⟩ := copyScript_ok_iff.mp last
            have folded := Program.forM_view Progress.copying (fun _ _ _ _ one => ih one) loop
            refine bind_ok_iff.mpr ⟨_, folded, bind_ok_iff.mpr ⟨root, copied, ?_⟩⟩
            change Except.ok _ = Except.ok _
            simp [Progress.copying, Progress.call, Progress.copied]

/-! ## Any run -/

/-- What a run of `process` adds, however it ends: new paths, each of them once. -/
structure Grown (g : Graph) (p p' : Progress) : Prop where
  marked : ∀ t ∈ p.processed, t ∈ p'.processed
  calls : ∃ new, p'.copied = p.copied ++ new ∧ new.Nodup ∧
    ∀ t ∈ new, t ∉ p.processed ∧ t ∈ p'.processed ∧ (g.sourceOf t).isSome = true

namespace Grown

variable {p p' p'' : Progress}

theorem refl (p : Progress) : Grown g p p :=
  ⟨fun _ member => member, [], (List.append_nil _).symm, List.nodup_nil,
    fun _ impossible => (List.not_mem_nil impossible).elim⟩

theorem trans (one : Grown g p p') (two : Grown g p' p'') : Grown g p p'' := by
  obtain ⟨first, same, nodup, fresh⟩ := one.calls
  obtain ⟨second, same', nodup', fresh'⟩ := two.calls
  refine ⟨fun t member => two.marked t (one.marked t member), first ++ second, ?_, ?_, fun t member => ?_⟩
  · rw [same', same, List.append_assoc]
  · refine List.nodup_append.mpr ⟨nodup, nodup', ?_⟩
    rintro t early u late rfl
    exact (fresh' t late).1 (fresh t early).2.1
  · rcases List.mem_append.mp member with early | late
    · obtain ⟨new, seen, source⟩ := fresh t early
      exact ⟨new, two.marked t seen, source⟩
    · obtain ⟨new, seen, source⟩ := fresh' t late
      exact ⟨fun old => new (one.marked t old), seen, source⟩

end Grown

theorem onRoot_keeps {I : Progress → Prop} (I_root : ∀ p root, I p → I { p with root := root })
    (f : FileSystem String → Except Halt (FileSystem String)) : Program.Keeps I (onRoot f) := by
  intro p holds
  rw [onRoot, Program.change]
  cases f p.root with
  | error e => exact holds
  | ok root => exact I_root p root holds

/-- `copy` changes nothing but the target root. -/
theorem copyScript_keeps {I : Progress → Prop} (I_root : ∀ p root, I p → I { p with root := root })
    (source : Option Text) (target : Text) : Program.Keeps I (copyScript env source target) := by
  have calls : ∀ dest, Program.Keeps I (copyCalls env source dest) := by
    intro dest
    rw [copyCalls.eq_def]
    split
    · exact onRoot_keeps I_root _
    · split
      · exact onRoot_keeps I_root _
      · split
        · exact (onRoot_keeps I_root _).bind fun _ => onRoot_keeps I_root _
        · exact onRoot_keeps I_root _
  intro p holds
  rw [copyScript, Program.get_bind]
  split
  · exact holds
  · exact calls _ p holds

theorem processScript_grown (env : Env) (g : Graph) (fuel : Nat) (target : Text) (p : Progress) :
    Grown g p (processScript env g fuel target p).2 := by
  induction fuel generalizing target p with
  | zero => exact .refl p
  | succ fuel ih =>
      by_cases seen : target ∈ p.processed
      · rw [processScript_of_seen seen]
        exact .refl p
      · have marked : Grown g p (p.mark target) :=
          ⟨fun _ member => List.mem_cons_of_mem _ member, [], (List.append_nil _).symm, List.nodup_nil,
            fun _ impossible => (List.not_mem_nil impossible).elim⟩
        cases found : g.sourceOf target with
        | none =>
            rw [processScript_of_noSource seen found]
            exact marked
        | some source =>
            rw [processScript_of_source seen found]
            have loop : Program.Keeps (Grown g (p.mark target))
                ((env.order target ((g.dependencies target).getD [])).forM (processScript env g fuel)) :=
              Program.Keeps.forM fun d _ s before => before.trans (ih d s)
            -- the path is marked before its dependencies, so that none of them copies it
            have call : ∀ s, Grown g (p.mark target) s → Grown g p (s.call target) := by
              intro s before
              obtain ⟨new, same, nodup, fresh⟩ := before.calls
              have itself : target ∈ s.processed := before.marked target List.mem_cons_self
              refine ⟨fun t member => before.marked t (List.mem_cons_of_mem _ member), new ++ [target], ?_, ?_,
                fun t member => ?_⟩
              · rw [Progress.copied_call, same, List.append_assoc]
                rfl
              · refine List.nodup_append.mpr ⟨nodup, List.nodup_singleton target, ?_⟩
                rintro t early u last rfl
                rw [List.mem_singleton.mp last] at early
                exact (fresh target early).1 List.mem_cons_self
              · rcases List.mem_append.mp member with early | last
                · obtain ⟨unseen, later, source⟩ := fresh t early
                  exact ⟨fun old => unseen (List.mem_cons_of_mem _ old), later, source⟩
                · rw [List.mem_singleton.mp last, found]
                  exact ⟨seen, itself, rfl⟩
            have whole : Program.Ensures (Grown g (p.mark target)) (visitScript env g fuel source target)
                fun _ => Grown g p :=
              Program.Ensures.bind (fun _ => Grown g (p.mark target))
                (loop.cases (fun _ _ after => after) fun _ _ after => marked.trans after) fun _ =>
                  Program.Ensures.bind (fun _ => Grown g p)
                    (fun s before => call s before) fun _ =>
                      copyScript_keeps (fun _ _ grown => ⟨grown.marked, grown.calls⟩) source target
            exact whole (p.mark target) (.refl _)

/-! ## Enough fuel -/

variable {space : List Text}

/-- The paths that are not marked yet bound how deep the calls can go. -/
def Room (space : List Text) (p : Progress) : Nat := unmarked space fun t => t ∈ p.processed

theorem Room.le {p p' : Progress} (grown : Grown g p p') : Room space p' ≤ Room space p :=
  unmarked_le fun t member => by simpa using grown.marked t (by simpa using member)

theorem Room.mark {p : Progress} {target : Text} (inside : target ∈ space) (new : target ∉ p.processed) :
    Room space (p.mark target) < Room space p :=
  unmarked_lt (fun t member => by simpa [Progress.mark] using Or.inr (by simpa using member)) inside
    (by simpa using new) (by simp [Progress.mark])

theorem ofErrno_ends {σ : Type} (x : Except Errno σ) : ofErrno x ≠ .error .outOfFuel := by
  intro impossible
  cases x with
  | ok s => cases impossible
  | error e => cases impossible

theorem copystat_ends (root : FileSystem String) (source dest : Text) :
    copystat env root source dest ≠ .error .outOfFuel := by
  rw [copystat]
  split
  · exact ofErrno_ends _
  · intro impossible
    cases impossible

theorem copy2_ends (root : FileSystem String) (source dest : Text) :
    copy2 env root source dest ≠ .error .outOfFuel := by
  rw [copy2]
  split
  · exact ofErrno_ends _
  · intro impossible
    cases impossible

/-- A call that ends has not run out of fuel. -/
def Ended (result : Except Halt Unit) : Prop := result ≠ .error .outOfFuel

theorem Ended.ok : Ended (.ok ()) := fun impossible => by cases impossible

theorem onRoot_ends {f : FileSystem String → Except Halt (FileSystem String)}
    (ends : ∀ root, f root ≠ .error .outOfFuel) (p : Progress) : Ended (onRoot f p).1 := by
  have known := ends p.root
  rw [onRoot, Program.change]
  cases result : f p.root with
  | ok root => exact .ok
  | error e =>
      rw [result] at known
      intro impossible
      cases impossible
      exact known rfl

theorem copyScript_ends (source : Option Text) (target : Text) (p : Progress) :
    Ended (copyScript env source target p).1 := by
  have calls : ∀ dest, Program.Ensures (fun _ => True) (copyCalls env source dest)
      fun result _ => Ended result := by
    intro dest
    rw [copyCalls.eq_def]
    split
    · exact fun p _ => onRoot_ends (fun _ => ofErrno_ends _) p
    · split
      · exact fun p _ => onRoot_ends (fun _ => ofErrno_ends _) p
      · split
        · have first : Program.Ensures (fun _ => True)
              (onRoot fun root => ofErrno (root.mkdir dest 0o755)) fun result _ => Ended result :=
            fun p _ => onRoot_ends (fun _ => ofErrno_ends _) p
          exact Program.Ensures.bind (fun _ _ => True)
            (first.cases (fun _ _ _ => trivial) fun e _ ended => fun impossible => ended (by cases impossible; rfl))
            fun _ p _ => onRoot_ends (fun root => copystat_ends root _ dest) p
        · exact fun p _ => onRoot_ends (fun root => copy2_ends root _ dest) p
  rw [copyScript, Program.get_bind]
  split
  · exact .ok
  · exact calls _ p trivial

/-- By induction on the fuel: what is new gets marked before the calls go deeper. -/
theorem processScript_ends (sources : ∀ t, (g.sourceOf t).isSome = true → t ∈ space) {fuel : Nat}
    {target : Text} {p : Progress} (enough : Room space p < fuel) :
    Ended (processScript env g fuel target p).1 ∧
      processScript env g (fuel + 1) target p = processScript env g fuel target p := by
  induction fuel generalizing target p with
  | zero => omega
  | succ fuel ih =>
      by_cases seen : target ∈ p.processed
      · rw [processScript_of_seen seen, processScript_of_seen seen]
        exact ⟨.ok, rfl⟩
      · cases found : g.sourceOf target with
        | none =>
            rw [processScript_of_noSource seen found, processScript_of_noSource seen found]
            exact ⟨.ok, rfl⟩
        | some source =>
            rw [processScript_of_source seen found, processScript_of_source seen found]
            have less := Room.mark (sources target (by rw [found]; rfl)) seen
            have room : Room space (p.mark target) < fuel := by omega
            have keeps : ∀ d s, Room space s < fuel → Room space (processScript env g fuel d s).2 < fuel := by
              intro d s before
              have smaller : Room space (processScript env g fuel d s).2 ≤ Room space s :=
                Room.le (processScript_grown env g fuel d s)
              exact Nat.lt_of_le_of_lt smaller before
            constructor
            · have loop : Program.Ensures (fun s => Room space s < fuel)
                  ((env.order target ((g.dependencies target).getD [])).forM (processScript env g fuel))
                  fun result _ => Ended result := by
                refine Program.Ensures.forM (fun _ _ => .ok) fun d _ s before =>
                  ⟨fun _ => keeps d s before, fun e failed => ?_⟩
                rw [← failed]
                exact (ih before).1
              have whole : Program.Ensures (fun s => Room space s < fuel)
                  (visitScript env g fuel source target) fun result _ => Ended result :=
                Program.Ensures.bind (fun _ _ => True)
                  (loop.cases (fun _ _ _ => trivial) fun _ _ ended impossible => ended (by cases impossible; rfl))
                  fun _ => Program.Ensures.bind (fun _ _ => True) (fun _ _ => trivial) fun _ s _ =>
                    copyScript_ends source target s
              exact whole (p.mark target) room
            · have same : (env.order target ((g.dependencies target).getD [])).forM
                    (processScript env g (fuel + 1)) (p.mark target) =
                  (env.order target ((g.dependencies target).getD [])).forM
                    (processScript env g fuel) (p.mark target) := by
                refine (Program.forM_congr (I := fun s => Room space s < fuel) (fun d _ s before => ?_)
                  (fun d _ s before => keeps d s before) room).symm
                exact (ih before).2.symm
              change Program.bind _ _ _ = Program.bind _ _ _
              rw [Program.bind, Program.bind, same]

theorem processScript_fuel (sources : g.Within space) {target : Text} {p : Progress} {fuel : Nat}
    (enough : Room space p < fuel) (more : Nat) :
    processScript env g (fuel + more) target p = processScript env g fuel target p := by
  induction more with
  | zero => rfl
  | succ more ih =>
      rw [← ih]
      exact (processScript_ends sources (by omega : Room space p < fuel + more)).2

/-! ## The whole script -/

/-- What a run is called with: absolute paths. -/
structure Request where
  source : Text
  dest : Text
  absolute : isabs source = true ∧ isabs dest = true

namespace Request

variable (request : Request) (root : FileSystem String)

def queue : Queue := [(request.source, request.dest)]

/-- The calls of `copy` in a run whose graph is `g`. -/
structure Copies (env : Env) (g : Graph) (result : Except Halt Unit) (p : Progress) : Prop where
  once : p.copied.Nodup
  reached : ∀ t ∈ p.copied, Reached g request.dest t ∧ Needed env root request.source request.dest t
  all : result = .ok () → ∀ t, Reached g request.dest t → Needed env root request.source request.dest t →
    t ∈ p.copied
  directory : ∀ t ∈ p.copied, ∃ recorded, g.dependencies t = some recorded ∧ dirname t ∈ recorded

end Request

/-- Nothing is copied that the destination does not lead to. -/
theorem processScript_reached (env : Env) {dest : Text} (fuel : Nat) {target : Text}
    (here : Reached g dest target) :
    Program.Keeps (fun p => ∀ t ∈ p.copied, Reached g dest t) (processScript env g fuel target) := by
  induction fuel generalizing target with
  | zero => exact fun _ before => before
  | succ fuel ih =>
      intro p before
      by_cases seen : target ∈ p.processed
      · rw [processScript_of_seen seen]
        exact before
      · cases found : g.sourceOf target with
        | none =>
            rw [processScript_of_noSource seen found]
            exact before
        | some source =>
            rw [processScript_of_source seen found]
            have loop : Program.Keeps (fun p : Progress => ∀ t ∈ p.copied, Reached g dest t)
                ((env.order target ((g.dependencies target).getD [])).forM (processScript env g fuel)) := by
              refine Program.Keeps.forM fun d member => ih ?_
              have among := (env.order_perm target _).mem_iff.mp member
              cases recorded : g.dependencies target with
              | none =>
                  rw [recorded] at among
                  exact (List.not_mem_nil among).elim
              | some deps =>
                  rw [recorded] at among
                  exact .dep here recorded among
            have call : ∀ s : Progress, (∀ t ∈ s.copied, Reached g dest t) →
                ∀ t ∈ (s.call target).copied, Reached g dest t := by
              intro s earlier t member
              rw [Progress.copied_call] at member
              rcases List.mem_append.mp member with old | last
              · exact earlier t old
              · rw [List.mem_singleton.mp last]
                exact here
            exact loop.bind (fun _ => (Program.Keeps.update call).bind fun _ =>
              copyScript_keeps (fun _ _ earlier => earlier) source target) (p.mark target) before

/-- A run of `process` from the start that raises nothing copies all that is reached and has a source. -/
theorem processScript_all {dest : Text} {fuel : Nat} {root : FileSystem String} {p : Progress}
    (leads : ∀ t recorded d, g.dependencies t = some recorded → d ∈ recorded → (g.sourceOf t).isSome = true)
    (done : processScript env g fuel dest ⟨[], root, []⟩ = (.ok (), p)) {t : Text} (reached : Reached g dest t)
    (known : (g.sourceOf t).isSome = true) : t ∈ p.copied := by
  obtain ⟨spec, first⟩ := process_spec (process_of_script done)
  have closed : ∀ u ∈ p.processed, ∀ source, g.sourceOf u = some source →
      u ∈ p.copied ∧ ∀ d ∈ (g.dependencies u).getD [], d ∈ p.processed := by
    intro u member
    rcases spec.closed u member with impossible | done
    · exact (List.not_mem_nil impossible).elim
    · exact done
  have marked : ∀ u, Reached g dest u → u ∈ p.processed := by
    intro u before
    induction before with
    | start => exact first
    | @dep u d recorded before found inside ih =>
        obtain ⟨source, there⟩ := Option.isSome_iff_exists.mp (leads u recorded d found inside)
        refine (closed u ih source there).2 d ?_
        rw [found]
        exact inside
  obtain ⟨source, there⟩ := Option.isSome_iff_exists.mp known
  exact (closed t (marked t reached) source there).1

namespace Request

variable {request : Request} {root : FileSystem String}

theorem copies {fuel : Nat} (finished : Finished env root request.source request.dest g)
    {start : FileSystem String} {result : Except Halt Unit} {p : Progress}
    (run : processScript env g fuel request.dest ⟨[], start, []⟩ = (result, p)) :
    request.Copies root env g result p := by
  have grown := processScript_grown env g fuel request.dest ⟨[], start, []⟩
  have inside := processScript_reached env fuel (.start : Reached g request.dest request.dest)
    ⟨[], start, []⟩ fun _ impossible => (List.not_mem_nil impossible).elim
  rw [run] at grown inside
  obtain ⟨new, same, nodup, fresh⟩ := grown.calls
  have same' : p.copied = new := same
  have sourced : ∀ t ∈ p.copied, (g.sourceOf t).isSome = true := by
    intro t member
    rw [same'] at member
    exact (fresh t member).2.2
  refine ⟨?_, fun t member => ⟨inside t member, ?_⟩, fun ended t reached needed => ?_, fun t member => ?_⟩
  · rw [same']
    exact nodup
  · obtain ⟨source, found⟩ := Option.isSome_iff_exists.mp (sourced t member)
    exact (finished.sourced t source found).needed
  · rw [ended] at run
    exact processScript_all finished.leads run reached (finished.known t reached needed)
  · obtain ⟨source, found⟩ := Option.isSome_iff_exists.mp (sourced t member)
    exact (finished.sourced t source found).dirname_mem

end Request

/-- Of an empty target root only the top is there. -/
theorem isAlreadyCopied_bare {host : FileSystem String} {perm : Nat} {t : Text} :
    isAlreadyCopied host (.bare perm) t = true ↔ reallinkpath host t = [] := by
  have plain : ∀ p, (FileSystem.bare (α := String) perm).Plain p := by
    intro p q _ _ target link
    cases q with
    | nil => cases link
    | cons n q => cases link
  rw [isAlreadyCopied, FileSystem.lexists_textOf _ (plain _)]
  cases reallinkpath host t with
  | nil => exact iff_of_true rfl rfl
  | cons n p => exact iff_of_false Bool.false_ne_true (List.cons_ne_nil n p)

/-- The graph that the loop builds, with enough fuel. -/
def Builds (env : Env) (root : FileSystem String) (queue : Queue) (result : Except Halt Graph) : Prop :=
  ∃ enough, ∀ fuel, enough ≤ fuel → buildGraph env root fuel .empty queue = result

/-- How a run ends: no graph is built and nothing is done, or the graph is copied along. -/
inductive Request.Ends (request : Request) (env : Env) (root : FileSystem String) :
    Except Halt Unit × Progress → Prop where
  | raised {e : Halt} (building : Builds env root request.queue (.error e)) :
      request.Ends env root (.error e, ⟨[], root, []⟩)
  | copied {g : Graph} {result : Except Halt Unit} {p : Progress}
      (building : Builds env root request.queue (.ok g)) (copies : request.Copies root env g result p) :
      request.Ends env root (result, p)

/-- With enough fuel the script ends, in one of the two ways, and no target is analysed twice. -/
theorem mainScript_ends (byLocation : env.ByLocation) (request : Request) (root : FileSystem String) :
    (∀ fuel, (analyses env root fuel .empty request.queue).Nodup) ∧
      ∃ (enough : Nat) (outcome : Except Halt Unit × Progress), outcome.1 ≠ .error .outOfFuel ∧
        request.Ends env root outcome ∧ ∀ fuel, enough ≤ fuel →
          mainScript env fuel request.source request.dest ⟨[], root, []⟩ = outcome := by
  refine ⟨fun fuel => (analyses_nodup fuel .empty request.queue).1, ?_⟩
  obtain ⟨space, inside, closed⟩ := exists_closed_space byLocation request.dest
  have queued : ∀ e ∈ request.queue, e.2 ∈ space := by
    intro e member
    rw [List.mem_singleton.mp member]
    exact inside
  have runs : ∀ fuel, mainScript env fuel request.source request.dest ⟨[], root, []⟩ =
      (Program.outside (buildGraph env root fuel .empty request.queue) >>= fun g =>
        processScript env g fuel request.dest) ⟨[], root, []⟩ := fun _ => rfl
  obtain ⟨enough, result, known, ends⟩ := graphEnds byLocation closed .empty request.queue queued
  cases result with
  | error e =>
      refine ⟨enough, (.error e, ⟨[], root, []⟩), fun impossible => ?_, .raised ⟨enough, ends⟩,
        fun fuel bound => ?_⟩
      · cases impossible
        exact known rfl
      · rw [runs, ends fuel bound]
        rfl
  | ok g =>
      have within : g.Within space :=
        buildGraph_within closed queued (fun _ impossible => by cases impossible) (ends enough (Nat.le_refl _))
      have room := Nat.lt_succ_self (Room space ⟨[], root, []⟩)
      have ended : Ended (processScript env g _ request.dest _).1 := (processScript_ends within room).1
      cases run : processScript env g (Room space ⟨[], root, []⟩ + 1) request.dest ⟨[], root, []⟩ with
      | mk result p =>
          rw [run] at ended
          refine ⟨max enough (Room space ⟨[], root, []⟩ + 1), (result, p), ended, .copied ⟨enough, ends⟩ ?_,
            fun fuel bound => ?_⟩
          · exact request.copies (finished_of_buildGraph (ends enough (Nat.le_refl _))) run
          · obtain ⟨more, rfl⟩ := Nat.exists_eq_add_of_le (Nat.le_trans (Nat.le_max_right _ _) bound)
            rw [runs, ends _ (Nat.le_trans (Nat.le_max_left _ _) bound)]
            exact (processScript_fuel within room more).trans run

/-- Two links that lead to each other, and a file that needs nothing. -/
def circularHost : FileSystem String where
  entries :=
    [([], .dir 0o755),
      (["a"], .symlink [.empty, .name "b"]),
      (["b"], .symlink [.empty, .name "a"]),
      (["f"], .file ⟨0o644, 1, 0, 0⟩ [10])]
  nodup := by simp
  root := rfl
  parents := by simp [List.lookup_cons, List.lookup_nil, Node.isDir]

def circularEnv : Env where
  host := circularHost
  fileDependencies := fun _ => .ok []
  order := fun _ deps => deps
  order_perm := fun _ _ => .refl _
  uid := 0
  gid := 0

theorem circularEnv_byLocation : circularEnv.ByLocation where
  same _ _ _ _ _ _ _ := rfl
  ends _ impossible := by cases impossible

def circularRequest : Request := ⟨[.empty, .name "a"], [.empty, .name "a"], rfl, rfl⟩

theorem circular_ends : ∃ (enough : Nat) (outcome : Except Halt Unit × Progress),
    outcome.1 ≠ .error .outOfFuel ∧ circularRequest.Ends circularEnv (.bare 0o755) outcome ∧
      ∀ fuel, enough ≤ fuel → mainScript circularEnv fuel circularRequest.source circularRequest.dest
        ⟨[], .bare 0o755, []⟩ = outcome :=
  (mainScript_ends circularEnv_byLocation circularRequest (.bare 0o755)).2

def fileText : Text := [.empty, .name "f"]

def topText : Text := [.empty, .empty]

/-- The directory of a file at the top is one of its dependencies and is not copied. -/
theorem top_not_copied : ∃ g, buildGraph circularEnv (.bare 0o755) 5 .empty [(fileText, fileText)] = .ok g ∧
    Reached g fileText topText ∧ circularHost.lexists topText = true ∧
      (mainScript circularEnv 5 fileText fileText ⟨[], .bare 0o755, []⟩).1 = .ok () ∧
        (mainScript circularEnv 5 fileText fileText ⟨[], .bare 0o755, []⟩).2.copied = [fileText] ∧
          topText ∉ [fileText] :=
  ⟨_, rfl, .dep .start rfl (by decide), by decide, rfl, rfl, by decide⟩

end GnomeBuildMeta.Initramfs
