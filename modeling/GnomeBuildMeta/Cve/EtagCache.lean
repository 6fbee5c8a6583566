import GnomeBuildMeta.Control.Run
import GnomeBuildMeta.Cve.Update
import Mathlib.Data.List.Nodup

/-!
# The etags and the cached files

A run opens the file of a year in place while the committed database still holds
the etag of its last content.  What it has opened is coherent again once the run
is committed, and only then.
-/

namespace GnomeBuildMeta.Cve

open Control

theorem cacheName_injective {year year' : Text} (same : cacheName year = cacheName year') :
    year = year' :=
  List.append_cancel_left (List.append_cancel_right same)

theorem years_nodup (thisYear : Nat) : (years thisYear).Nodup := by
  have digits : ∀ year : Nat, (toString year).toList = Nat.toDigits 10 year :=
    fun year => Nat.toList_repr
  refine List.nodup_append.mpr ⟨?_, List.nodup_singleton _, ?_⟩
  · refine (List.nodup_range' ).map fun a b same => ?_
    simp only [digits] at same
    rw [← Nat.ofDigitChars_ten_toDigits (n := a), same, Nat.ofDigitChars_ten_toDigits]
  · intro text inside text' last
    obtain ⟨year, _, rfl⟩ := List.mem_map.mp inside
    rw [List.mem_singleton.mp last, digits]
    intro same
    have digit := Nat.isDigit_of_mem_toDigits (b := 10) (n := year) (c := 'M') (by decide) (by decide)
      (same ▸ (by decide : 'M' ∈ "Modified".toList))
    exact absurd digit (by decide)

/-! ## What a step does -/

inductive Moves (decode : Body → Option Json) (s : System) : Action → System → Prop where
  | start {thisYear : Nat} (idle : s.process = none) :
      Moves decode s (.start thisYear) { s with process := some (.start s.etags thisYear) }
  | crash {p : Process} (running : s.process = some p) :
      Moves decode s .crash { s with process := none }
  | response {p : Process} {answer : Answer} {year new : Text} {todo : List Text} {body : Body}
      {timeout : Nat} (running : s.process = some p) (phase : p.phase = .starting)
      (next : p.todo = year :: todo) :
      Moves decode s (.answer answer)
        { s with
          disk := Function.update s.disk (cacheName year) (some [])
          sent := (year, new, body) :: s.sent
          process := some
            ⟨Function.update p.etags year (some new), timeout, todo,
              .downloading year (p.etags year) body, year :: p.opened⟩ }
  | noBody {p : Process} {answer : Answer} {year : Text} {todo : List Text} {timeout : Nat}
      {after : Phase} (running : s.process = some p) (phase : p.phase = .starting)
      (next : p.todo = year :: todo)
      (goesOn : after = .starting ∨ after = .raised ∨ ∃ source, after = .reading year source) :
      Moves decode s (.answer answer)
        { s with process := some ⟨p.etags, timeout, todo, after, p.opened⟩ }
  | receive {p : Process} {year : Text} {etag : Option Text} {buf missing : Body}
      (running : s.process = some p) (phase : p.phase = .downloading year etag (buf ++ missing)) :
      Moves decode s (.receive buf)
        { s with
          disk := Function.update s.disk (cacheName year) ((s.disk (cacheName year)).map (· ++ buf))
          process := some { p with phase := .downloading year etag missing } }
  | endOfBody {p : Process} {year : Text} {etag : Option Text} {missing : Body}
      (running : s.process = some p) (phase : p.phase = .downloading year etag missing) :
      Moves decode s .endOfBody
        { s with process := some { p with phase := .reading year .downloaded } }
  | timedOut {p : Process} {year : Text} {etag : Option Text} {missing : Body}
      (running : s.process = some p) (phase : p.phase = .downloading year etag missing)
      (known : etag.isSome) :
      Moves decode s (.bodyError true)
        { s with process := some { p with phase := .reading year .timeout } }
  | bodyError {p : Process} {year : Text} {etag : Option Text} {missing : Body} {timedOut : Bool}
      (running : s.process = some p) (phase : p.phase = .downloading year etag missing) :
      Moves decode s (.bodyError timedOut)
        { s with process := some { p with phase := .raised } }
  | load {p : Process} {year : Text} {source : Source} {content : Body}
      (running : s.process = some p) (phase : p.phase = .reading year source)
      (there : s.disk (cacheName year) = some content) (loaded : loads decode content = true) :
      Moves decode s .load { s with process := some { p with phase := .starting } }
  | loadError {p : Process} {year : Text} {source : Source} (running : s.process = some p)
      (phase : p.phase = .reading year source) :
      Moves decode s .load { s with process := some { p with phase := .raised } }
  | commit {p : Process} (running : s.process = some p) (phase : p.phase = .starting)
      (done : p.todo = []) :
      Moves decode s .commit { s with etags := p.etags, process := none }
  | close {p : Process} (running : s.process = some p) (phase : p.phase = .raised) :
      Moves decode s .close { s with process := none }

variable {decode : Body → Option Json} {s s' : System} {a : Action}

theorem moves_answer {p : Process} {year : Text} {todo : List Text} (running : s.process = some p)
    (phase : p.phase = .starting) (next : p.todo = year :: todo) (answer : Answer) :
    Moves decode s (.answer answer) ({ p with todo }.answer s year answer) := by
  simp only [Process.answer, phase]
  split
  case h_1 => exact .response running phase next
  case h_2 =>
      split
      · exact .noBody running phase next (Or.inr (Or.inr ⟨_, rfl⟩))
      · exact .noBody running phase next (Or.inr (Or.inl rfl))
  case h_3 => exact .noBody running phase next (Or.inr (Or.inr ⟨_, rfl⟩))
  case h_4 => exact .noBody running phase next (Or.inl rfl)
  case h_5 => exact .noBody running phase next (Or.inr (Or.inl rfl))

theorem moves_of_process {p : Process} (running : s.process = some p) {phase : Phase}
    (there : p.phase = phase) (step : p.act decode s a phase = some s') : Moves decode s a s' := by
  unfold Process.act at step
  split at step
  case h_1 =>
      split at step
      · rename_i next
        cases step
        exact moves_answer running there next _
      · cases step
  case h_2 =>
      split at step
      · rename_i done
        cases step
        exact .commit running there done
      · cases step
  case h_3 =>
      split at step
      · rename_i proper
        obtain ⟨rest, rfl⟩ := proper.2.2
        cases step
        rw [List.drop_left]
        exact .receive running there
      · cases step
  case h_4 =>
      cases step
      exact .endOfBody running there
  case h_5 timedOut year etag missing =>
      cases step
      by_cases known : timedOut = true ∧ etag.isSome = true
      · obtain ⟨rfl, known⟩ := known
        rw [if_pos ⟨rfl, known⟩]
        exact .timedOut running there known
      · rw [if_neg known]
        exact .bodyError running there
  case h_6 year source =>
      cases step
      by_cases loaded : (s.disk (cacheName year)).any (loads decode) = true
      · obtain ⟨content, found, accepted⟩ := (Option.any_eq_true _ _).mp loaded
        rw [if_pos loaded]
        exact .load running there found accepted
      · rw [if_neg loaded]
        exact .loadError running there
  case h_7 =>
      cases step
      exact .close running there
  case h_8 =>
      cases step
      exact .crash running
  case h_9 => cases step

theorem moves_of_step (step : Step decode s a s') : Moves decode s a s' := by
  unfold Step act at step
  split at step
  · rename_i idle
    cases step
    exact .start idle
  · cases step
  · rename_i running
    exact moves_of_process running rfl step

/-! ## What a run relies on -/

def Phase.year : Phase → Option Text
  | .downloading year _ _ | .reading year _ => some year
  | .starting | .raised => none

/-- The years whose files the run that is under way has opened. -/
def System.opened (s : System) : List Text :=
  match s.process with
  | some p => p.opened
  | none => []

/-- What a phase knows of the file of its year. -/
def Phase.Knows (decode : Body → Option Json) (s : System) (p : Process) : Phase → Prop
  | .downloading year _ missing =>
      year ∈ p.opened ∧ ∃ etag received, p.etags year = some etag ∧
        s.disk (cacheName year) = some received ∧ (year, etag, received ++ missing) ∈ s.sent
  | .reading year source =>
      year ∈ p.opened → ∃ etag content, p.etags year = some etag ∧
        s.disk (cacheName year) = some content ∧
          (source ≠ .downloaded ∨ loads decode content = true → (year, etag, content) ∈ s.sent)
  | .starting | .raised => True

structure Process.Sound (decode : Body → Option Json) (s : System) (p : Process) : Prop where
  nodup : p.todo.Nodup
  ahead : ∀ year ∈ p.todo, year ∉ p.opened ∧ p.phase.year ≠ some year
  unopened : ∀ year, year ∉ p.opened → p.etags year = s.etags year
  finished : p.phase ≠ .raised → ∀ year ∈ p.opened, p.phase.year ≠ some year →
    ∃ etag, p.etags year = some etag ∧ s.Complete year etag
  knows : p.phase.Knows decode s p

structure System.Sound (decode : Body → Option Json) (s : System) : Prop where
  complete : ∀ year etag, s.etags year = some etag → year ∉ s.opened → s.Complete year etag
  process : ∀ p, s.process = some p → p.Sound decode s

/--
A run ends without a commit only if no etag is committed for the files it has
opened.  A connection that is closed early leaves nothing that is read without
an exception, and no body whose etag was known before is broken off by a timeout.
-/
def Undisturbed (decode : Body → Option Json) (s : System) (a : Action) : Prop :=
  match a, s.process.map Process.phase with
  | .close, _ | .crash, _ => ∀ year ∈ s.opened, s.etags year = none
  | .endOfBody, some (.downloading year _ missing) =>
      missing ≠ [] → (s.disk (cacheName year)).any (loads decode) = false
  | .bodyError true, some (.downloading _ etag missing) => etag.isSome → missing = []
  | _, _ => True

theorem System.opened_eq {p : Process} (running : s.process = some p) : s.opened = p.opened := by
  rw [System.opened, running]

/-- A step changes the files of no other year than its own. -/
theorem System.Complete.update {year other etag : Text} {content : Option Body}
    {sent : List (Text × Text × Body)} {process : Option Process} {etags : Text → Option Text}
    (complete : s.Complete year etag) (differs : other ≠ year) (more : s.sent ⊆ sent) :
    System.Complete ⟨Function.update s.disk (cacheName other) content, etags, sent, process⟩ year
      etag := by
  obtain ⟨body, there, inside⟩ := complete
  refine ⟨body, ?_, more inside⟩
  have names : cacheName year ≠ cacheName other := fun same => differs (cacheName_injective same).symm
  exact (Function.update_of_ne names _ _).trans there

/-- Nothing is opened: the database holds what is on the disk. -/
theorem System.Sound.ends (complete : ∀ year etag, s.etags year = some etag → s.Complete year etag) :
    System.Sound decode { s with process := none } :=
  ⟨fun year etag found _ => complete year etag found, fun _ impossible => nomatch impossible⟩

/-- A step that changes nothing but the phase. -/
theorem System.Sound.phase {p : Process} {after : Phase} {timeout : Nat} {todo : List Text}
    (sound : s.Sound decode) (running : s.process = some p) (fewer : todo.Sublist p.todo)
    (ahead : ∀ year ∈ todo, after.year ≠ some year)
    (finished : after ≠ .raised → ∀ year ∈ p.opened, after.year ≠ some year →
      ∃ etag, p.etags year = some etag ∧ s.Complete year etag)
    (knows : after.Knows decode s p) :
    System.Sound decode { s with process := some ⟨p.etags, timeout, todo, after, p.opened⟩ } where
  complete year etag found unopened :=
    sound.complete year etag found (s.opened_eq running ▸ unopened)
  process p' same := by
    cases same
    have before := sound.process p running
    exact {
      nodup := before.nodup.sublist fewer
      ahead := fun year inside => ⟨(before.ahead year (fewer.subset inside)).1, ahead year inside⟩
      unopened := before.unopened
      finished
      knows := by cases after <;> exact knows }

/-- The file of the year at hand is read. -/
theorem System.Sound.reading {p : Process} {year : Text} {source : Source} (sound : s.Sound decode)
    (running : s.process = some p) (current : p.phase.year = some year) (proper : p.phase ≠ .raised)
    (knows : (Phase.reading year source).Knows decode s p) :
    System.Sound decode { s with process := some { p with phase := .reading year source } } := by
  have before := sound.process p running
  refine sound.phase running (.refl _) (fun other inside => ?_) (fun _ other opened differs => ?_) knows
  · have differs := (before.ahead other inside).2
    rw [current] at differs
    exact differs
  · exact before.finished proper other opened (current.trans_ne differs)

theorem System.Sound.raised {p : Process} (sound : s.Sound decode) (running : s.process = some p) :
    System.Sound decode { s with process := some { p with phase := .raised } } :=
  sound.phase running (.refl _) (fun _ _ => nofun) (fun impossible => absurd rfl impossible) True.intro

/-- The run is over without a commit. -/
theorem System.Sound.abandoned (sound : s.Sound decode)
    (calm : ∀ year ∈ s.opened, s.etags year = none) :
    System.Sound decode { s with process := none } := by
  refine .ends fun year etag found => sound.complete year etag found fun opened => ?_
  rw [calm year opened] at found
  cases found

theorem Process.Sound.committed {p : Process} (before : p.Sound decode s)
    (complete : ∀ year etag, s.etags year = some etag → year ∉ p.opened → s.Complete year etag)
    (phase : p.phase = .starting) {year etag : Text} (found : p.etags year = some etag) :
    s.Complete year etag := by
  by_cases opened : year ∈ p.opened
  · have finished := before.finished (by rw [phase]; nofun) year opened (by rw [phase]; nofun)
    obtain ⟨etag', found', whole⟩ := finished
    cases found.symm.trans found'
    exact whole
  · exact complete year etag (before.unopened year opened ▸ found) opened

/-- The body of an answer starts in an empty file. -/
theorem Process.Sound.response {p : Process} {year new : Text} {todo : List Text} {body : Body}
    {timeout : Nat} (before : p.Sound decode s) (phase : p.phase = .starting)
    (next : p.todo = year :: todo) :
    Process.Sound decode
      { s with
        disk := Function.update s.disk (cacheName year) (some [])
        sent := (year, new, body) :: s.sent
        process := some
          ⟨Function.update p.etags year (some new), timeout, todo,
            .downloading year (p.etags year) body, year :: p.opened⟩ }
      ⟨Function.update p.etags year (some new), timeout, todo,
        .downloading year (p.etags year) body, year :: p.opened⟩ := by
  have fresh := List.nodup_cons.mp (next ▸ before.nodup)
  have more : s.sent ⊆ (year, new, body) :: s.sent := List.subset_cons_self _ _
  constructor
  case nodup => exact fresh.2
  case ahead =>
      intro other inside
      have differs : other ≠ year := fun same => fresh.1 (same ▸ inside)
      have ahead := (before.ahead other (next ▸ List.mem_cons_of_mem _ inside)).1
      exact ⟨List.not_mem_cons_of_ne_of_not_mem differs ahead,
        fun same => differs (Option.some.inj same).symm⟩
  case unopened =>
      intro other unopened
      have differs := List.ne_of_not_mem_cons unopened
      exact (Function.update_of_ne differs _ _).trans
        (before.unopened other (List.not_mem_of_not_mem_cons unopened))
  case finished =>
      intro _ other opened differs
      have differs : year ≠ other := fun same => differs (congrArg some same)
      have opened := (List.mem_cons.mp opened).resolve_left differs.symm
      have finished := before.finished (by rw [phase]; nofun) other opened (by rw [phase]; nofun)
      obtain ⟨etag, found, complete⟩ := finished
      exact ⟨etag, (Function.update_of_ne differs.symm _ _).trans found, complete.update differs more⟩
  case knows =>
      exact ⟨List.mem_cons_self, new, [], Function.update_self _ _ _, Function.update_self _ _ _,
        List.mem_cons_self⟩

theorem Process.Sound.receive {p : Process} {year : Text} {etag : Option Text} {buf missing : Body}
    (before : p.Sound decode s) (phase : p.phase = .downloading year etag (buf ++ missing)) :
    Process.Sound decode
      { s with
        disk := Function.update s.disk (cacheName year) ((s.disk (cacheName year)).map (· ++ buf))
        process := some { p with phase := .downloading year etag missing } }
      { p with phase := .downloading year etag missing } := by
  have current : p.phase.year = some year := congrArg Phase.year phase
  constructor
  case nodup => exact before.nodup
  case ahead =>
      intro other inside
      obtain ⟨unopened, differs⟩ := before.ahead other inside
      rw [current] at differs
      exact ⟨unopened, differs⟩
  case unopened => exact before.unopened
  case finished =>
      intro _ other opened differs
      have finished := before.finished (by rw [phase]; nofun) other opened (current.trans_ne differs)
      obtain ⟨etag', found, complete⟩ := finished
      exact ⟨etag', found, complete.update (fun same => differs (congrArg some same)) fun _ h => h⟩
  case knows =>
      have knows := before.knows
      rw [phase] at knows
      obtain ⟨opened, new, received, found, there, inside⟩ := knows
      refine ⟨opened, new, received ++ buf, found, ?_, (List.append_assoc _ _ _).symm ▸ inside⟩
      exact (Function.update_self _ _ _).trans (congrArg (Option.map (· ++ buf)) there)

theorem Moves.sound (moves : Moves decode s a s') (calm : Undisturbed decode s a)
    (sound : s.Sound decode) : s'.Sound decode := by
  cases moves with
  | start idle =>
      constructor
      · intro year etag found _
        exact sound.complete year etag found (by simp [System.opened, idle])
      · intro p same
        cases same
        exact {
          nodup := years_nodup _
          ahead := fun _ _ => ⟨List.not_mem_nil, nofun⟩
          unopened := fun _ _ => rfl
          finished := fun _ _ inside => nomatch inside
          knows := True.intro }
  | crash running => exact sound.abandoned calm
  | @response p answer year new todo body timeout running phase next =>
      have before := sound.process p running
      constructor
      · intro other etag found unopened
        have before' := List.not_mem_of_not_mem_cons unopened
        have complete := sound.complete other etag found (s.opened_eq running ▸ before')
        exact complete.update (List.ne_of_not_mem_cons unopened).symm (List.subset_cons_self _ _)
      · intro p' same
        cases same
        exact before.response phase next
  | @noBody p answer year todo timeout after running phase next goesOn =>
      have before := sound.process p running
      have fresh := List.nodup_cons.mp (next ▸ before.nodup)
      refine sound.phase running (next ▸ List.sublist_cons_self _ _) ?_ ?_ ?_
      · intro other inside
        rcases goesOn with rfl | rfl | ⟨source, rfl⟩
        · nofun
        · nofun
        · exact fun same => fresh.1 (Option.some.inj same ▸ inside)
      · intro _ other opened _
        exact before.finished (by rw [phase]; nofun) other opened (by rw [phase]; nofun)
      · rcases goesOn with rfl | rfl | ⟨source, rfl⟩
        · exact True.intro
        · exact True.intro
        · exact fun opened => absurd opened (before.ahead year (next ▸ List.mem_cons_self)).1
  | @receive p year etag buf missing running phase =>
      have before := sound.process p running
      have knows := before.knows
      rw [phase] at knows
      constructor
      · intro other etag' found unopened
        have differs : year ≠ other := fun same => unopened (same ▸ knows.1)
        exact (sound.complete other etag' found (s.opened_eq running ▸ unopened)).update differs
          fun _ h => h
      · intro p' same
        cases same
        exact before.receive phase
  | @endOfBody p year etag missing running phase =>
      have knows := (sound.process p running).knows
      rw [phase] at knows
      obtain ⟨opened, new, received, found, there, inside⟩ := knows
      simp only [Undisturbed, running, Option.map_some, phase] at calm
      refine sound.reading running (congrArg Phase.year phase) (by rw [phase]; nofun) fun _ => ?_
      refine ⟨new, received, found, there, fun accepted => ?_⟩
      have loaded := accepted.resolve_left fun differs => differs rfl
      by_cases whole : missing = []
      · rw [whole, List.append_nil] at inside
        exact inside
      · have refused := calm whole
        rw [there, Option.any_some, loaded] at refused
        cases refused
  | @timedOut p year etag missing running phase known =>
      have knows := (sound.process p running).knows
      rw [phase] at knows
      obtain ⟨opened, new, received, found, there, inside⟩ := knows
      simp only [Undisturbed, running, Option.map_some, phase] at calm
      rw [calm known, List.append_nil] at inside
      exact sound.reading running (congrArg Phase.year phase) (by rw [phase]; nofun)
        fun _ => ⟨new, received, found, there, fun _ => inside⟩
  | bodyError running phase => exact sound.raised running
  | @load p year source content running phase there loaded =>
      have before := sound.process p running
      have current : p.phase.year = some year := congrArg Phase.year phase
      have knows := before.knows
      rw [phase] at knows
      refine sound.phase running (.refl _) (fun _ _ => nofun) (fun _ other opened _ => ?_) True.intro
      by_cases same : year = other
      · subst same
        obtain ⟨new, content', found, there', inside⟩ := knows opened
        cases there.symm.trans there'
        exact ⟨new, found, content, there, inside (Or.inr loaded)⟩
      · refine before.finished (by rw [phase]; nofun) other opened ?_
        rw [current]
        exact fun equal => same (Option.some.inj equal)
  | loadError running phase => exact sound.raised running
  | @commit p running phase done =>
      have before := sound.process p running
      have complete := sound.complete
      rw [s.opened_eq running] at complete
      exact System.Sound.ends (s := { s with etags := p.etags }) fun year etag found =>
        before.committed complete phase found
  | close running phase => exact sound.abandoned calm

/-! ## Histories -/

theorem System.Sound.start (disk : Text → Option Body) : (System.start disk).Sound decode where
  complete _ _ found := nomatch found
  process _ running := nomatch running

theorem sound_of_run {disk : Text → Option Body} {actions : List Action}
    (run : Run (fun s a s' => Undisturbed decode s a ∧ Step decode s a s') (.start disk) actions s) :
    s.Sound decode :=
  run.invariant (I := fun _ s => s.Sound decode) (.start disk) fun _ _ _ _ sound step =>
    (moves_of_step step.2).sound step.1 sound

/--
In every undisturbed history the committed etags belong to the files on the
disk, except for what a run that is under way has opened itself, and the file
that is read after a 304 or a timeout is the whole body that came with its etag.
-/
theorem coherent_of_undisturbed {disk : Text → Option Body} {actions : List Action}
    (run : Run (fun s a s' => Undisturbed decode s a ∧ Step decode s a s') (.start disk) actions s) :
    (s.process = none → s.Coherent) ∧
      (∀ year etag, s.etags year = some etag → year ∉ s.opened → s.Complete year etag) ∧
        ∀ p year source etag, s.process = some p → p.phase = .reading year source →
          source ≠ .downloaded → p.etags year = some etag → s.Complete year etag := by
  have sound := sound_of_run run
  refine ⟨fun idle year etag found => ?_, sound.complete, fun p year source etag => ?_⟩
  · exact sound.complete year etag found (by simp [System.opened, idle])
  · intro running phase cached found
    have before := sound.process p running
    have knows := before.knows
    rw [phase] at knows
    by_cases opened : year ∈ p.opened
    · obtain ⟨new, content, found', there, inside⟩ := knows opened
      cases found.symm.trans found'
      exact ⟨content, there, inside (Or.inl cached)⟩
    · refine sound.complete year etag (before.unopened year opened ▸ found) ?_
      rw [s.opened_eq running]
      exact opened

/-! ## One feed -/

instance (s : System) (a : Action) : Decidable (Undisturbed decode s a) := by
  unfold Undisturbed
  split <;> infer_instance

/-- A feed without entries, as it is compressed. -/
def emptyFeed : Body :=
  [31, 139, 8, 0, 0, 0, 0, 0, 2, 255, 171, 86, 114, 14, 115, 141, 247, 44, 73, 205, 45, 86, 178, 82,
    136, 142, 173, 5, 0, 114, 254, 254, 240, 17, 0, 0, 0]

def decodeEmpty (content : Body) : Option Json :=
  if content = emptyFeed then some (.object [("CVE_Items".toList, .array [])]) else none

def firstYear : Text := "2002".toList

/-- The server has a feed for the first year and none for the others. -/
def firstRun : List Action :=
  [.start 2026, .answer (.response (some ['a']) emptyFeed), .receive emptyFeed, .endOfBody, .load] ++
    List.replicate 25 (.answer (.httpError 404)) ++ [.commit]

/-- The feed is new, and the run ends before its body is there. -/
def brokenRun : List Action := [.start 2026, .answer (.response (some ['b']) emptyFeed), .crash]

/-- The next run finds the feed unchanged. -/
def cachedRun : List Action := [.start 2026, .answer (.httpError 304), .load]

def calmNext (decode : Body → Option Json) (s : System) (a : Action) : Option System :=
  if Undisturbed decode s a then act decode s a else none

theorem undisturbed_of_calmNext (next : calmNext decode s a = some s') :
    Undisturbed decode s a ∧ Step decode s a s' := by
  unfold calmNext at next
  split at next
  · rename_i calm
    exact ⟨calm, next⟩
  · cases next

theorem cachedRun_complete :
    ∃ s, Run (fun s a s' => Undisturbed decodeEmpty s a ∧ Step decodeEmpty s a s')
        (.start fun _ => none) (firstRun ++ cachedRun) s ∧
      s.Complete firstYear ['a'] := by
  have evaluated : ((firstRun ++ cachedRun).foldlM (calmNext decodeEmpty)
      (.start fun _ => none)).any (fun s =>
        decide (s.etags firstYear = some ['a'] ∧ firstYear ∉ s.opened)) = true := by decide +kernel
  obtain ⟨s, computed, facts⟩ := (Option.any_eq_true _ _).mp evaluated
  have run := (Run.of_foldlM computed).mono fun _ _ _ => undisturbed_of_calmNext
  obtain ⟨found, unopened⟩ := of_decide_eq_true facts
  exact ⟨s, run, (coherent_of_undisturbed run).2.1 firstYear _ found unopened⟩

/-- The etag of the first run stays, and the file is empty. -/
theorem brokenRun_not_coherent :
    ∃ s, Run (Step decodeEmpty) (.start fun _ => none) (firstRun ++ brokenRun) s ∧
      s.process = none ∧ ¬ s.Coherent := by
  have evaluated : ((firstRun ++ brokenRun).foldlM (act decodeEmpty) (.start fun _ => none)).any
      (fun s => s.process.isNone && decide (s.etags firstYear = some ['a'] ∧
        s.disk (cacheName firstYear) = some [] ∧
          ∀ answer ∈ s.sent, answer.2.2 ≠ [])) = true := by decide +kernel
  obtain ⟨s, computed, facts⟩ := (Option.any_eq_true _ _).mp evaluated
  obtain ⟨idle, facts⟩ := Bool.and_eq_true_iff.mp facts
  obtain ⟨found, empty, sent⟩ := of_decide_eq_true facts
  refine ⟨s, .of_foldlM computed, Option.isNone_iff_eq_none.mp idle, fun coherent => ?_⟩
  obtain ⟨body, there, inside⟩ := coherent firstYear _ found
  cases empty.symm.trans there
  exact sent _ inside rfl

end GnomeBuildMeta.Cve
