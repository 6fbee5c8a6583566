import GnomeBuildMeta.Cve.Database

/-!
# The etags and the tables

A committed etag keeps its file from being downloaded again.  This is right only
if the tables have what the server has sent with that etag.
-/

namespace GnomeBuildMeta.Cve

open Containers Control

variable {decode : Body → Option Json} {s s' : Database (List Feed)} {a : Action}

/-- The feed in the file of the year is one of those that were read. -/
def System.Read (decode : Body → Option Json) (s : System) (feeds : List Feed) (year : Text) : Prop :=
  ∃ feed ∈ feeds, s.feed decode year = some feed

/-- Every etag stands for a feed that was read, as far as its file was not opened since. -/
structure Database.Covered (decode : Body → Option Json) (s : Database (List Feed)) : Prop where
  committed : ∀ year etag, s.system.etags year = some etag → year ∉ s.system.opened →
    s.system.Read decode s.tables year
  before : ∀ p, s.system.process = some p → s.tables ⊆ s.pending
  finished : ∀ p, s.system.process = some p → p.phase ≠ .raised → ∀ year ∈ p.opened,
    p.phase.year ≠ some year → s.system.Read decode s.pending year

namespace System.Read

variable {system : System} {feeds more : List Feed} {year : Text}

theorem mono (read : system.Read decode feeds year) (fewer : feeds ⊆ more) : system.Read decode more year := by
  obtain ⟨feed, inside, found⟩ := read
  exact ⟨feed, fewer inside, found⟩

/-- Only the file counts. -/
theorem congr {other : System} (read : system.Read decode feeds year)
    (same : other.disk (cacheName year) = system.disk (cacheName year)) : other.Read decode feeds year := by
  obtain ⟨feed, inside, found⟩ := read
  refine ⟨feed, inside, ?_⟩
  rw [System.feed, same]
  exact found

/-- The file of another year is written to. -/
theorem update {other : Text} {content : Option Body} {etags : Text → Option Text}
    {sent : List (Text × Text × Body)} {process : Option Process} (read : system.Read decode feeds year)
    (differs : other ≠ year) :
    System.Read decode ⟨Function.update system.disk (cacheName other) content, etags, sent, process⟩ feeds
      year := by
  refine read.congr (Function.update_of_ne (fun same => differs ?_) _ _)
  exact (cacheName_injective same).symm

end System.Read

theorem System.exists_feed_of_loads (system : System) {year : Text} {content : Body}
    (there : system.disk (cacheName year) = some content) (loaded : loads decode content = true) :
    ∃ feed, system.feed decode year = some feed := by
  unfold loads at loaded
  split at loaded
  · rename_i tree decoded
    cases inserted : insertFeed tree with
    | error e =>
        rw [inserted] at loaded
        cases loaded
    | ok feed =>
        refine ⟨feed, ?_⟩
        rw [System.feed, there, Option.bind_some, decoded, Option.bind_some, inserted]
        rfl
  · cases loaded

/-- A run is over without a commit, and has opened no file whose etag is committed. -/
theorem Database.Covered.abandoned (covered : s.Covered decode)
    (calm : ∀ year ∈ s.system.opened, s.system.etags year = none) (pending : List Feed) :
    Database.Covered decode ⟨{ s.system with process := none }, s.tables, pending⟩ where
  committed year etag found _ := by
    have unopened : year ∉ s.system.opened := fun opened => by
      cases found.symm.trans (calm year opened)
    exact (covered.committed year etag found unopened).congr rfl
  before _ running := by cases running
  finished _ running := by cases running

/-- A step that leaves the files and the tables alone. -/
theorem Database.Covered.phase {p : Process} {after : Phase} {timeout : Nat} {todo : List Text}
    {pending : List Feed} (covered : s.Covered decode) (running : s.system.process = some p)
    (more : s.pending ⊆ pending)
    (finished : after ≠ .raised → ∀ year ∈ p.opened, after.year ≠ some year →
      s.system.Read decode pending year) :
    Database.Covered decode
      ⟨{ s.system with process := some ⟨p.etags, timeout, todo, after, p.opened⟩ }, s.tables, pending⟩ where
  committed year etag found unopened :=
    (covered.committed year etag found (s.system.opened_eq running ▸ unopened)).congr rfl
  before _ _ := List.Subset.trans (covered.before p running) more
  finished p' same proper year opened differs := by
    cases same
    exact (finished proper year opened differs).congr rfl

theorem Database.Covered.raised {p : Process} {pending : List Feed} (covered : s.Covered decode)
    (running : s.system.process = some p) (more : s.pending ⊆ pending) :
    Database.Covered decode
      ⟨{ s.system with process := some { p with phase := .raised } }, s.tables, pending⟩ :=
  covered.phase running more fun impossible => absurd rfl impossible

/-- Between two years all files that the run has opened are read. -/
theorem Database.Covered.starting {p : Process} {year : Text} (covered : s.Covered decode)
    (running : s.system.process = some p) (phase : p.phase = .starting) (opened : year ∈ p.opened) :
    s.system.Read decode s.pending year := by
  refine covered.finished p running ?_ year opened ?_
  · rw [phase]
    intro impossible
    cases impossible
  · rw [phase]
    intro impossible
    cases impossible

/-- While one year is at hand the files of the others are read. -/
theorem Database.Covered.beside {p : Process} {year other : Text} (covered : s.Covered decode)
    (running : s.system.process = some p) (current : p.phase.year = some year) (opened : other ∈ p.opened)
    (differs : year ≠ other) : s.system.Read decode s.pending other := by
  refine covered.finished p running ?_ other opened ?_
  · intro raised
    rw [raised] at current
    cases current
  · rw [current]
    exact fun same => differs (Option.some.inj same)

theorem Database.Covered.step (covered : s.Covered decode) (sound : s.system.Sound decode)
    (calm : Undisturbed decode s.system a) (step : s.Step decode append a s') : s'.Covered decode := by
  obtain ⟨system, moved, rfl⟩ := Option.map_eq_some_iff.mp step
  cases moves_of_step moved with
  | start idle =>
      refine ⟨fun year etag found _ => ?_, fun _ _ _ inside => inside, fun p same _ year inside => ?_⟩
      · exact (covered.committed year etag found (by simp [System.opened, idle])).congr rfl
      · cases same
        cases inside
  | crash running => exact covered.abandoned calm _
  | close running phase => exact covered.abandoned calm _
  | @response p answer year new todo body timeout running phase next =>
      refine ⟨fun other etag found unopened => ?_, fun _ _ => covered.before p running,
        fun p' same _ other opened differs => ?_⟩
      · have unopened' : other ∉ s.system.opened := by
          rw [s.system.opened_eq running]
          exact List.not_mem_of_not_mem_cons unopened
        exact (covered.committed other etag found unopened').update (List.ne_of_not_mem_cons unopened).symm
      · cases same
        have differs : year ≠ other := fun same => differs (congrArg some same)
        have opened := (List.mem_cons.mp opened).resolve_left differs.symm
        exact (covered.starting running phase opened).update differs
  | @noBody p answer year todo timeout after running phase next goesOn =>
      refine covered.phase running (fun _ inside => inside) fun _ other opened _ => ?_
      exact covered.starting running phase opened
  | @receive p year etag buf missing running phase =>
      have current : p.phase.year = some year := congrArg Phase.year phase
      have knows := (sound.process p running).knows
      rw [phase] at knows
      refine ⟨fun other etag' found unopened => ?_, fun _ _ => covered.before p running,
        fun p' same _ other opened differs => ?_⟩
      · have differs : year ≠ other := fun same => unopened (same ▸ knows.1)
        exact (covered.committed other etag' found (s.system.opened_eq running ▸ unopened)).update differs
      · cases same
        have differs : year ≠ other := fun same => differs (congrArg some same)
        exact (covered.beside running current opened differs).update differs
  | @endOfBody p year etag missing running phase =>
      have current : p.phase.year = some year := congrArg Phase.year phase
      refine covered.phase running (fun _ inside => inside) fun _ other opened differs => ?_
      exact covered.beside running current opened fun same => differs (congrArg some same)
  | @timedOut p year etag missing running phase known =>
      have current : p.phase.year = some year := congrArg Phase.year phase
      refine covered.phase running (fun _ inside => inside) fun _ other opened differs => ?_
      exact covered.beside running current opened fun same => differs (congrArg some same)
  | bodyError running phase => exact covered.raised running fun _ inside => inside
  | @load p year source content running phase there loaded =>
      have current : p.phase.year = some year := congrArg Phase.year phase
      obtain ⟨feed, found⟩ := s.system.exists_feed_of_loads there loaded
      have atHand : s.system.feedAtHand decode = some feed := by
        rw [System.feedAtHand, running, Option.map_some, phase]
        exact found
      simp only [atHand, Option.elim_some]
      refine covered.phase running (List.subset_append_left _ _) fun _ other opened _ => ?_
      by_cases same : year = other
      · exact same ▸ ⟨feed, by simp [append], found⟩
      · exact (covered.beside running current opened same).mono (List.subset_append_left _ _)
  | @loadError p year source running phase =>
      refine covered.raised running fun feed inside => ?_
      cases s.system.feedAtHand decode with
      | none => exact inside
      | some _ => exact List.mem_append_left _ inside
  | @commit p running phase done =>
      have before := sound.process p running
      refine ⟨fun year etag found _ => ?_, fun _ impossible => (by cases impossible),
        fun _ impossible => (by cases impossible)⟩
      by_cases opened : year ∈ p.opened
      · exact (covered.starting running phase opened).congr rfl
      · have old : s.system.etags year = some etag := before.unopened year opened ▸ found
        have read := covered.committed year etag old (s.system.opened_eq running ▸ opened)
        exact (read.mono (covered.before p running)).congr rfl

/-! ## Histories -/

theorem covered_of_run {disk : Text → Option Body} {actions : List Action}
    (run : Run (fun s a s' => Undisturbed decode s.system a ∧ Database.Step decode append s a s')
      (.start disk []) actions s) : s.system.Sound decode ∧ s.Covered decode := by
  refine run.invariant (I := fun _ s => s.system.Sound decode ∧ s.Covered decode) ⟨.start disk, ?_⟩ ?_
  · constructor
    · intro _ _ found
      cases found
    · intro _ running
      cases running
    · intro _ running
      cases running
  · intro _ s a s' ⟨sound, covered⟩ ⟨calm, step⟩
    exact ⟨(moves_of_step step.system).sound calm sound, covered.step sound calm step⟩

/--
In every undisturbed history a committed etag, as long as no run has opened its
file since, stands for a body of the server that the tables have: each of its
vulnerabilities has its row, and each of their products.
-/
theorem tables_cover_etags {real : Option Rat → Option Text} {disk : Text → Option Body}
    {actions : List Action} {s : Database Tables}
    (run : Run
      (fun s a s' => Undisturbed decode s.system a ∧ Database.Step decode (Tables.insert real) s a s')
      (.start disk .empty) actions s)
    {year etag : Text} (found : s.system.etags year = some etag) (unopened : year ∉ s.system.opened) :
    ∃ body tree feed, (year, etag, body) ∈ s.system.sent ∧ s.system.disk (cacheName year) = some body ∧
      decode body = some tree ∧ insertFeed tree = .ok feed ∧
      (∀ vuln ∈ feed.1, ∃ row ∈ s.tables.cve, row.id = column real vuln.cveId) ∧
      ∀ product ∈ feed.2, product.row real ∈ s.tables.productVuln := by
  obtain ⟨log, followed, rfl⟩ := exists_feeds (Undisturbed decode) run
  obtain ⟨sound, covered⟩ := covered_of_run followed
  obtain ⟨body, there, sent⟩ := sound.complete year etag found unopened
  obtain ⟨feed, read, known⟩ := covered.committed year etag found unopened
  rw [System.feed, there, Option.bind_some, Option.bind_eq_some_iff] at known
  obtain ⟨tree, decoded, inserted⟩ := known
  refine ⟨body, tree, feed, sent, there, decoded, ?_, rows_of_feed read⟩
  cases result : insertFeed tree with
  | error e =>
      rw [result] at inserted
      cases inserted
  | ok feed' =>
      rw [result] at inserted
      cases inserted
      rfl

/-! ## One year -/

def calmStep (s : Database Tables) (a : Action) : Option (Database Tables) :=
  if Undisturbed decodeOne s.system a then s.act decodeOne (Tables.insert noReal) a else none

theorem calm_of_calmStep {s s' : Database Tables} (next : calmStep s a = some s') :
    Undisturbed decodeOne s.system a ∧ Database.Step decodeOne (Tables.insert noReal) s a s' := by
  unfold calmStep at next
  split at next
  · rename_i calm
    exact ⟨calm, next⟩
  · cases next

theorem oneRun_covered : ∃ s : Database Tables,
    Run (fun s a s' => Undisturbed decodeOne s.system a ∧ Database.Step decodeOne (Tables.insert noReal) s a s')
      (.start (fun _ => none) .empty) oneRun s ∧
    ∃ body tree feed, (firstYear, ['a'], body) ∈ s.system.sent ∧
      s.system.disk (cacheName firstYear) = some body ∧ decodeOne body = some tree ∧
      insertFeed tree = .ok feed ∧
      (∀ vuln ∈ feed.1, ∃ row ∈ s.tables.cve, row.id = column noReal vuln.cveId) ∧
      ∀ product ∈ feed.2, product.row noReal ∈ s.tables.productVuln := by
  have evaluated : (oneRun.foldlM calmStep (.start (fun _ => none) .empty)).any (fun s =>
      decide (s.system.etags firstYear = some ['a'] ∧ firstYear ∉ s.system.opened ∧
        s.tables.cve.length = 1 ∧ s.tables.productVuln.length = 1)) = true := by decide +kernel
  obtain ⟨s, computed, facts⟩ := (Option.any_eq_true _ _).mp evaluated
  have run := (Run.of_foldlM computed).mono fun _ _ _ => calm_of_calmStep
  obtain ⟨found, unopened, _, _⟩ := of_decide_eq_true facts
  exact ⟨s, run, tables_cover_etags run found unopened⟩

end GnomeBuildMeta.Cve
