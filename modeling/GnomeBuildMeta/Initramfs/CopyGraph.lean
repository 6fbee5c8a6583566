import GnomeBuildMeta.Initramfs.Analysis

/-!
# Building the graph

A round of the loop gets to know one more path or takes one off the queue, so that
the loop ends.  For a destination of another name the directories that the host
lacks are recorded along with it.
-/

namespace GnomeBuildMeta.Initramfs

open GnomeBuildMeta.Containers GnomeBuildMeta.Control GnomeBuildMeta.Posix

/-! ## Missing directories -/

/-- A path that is the first one or lies above it, nothing on the way being there. -/
inductive MissingUp (host : FileSystem String) : Text → Text → Prop where
  | here {d : Text} (missing : host.lexists d = false) : MissingUp host d d
  | up {d t : Text} (missing : host.lexists d = false) (above : MissingUp host (dirname d) t) :
      MissingUp host d t

variable {host : FileSystem String}

/-- The top is there by whatever slashes it is named. -/
theorem lexists_of_empties {t : Text} (empties : ∀ piece ∈ t, piece = .empty) : host.lexists t = true := by
  obtain ⟨perm, root⟩ := host.get_root
  have top : host.lstat t = some (.dir perm) :=
    FileSystem.lstat_eq_some_iff.mpr ⟨0, [], Nat.zero_le _, (reaches_empties empties).mpr ⟨rfl, rfl⟩, root⟩
  rw [FileSystem.lexists, top]
  rfl

theorem proper_of_missing {t : Text} (missing : host.lexists t = false) : ∃ piece ∈ t, piece ≠ .empty := by
  by_contra none'
  have there : host.lexists t = true := lexists_of_empties fun piece member =>
    by_contra fun other => none' ⟨piece, member, other⟩
  rw [missing] at there
  cases there

theorem weight_dirname_of_missing {t : Text} (missing : host.lexists t = false) :
    weight (dirname t) < weight t :=
  weight_dirname_lt (proper_of_missing missing)

namespace MissingUp

theorem missing {d t : Text} (up : MissingUp host d t) : host.lexists t = false := by
  induction up with
  | here missing => exact missing
  | up _ _ ih => exact ih

theorem start {d t : Text} (up : MissingUp host d t) : host.lexists d = false := by
  cases up with
  | here missing => exact missing
  | up missing _ => exact missing

theorem weight_le {d t : Text} (up : MissingUp host d t) : weight t ≤ weight d := by
  induction up with
  | here _ => exact Nat.le_refl _
  | up missing _ ih =>
      have smaller := weight_dirname_of_missing missing
      omega

theorem iff {d t : Text} (missing : host.lexists d = false) :
    MissingUp host d t ↔ t = d ∨ MissingUp host (Posix.dirname d) t := by
  constructor
  · intro up
    cases up with
    | here _ => exact Or.inl rfl
    | up _ above => exact Or.inr above
  · rintro (rfl | above)
    · exact .here missing
    · exact .up missing above

/-- A directory above a missing one lies above the first path too, if it is missing. -/
theorem dirname {d t : Text} (up : MissingUp host d t) (missing : host.lexists (Posix.dirname t) = false) :
    MissingUp host d (Posix.dirname t) := by
  induction up with
  | here absent => exact .up absent (.here missing)
  | up absent _ ih => exact .up absent (ih missing)

/-- A missing directory is not the path that it is a directory of. -/
theorem not_self (host : FileSystem String) (t : Text) : ¬ MissingUp host (Posix.dirname t) t := by
  intro up
  have bound := up.weight_le
  have smaller := weight_dirname_of_missing up.missing
  omega

end MissingUp

/-! ## The directories of a destination -/

/-- What becomes of the graph when the directories of `prev` are added from `dir` on. -/
structure Parents (host : FileSystem String) (g : Graph) (prev dir : Text) (g' : Graph) (last : Text) :
    Prop where
  missing : ∀ t, MissingUp host dir t → g'.sourceOf t = some none ∧ g'.dependencies t = some [dirname t]
  sources : ∀ t, ¬ MissingUp host dir t → g'.sourceOf t = g.sourceOf t
  others : ∀ t, ¬ MissingUp host dir t → t ≠ prev → g'.dependencies t = g.dependencies t
  prev : g'.dependencies prev = (g.dependencies prev).map fun deps => deps.insert dir
  landing : ∀ x, x = dir ∨ (∃ t, MissingUp host dir t ∧ x = dirname t) → host.lexists x = true → last = x

theorem parents_of_found {g : Graph} {prev dir : Text} (found : host.lexists dir = true) :
    Parents host g prev dir (g.add prev dir) dir := by
  have none' : ∀ t, ¬ MissingUp host dir t := fun t up => by
    have missing := up.start
    rw [found] at missing
    cases missing
  refine ⟨fun t up => absurd up (none' t), fun _ _ => rfl, fun t _ other => if_neg other, if_pos rfl,
    fun x place _ => ?_⟩
  rcases place with same | ⟨t, up, _⟩
  · exact same.symm
  · exact absurd up (none' t)

theorem addParents_spec {fuel : Nat} {g : Graph} {prev dir : Text} (enough : weight dir ≤ fuel)
    (apart : ¬ MissingUp host dir prev) (fresh : ∀ t, MissingUp host dir t → g.sourceOf t = none) :
    Parents host g prev dir (addParents host fuel g prev dir).1 (addParents host fuel g prev dir).2 := by
  induction fuel generalizing g prev dir with
  | zero =>
      have nothing : dir = [] := List.eq_nil_of_length_eq_zero (by
        rw [weight] at enough
        omega)
      subst nothing
      exact parents_of_found (lexists_of_empties fun _ impossible => (List.not_mem_nil impossible).elim)
  | succ fuel ih =>
      rw [addParents]
      split
      case isFalse there =>
        refine parents_of_found ?_
        by_cases root : dir = [.empty, .empty]
        · rw [root]
          exact lexists_of_empties (by simp)
        · exact eq_true_of_ne_false fun missing => there ⟨root, missing⟩
      case isTrue absent =>
        obtain ⟨_, missing⟩ := absent
        have unset : ((g.add prev dir).newSet dir).sourceOf dir = none := fresh dir (.here missing)
        have prevDir : prev ≠ dir := by
          rintro rfl
          exact apart (.here missing)
        have smaller := weight_dirname_of_missing missing
        have fresh' : ∀ t, MissingUp host (dirname dir) t →
            (((g.add prev dir).newSet dir).setSource dir none).sourceOf t = none := by
          intro t up
          have other : t ≠ dir := by
            rintro rfl
            exact MissingUp.not_self _ _ up
          exact (if_neg other).trans (fresh t (.up missing up))
        have spec := ih (by omega : weight (dirname dir) ≤ fuel) (MissingUp.not_self _ dir) fresh'
        simp only [unset, Option.isSome_none, Bool.false_eq_true, if_false]
        refine ⟨fun t up => ?_, fun t outside => ?_, fun t outside other => ?_, ?_, fun x place there => ?_⟩
        · rcases (MissingUp.iff missing).mp up with rfl | above
          · refine ⟨(spec.sources _ (MissingUp.not_self _ _)).trans (if_pos rfl), spec.prev.trans ?_⟩
            simp [Graph.setSource, Graph.newSet]
          · exact spec.missing t above
        · obtain ⟨other, outside'⟩ := not_or.mp fun either => outside ((MissingUp.iff missing).mpr either)
          exact (spec.sources t outside').trans (if_neg other)
        · obtain ⟨notDir, outside'⟩ := not_or.mp fun either => outside ((MissingUp.iff missing).mpr either)
          refine (spec.others t outside' notDir).trans ?_
          exact (if_neg notDir).trans (if_neg other)
        · refine (spec.others prev (fun up => apart (.up missing up)) prevDir).trans ?_
          exact (if_neg prevDir).trans (if_pos rfl)
        · refine spec.landing x ?_ there
          rcases place with rfl | ⟨t, up, same⟩
          · rw [missing] at there
            cases there
          · rcases (MissingUp.iff missing).mp up with rfl | above
            · exact Or.inl same
            · exact Or.inr ⟨t, above, same⟩

variable {env : Env} {root : FileSystem String}

/-! ## The end of the loop -/

/-- Nothing that has a set of dependencies loses it. -/
def Graph.Grows (g g' : Graph) : Prop :=
  ∀ t, (g.dependencies t).isSome = true → (g'.dependencies t).isSome = true

theorem Graph.Grows.trans {g g' g'' : Graph} (one : g.Grows g') (two : g'.Grows g'') : g.Grows g'' :=
  fun t known => two t (one t known)

theorem Graph.grows_newSet (g : Graph) (target : Text) : g.Grows (g.newSet target) := by
  intro t known
  change (if t = target then some [] else g.dependencies t).isSome = true
  split
  · rfl
  · exact known

theorem Graph.grows_add (g : Graph) (target dep : Text) : g.Grows (g.add target dep) := by
  intro t known
  change (if t = target then (g.dependencies t).map fun deps => deps.insert dep
    else g.dependencies t).isSome = true
  split
  · rw [Option.isSome_map]
    exact known
  · exact known

theorem addParents_grows (host : FileSystem String) (fuel : Nat) (g : Graph) (prev dir : Text) :
    g.Grows (addParents host fuel g prev dir).1 := by
  induction fuel generalizing g prev dir with
  | zero => exact g.grows_add prev dir
  | succ fuel ih =>
      rw [addParents]
      split
      · refine ((g.grows_add prev dir).trans ((g.add prev dir).grows_newSet dir)).trans ?_
        dsimp only
        split
        · exact ih _ _ _
        · exact ih (((g.add prev dir).newSet dir).setSource dir none) _ _
      · exact g.grows_add prev dir

/-- A list that holds the directories of its paths holds the one to go on with. -/
theorem addParents_landing {space : List Text} (directory : ∀ t ∈ space, dirname t ∈ space) {fuel : Nat}
    {g : Graph} {prev dir : Text} (inside : dir ∈ space) : (addParents host fuel g prev dir).2 ∈ space := by
  induction fuel generalizing g prev dir with
  | zero => exact inside
  | succ fuel ih =>
      rw [addParents]
      split
      · exact ih (directory dir inside)
      · exact inside

theorem Graph.withParents_grows (g : Graph) (host : FileSystem String) (source target : Text) :
    g.Grows (g.withParents host source target).1 := by
  rw [withParents]
  split
  · exact g.grows_add target _
  · exact addParents_grows host _ g target _

theorem Graph.withParents_landing {space : List Text} (directory : ∀ t ∈ space, dirname t ∈ space)
    (g : Graph) (host : FileSystem String) (source : Text) {target : Text} (inside : target ∈ space) :
    (g.withParents host source target).2 ∈ space := by
  rw [withParents]
  split
  · exact directory target inside
  · exact addParents_landing directory (directory target inside)

theorem Graph.report_grows (g : Graph) (target source : Text) (deps : List Text) :
    g.Grows (g.report target source deps) := by
  intro t known
  by_cases self : t = target
  · obtain ⟨recorded, found, _⟩ := g.dependencies_report target source deps
    rw [self, found]
    rfl
  · rw [dependencies_report_other deps self]
    exact known

/-- Whether a round comes to the analysis of its source. -/
def analysesIn (env : Env) (root : FileSystem String) (g : Graph) (source target : Text) : Bool :=
  !isAlreadyCopied env.host root target && (g.dependencies target).isNone && env.host.lexists source

/-- A round that succeeds keeps what is known and, unless it skips its target, gets to know it. -/
theorem expand_grows {g g' : Graph} {source target : Text} {queue queue' : Queue}
    (round : expand env root g source target queue = .ok (g', queue')) :
    g.Grows g' ∧ (g' = g ∧ queue' = queue ∧ analysesIn env root g source target = false ∨
      g.dependencies target = none ∧ (g'.dependencies target).isSome = true) := by
  have cases' := expanded env root g source target queue
  rw [round] at cases'
  cases cases' with
  | skipped known =>
      refine ⟨fun _ known => known, Or.inl ⟨rfl, rfl, ?_⟩⟩
      rw [analysesIn]
      rcases known with copied | seen
      · rw [copied]
        rfl
      · obtain ⟨recorded, found⟩ := Option.isSome_iff_exists.mp seen
        rw [found]
        simp
  | missing _ unseen _ =>
      exact ⟨g.grows_newSet target, Or.inr ⟨unseen, by simp [Graph.newSet]⟩⟩
  | @recorded deps _ d _ unseen _ _ parents =>
      have later := (g.report target source deps).withParents_grows env.host source target
      rw [parents] at later
      refine ⟨(g.report_grows target source deps).trans later, Or.inr ⟨unseen, later target ?_⟩⟩
      obtain ⟨recorded, found, _⟩ := g.dependencies_report target source deps
      rw [found]
      rfl

/-- What is queued stays in a list that the analyses do not leave. -/
theorem expand_queue {space : List Text} (closed : Closed env space) {g g' : Graph} {source target : Text}
    {queue queue' : Queue} (round : expand env root g source target queue = .ok (g', queue'))
    (inside : target ∈ space) (queued : ∀ e ∈ queue, e.2 ∈ space) : ∀ e ∈ queue', e.2 ∈ space := by
  have cases' := expanded env root g source target queue
  rw [round] at cases'
  cases cases' with
  | skipped _ => exact queued
  | missing _ _ _ => exact queued
  | @recorded deps _ d _ _ present reported parents =>
      intro e member
      rcases List.mem_cons.mp member with rfl | member
      · have landing := (g.report target source deps).withParents_landing closed.directory env.host source inside
        rw [parents] at landing
        exact landing
      · rcases mem_queue_addAll.mp member with old | ⟨dep, among, rfl⟩
        · exact queued e old
        · exact closed.reported source deps present reported dep among

/-- What has a source is in the list. -/
def Graph.Within (g : Graph) (space : List Text) : Prop :=
  ∀ t, (g.sourceOf t).isSome = true → t ∈ space

theorem Graph.Within.setSource {space : List Text} {g : Graph} (within : g.Within space) {target : Text}
    (inside : target ∈ space) (source : Option Text) : (g.setSource target source).Within space := by
  intro t known
  by_cases self : t = target
  · rw [self]
    exact inside
  · change (if t = target then some source else g.sourceOf t).isSome = true at known
    rw [if_neg self] at known
    exact within t known

theorem addParents_within (host : FileSystem String) {space : List Text}
    (directory : ∀ t ∈ space, dirname t ∈ space) (fuel : Nat) {g : Graph} (prev : Text) {dir : Text}
    (inside : dir ∈ space) (within : g.Within space) :
    (addParents host fuel g prev dir).1.Within space := by
  induction fuel generalizing g prev dir with
  | zero => exact within
  | succ fuel ih =>
      rw [addParents]
      have kept : ((g.add prev dir).newSet dir).Within space := within
      split
      · dsimp only
        split
        · exact ih dir (directory dir inside) kept
        · exact ih dir (directory dir inside) (kept.setSource inside none)
      · exact within

theorem expand_within {space : List Text} (closed : Closed env space) {g g' : Graph} {source target : Text}
    {queue queue' : Queue} (round : expand env root g source target queue = .ok (g', queue'))
    (inside : target ∈ space) (within : g.Within space) : g'.Within space := by
  have cases' := expanded env root g source target queue
  rw [round] at cases'
  cases cases' with
  | skipped _ => exact within
  | missing _ _ _ => exact within
  | @recorded deps _ d _ _ _ _ parents =>
      have reported : (g.report target source deps).Within space := by
        intro t known
        rw [Graph.sourceOf_report] at known
        exact within.setSource inside (some source) t known
      rw [Graph.withParents] at parents
      split at parents
      · cases parents
        exact reported
      · have later := addParents_within env.host closed.directory (weight target) target
          (closed.directory target inside) reported
        rw [parents] at later
        exact later

/-- With enough fuel the loop ends, and more of it changes nothing. -/
def GraphEnds (env : Env) (root : FileSystem String) (g : Graph) (queue : Queue) : Prop :=
  ∃ (enough : Nat) (result : Except Halt Graph), result ≠ .error .outOfFuel ∧
    ∀ fuel, enough ≤ fuel → buildGraph env root fuel g queue = result

/-- By induction on the paths that are not known yet, and on the queue for the rounds that skip. -/
theorem graphEnds {space : List Text} (byLocation : env.ByLocation) (closed : Closed env space) (g : Graph)
    (queue : Queue) (queued : ∀ e ∈ queue, e.2 ∈ space) : GraphEnds env root g queue := by
  induction left : unmarked space (fun t => (g.dependencies t).isSome) using Nat.strongRecOn
    generalizing g queue with
  | ind left outer =>
      subst left
      induction queue with
      | nil =>
          refine ⟨0, .ok g, fun impossible => ?_, fun fuel _ => ?_⟩
          · cases impossible
          · cases fuel with
            | zero => rfl
            | succ fuel => rfl
      | cons e queue inner =>
          obtain ⟨source, target⟩ := e
          obtain ⟨inside, rest⟩ := List.forall_mem_cons.mp queued
          have ends : ∀ enough result, result ≠ .error .outOfFuel →
              (∀ fuel, enough ≤ fuel → (expand env root g source target queue >>= fun next =>
                buildGraph env root fuel next.1 next.2) = result) →
              GraphEnds env root g ((source, target) :: queue) := by
            intro enough result known later
            refine ⟨enough + 1, result, known, fun fuel bound => ?_⟩
            cases fuel with
            | zero => omega
            | succ fuel => exact later fuel (by omega)
          cases round : expand env root g source target queue with
          | error e =>
              refine ends 0 (.error e) (fun impossible => ?_) fun fuel _ => by rw [round]; rfl
              cases impossible
              have cases' := expanded env root g source target queue
              rw [round] at cases'
              cases cases' with
              | raised _ _ _ raises => exact getDependencies_ends byLocation source raises
          | ok next =>
              obtain ⟨g', queue'⟩ := next
              have goesOn : GraphEnds env root g' queue' := by
                obtain ⟨grows, ⟨rfl, rfl, _⟩ | ⟨unseen, seen⟩⟩ := expand_grows round
                · exact inner rest
                · refine outer _ (unmarked_lt grows inside ?_ seen) g' queue'
                    (expand_queue closed round inside rest) rfl
                  rw [unseen]
                  rfl
              obtain ⟨enough, result, known, later⟩ := goesOn
              refine ends enough result known fun fuel bound => ?_
              rw [round]
              exact later fuel bound

theorem buildGraph_within {space : List Text} (closed : Closed env space) {fuel : Nat} {g g' : Graph}
    {queue : Queue} (queued : ∀ e ∈ queue, e.2 ∈ space) (within : g.Within space)
    (done : buildGraph env root fuel g queue = .ok g') : g'.Within space := by
  induction fuel generalizing g queue with
  | zero =>
      cases queue with
      | nil =>
          cases done
          exact within
      | cons e rest => cases done
  | succ fuel ih =>
      cases queue with
      | nil =>
          cases done
          exact within
      | cons e queue =>
          obtain ⟨source, target⟩ := e
          obtain ⟨inside, rest⟩ := List.forall_mem_cons.mp queued
          obtain ⟨⟨g₁, queue₁⟩, round, goesOn⟩ := bind_ok_iff.mp done
          exact ih (expand_queue closed round inside rest) (expand_within closed round inside within) goesOn

/-! ## The analyses -/

/-- The targets for which the loop has come to the analysis, the last one perhaps in vain. -/
def analyses (env : Env) (root : FileSystem String) : Nat → Graph → Queue → List Text
  | _, _, [] => []
  | 0, _, _ :: _ => []
  | fuel + 1, g, (source, target) :: queue =>
      let here := if analysesIn env root g source target then [target] else []
      match expand env root g source target queue with
      | .ok (g, queue) => here ++ analyses env root fuel g queue
      | .error _ => here

theorem unseen_of_analysesIn {g : Graph} {source target : Text}
    (analysed : analysesIn env root g source target = true) : g.dependencies target = none := by
  rw [analysesIn, Bool.and_eq_true, Bool.and_eq_true] at analysed
  exact Option.isNone_iff_eq_none.mp analysed.1.2

/-- By induction on the fuel: what is analysed later is not known yet. -/
theorem analyses_nodup (fuel : Nat) (g : Graph) (queue : Queue) :
    (analyses env root fuel g queue).Nodup ∧
      ∀ t ∈ analyses env root fuel g queue, g.dependencies t = none := by
  induction fuel generalizing g queue with
  | zero =>
      cases queue with
      | nil => exact ⟨List.nodup_nil, fun _ impossible => (List.not_mem_nil impossible).elim⟩
      | cons e rest => exact ⟨List.nodup_nil, fun _ impossible => (List.not_mem_nil impossible).elim⟩
  | succ fuel ih =>
      cases queue with
      | nil => exact ⟨List.nodup_nil, fun _ impossible => (List.not_mem_nil impossible).elim⟩
      | cons e queue =>
          obtain ⟨source, target⟩ := e
          have here : ∀ t ∈ (if analysesIn env root g source target then [target] else []),
              t = target ∧ analysesIn env root g source target = true := by
            intro t member
            split at member
            · exact ⟨List.mem_singleton.mp member, ‹_›⟩
            · cases member
          have single : (if analysesIn env root g source target then [target] else []).Nodup := by
            split
            · exact List.nodup_singleton target
            · exact List.nodup_nil
          rw [analyses]
          cases round : expand env root g source target queue with
          | error e =>
              refine ⟨single, fun t member => ?_⟩
              obtain ⟨rfl, analysed⟩ := here t member
              exact unseen_of_analysesIn analysed
          | ok next =>
              obtain ⟨g', queue'⟩ := next
              obtain ⟨grows, progress⟩ := expand_grows round
              obtain ⟨nodup, later⟩ := ih g' queue'
              have unseen : ∀ t ∈ analyses env root fuel g' queue', g.dependencies t = none := by
                intro t member
                refine Option.not_isSome_iff_eq_none.mp fun known => ?_
                have still := grows t known
                rw [later t member] at still
                cases still
              refine ⟨List.nodup_append.mpr ⟨single, nodup, ?_⟩, fun t member => ?_⟩
              · rintro t member u later' rfl
                obtain ⟨rfl, analysed⟩ := here t member
                rcases progress with ⟨_, _, skips⟩ | ⟨_, seen⟩
                · rw [analysed] at skips
                  cases skips
                · rw [later t later'] at seen
                  cases seen
              · rcases List.mem_append.mp member with now | then'
                · obtain ⟨rfl, analysed⟩ := here t now
                  exact unseen_of_analysesIn analysed
                · exact unseen t then'

/-! ## What a round records -/

/-- The target is recorded with what it needs, and nothing else but its missing directories is. -/
structure RoundRecords (host : FileSystem String) (g : Graph) (source target : Text) (deps : List Text)
    (g' : Graph) (d : Text) : Prop where
  itself : g'.sourceOf target = some (some source)
  needs : ∃ recorded, g'.dependencies target = some recorded ∧
    ∀ x, x ∈ recorded ↔ x ∈ deps ∨ x = dirname target
  missing : source ≠ target → ∀ t, MissingUp host (dirname target) t →
    g'.sourceOf t = some none ∧ g'.dependencies t = some [dirname t]
  others : ∀ t, t ≠ target → source = target ∨ ¬ MissingUp host (dirname target) t →
    g'.sourceOf t = g.sourceOf t ∧ g'.dependencies t = g.dependencies t
  landing : ∀ x, x = dirname target ∨
    (source ≠ target ∧ ∃ t, MissingUp host (dirname target) t ∧ x = dirname t) →
      host.lexists x = true → d = x

theorem roundRecords {g g' : Graph} {source target d : Text} {deps : List Text}
    (fresh : source = target ∨ ∀ t, MissingUp host (dirname target) t → g.sourceOf t = none)
    (parents : (g.report target source deps).withParents host source target = (g', d)) :
    RoundRecords host g source target deps g' d := by
  obtain ⟨recorded, found, same⟩ := Graph.dependencies_report g target source deps
  rw [Graph.withParents] at parents
  split at parents
  case isTrue self =>
    cases parents
    refine ⟨?_, ⟨recorded.insert (dirname target), ?_, fun x => ?_⟩, fun other => absurd self other,
      fun t other _ => ⟨?_, ?_⟩, fun x place _ => ?_⟩
    · exact (Graph.sourceOf_report deps target).trans (if_pos rfl)
    · exact Graph.dependencies_add _ found
    · rw [List.mem_insert_iff, same, or_comm]
    · exact (Graph.sourceOf_report deps t).trans (if_neg other)
    · exact (if_neg other).trans (Graph.dependencies_report_other deps other)
    · rcases place with same | ⟨other, _⟩
      · exact same.symm
      · exact absurd self other
  case isFalse differ =>
    have notSelf := MissingUp.not_self host target
    have unset : ∀ t, MissingUp host (dirname target) t →
        (g.report target source deps).sourceOf t = none := by
      intro t up
      have other : t ≠ target := by
        rintro rfl
        exact notSelf up
      rw [Graph.sourceOf_report, if_neg other]
      exact fresh.resolve_left differ t up
    have enough : weight (dirname target) ≤ weight target ∨ host.lexists (dirname target) = true := by
      cases there : host.lexists (dirname target) with
      | true => exact Or.inr rfl
      | false =>
          refine Or.inl ?_
          rcases dirname_settles target with smaller | stays
          · exact Nat.le_of_lt smaller
          · have impossible := weight_dirname_of_missing there
            rw [stays] at impossible
            omega
    have spec : Parents host (g.report target source deps) target (dirname target) g' d := by
      rcases enough with bound | there
      · have general := addParents_spec bound notSelf unset
        rwa [parents] at general
      · have first : Parents host (g.report target source deps) target (dirname target) _ _ :=
          parents_of_found there
        have stops : addParents host (weight target) (g.report target source deps) target (dirname target) =
            ((g.report target source deps).add target (dirname target), dirname target) := by
          cases weight target with
          | zero => rfl
          | succ fuel => rw [addParents, if_neg (by simp [there])]
        rw [stops] at parents
        cases parents
        exact first
    refine ⟨?_, ⟨recorded.insert (dirname target), ?_, fun x => ?_⟩, fun _ => spec.missing,
      fun t other outside => ⟨?_, ?_⟩, fun x place => spec.landing x (place.imp_right And.right)⟩
    · exact (spec.sources target notSelf).trans ((Graph.sourceOf_report deps target).trans (if_pos rfl))
    · rw [spec.prev, found]
      rfl
    · rw [List.mem_insert_iff, same, or_comm]
    · exact (spec.sources t (outside.resolve_left differ)).trans
        ((Graph.sourceOf_report deps t).trans (if_neg other))
    · exact (spec.others t (outside.resolve_left differ) other).trans (Graph.dependencies_report_other deps other)

/-! ## The graph in the end -/

/-- What a run for `source` and `dest` is to copy, of all that it reaches. -/
inductive Needed (env : Env) (root : FileSystem String) (source dest : Text) : Text → Prop where
  | destination (new : isAlreadyCopied env.host root dest = false)
      (present : env.host.lexists source = true) : Needed env root source dest dest
  | directory {t : Text} (differ : source ≠ dest) (up : MissingUp env.host (dirname dest) t) :
      Needed env root source dest t
  | dependency {t : Text} (other : t ≠ dest) (fresh : Fresh env root t) : Needed env root source dest t

/-- What is reached over recorded dependencies. -/
inductive Reached (g : Graph) (dest : Text) : Text → Prop where
  | start : Reached g dest dest
  | dep {t d : Text} {recorded : List Text} (before : Reached g dest t)
      (found : g.dependencies t = some recorded) (inside : d ∈ recorded) : Reached g dest d

/-- What the graph holds about a path that came up after the first round. -/
inductive Entry (env : Env) (root : FileSystem String) (g : Graph) (t : Text) : Prop where
  | unknown (noSource : g.sourceOf t = none) (nothing : g.dependencies t = none)
  | missing (noSource : g.sourceOf t = none) (nothing : g.dependencies t = some [])
      (absent : env.host.lexists t = false)
  | recorded {deps recorded : List Text} (fresh : Fresh env root t)
      (source : g.sourceOf t = some (some t)) (reported : getDependencies env t = .ok deps)
      (found : g.dependencies t = some recorded)
      (same : ∀ d, d ∈ recorded ↔ d ∈ deps ∨ d = dirname t)

theorem Entry.congr {g g' : Graph} {t : Text} (entry : Entry env root g t)
    (source : g'.sourceOf t = g.sourceOf t) (dependencies : g'.dependencies t = g.dependencies t) :
    Entry env root g' t := by
  cases entry with
  | unknown noSource nothing => exact .unknown (source.trans noSource) (dependencies.trans nothing)
  | missing noSource nothing absent =>
      exact .missing (source.trans noSource) (dependencies.trans nothing) absent
  | recorded fresh self reported found same =>
      exact .recorded fresh (source.trans self) reported (dependencies.trans found) same

namespace Entry

variable {g : Graph} {t : Text}

theorem noSource (entry : Entry env root g t) (nothing : g.dependencies t = none) : g.sourceOf t = none := by
  cases entry with
  | unknown noSource _ => exact noSource
  | missing noSource _ _ => exact noSource
  | recorded _ _ _ found _ =>
      rw [nothing] at found
      cases found

theorem sourceOf_ne (entry : Entry env root g t) : g.sourceOf t ≠ some none := by
  intro same
  cases entry with
  | unknown noSource _ | missing noSource _ _ =>
      rw [noSource] at same
      cases same
  | recorded _ self _ _ _ =>
      rw [self] at same
      cases same

theorem isSome_of_mem (entry : Entry env root g t) {recorded : List Text} {d : Text}
    (found : g.dependencies t = some recorded) (inside : d ∈ recorded) : (g.sourceOf t).isSome = true := by
  cases entry with
  | unknown _ nothing =>
      rw [nothing] at found
      cases found
  | missing _ nothing _ =>
      rw [nothing] at found
      cases found
      exact (List.not_mem_nil inside).elim
  | recorded _ self _ _ _ =>
      rw [self]
      rfl

theorem isSome_of_fresh (entry : Entry env root g t) (fresh : Fresh env root t)
    (known : (g.dependencies t).isSome = true) : (g.sourceOf t).isSome = true := by
  cases entry with
  | unknown _ nothing =>
      rw [nothing] at known
      cases known
  | missing _ _ absent =>
      rw [fresh.2] at absent
      cases absent
  | recorded _ self _ _ _ =>
      rw [self]
      rfl

end Entry

/-- What the rounds after the first keep. -/
structure Later (env : Env) (root : FileSystem String) (first g : Graph) (queue : Queue) : Prop where
  kept : ∀ t, (first.dependencies t).isSome = true →
    g.sourceOf t = first.sourceOf t ∧ g.dependencies t = first.dependencies t
  entries : ∀ t, first.dependencies t = none → Entry env root g t
  queued : ∀ e ∈ queue, e.1 = e.2
  due : ∀ t recorded d, g.dependencies t = some recorded → d ∈ recorded → Fresh env root d →
    (g.dependencies d).isSome = true ∨ (d, d) ∈ queue

namespace Later

variable {first g g' : Graph} {queue queue' : Queue} {x : Text}

/-- A target that is not known yet is not of the first round. -/
theorem apart (later : Later env root first g queue) (unseen : g.dependencies x = none) {t : Text}
    (early : (first.dependencies t).isSome = true) : t ≠ x := by
  rintro rfl
  rw [← (later.kept t early).2, unseen] at early
  cases early

theorem due_cons (later : Later env root first g ((x, x) :: queue)) {t d : Text} {recorded : List Text}
    (found : g.dependencies t = some recorded) (inside : d ∈ recorded) (fresh : Fresh env root d) :
    (g.dependencies d).isSome = true ∨ d = x ∨ (d, d) ∈ queue := by
  rcases later.due t recorded d found inside fresh with done | member
  · exact Or.inl done
  · rcases List.mem_cons.mp member with same | old
    · exact Or.inr (Or.inl (congrArg Prod.fst same))
    · exact Or.inr (Or.inr old)

theorem expand (later : Later env root first g ((x, x) :: queue))
    (round : Initramfs.expand env root g x x queue = .ok (g', queue')) :
    Later env root first g' queue' := by
  have grows := (expand_grows round).1
  have rest : ∀ e ∈ queue, e.1 = e.2 := fun e member => later.queued e (List.mem_cons_of_mem _ member)
  have cases' := expanded env root g x x queue
  rw [round] at cases'
  cases cases' with
  | skipped known =>
      refine ⟨later.kept, later.entries, rest, fun t recorded d found inside fresh => ?_⟩
      rcases later.due_cons found inside fresh with done | rfl | old
      · exact Or.inl done
      · refine Or.inl (known.resolve_left ?_)
        rw [fresh.1]
        exact Bool.false_ne_true
      · exact Or.inr old
  | missing new unseen absent =>
      refine ⟨fun t early => ?_, fun t early => ?_, rest, fun t recorded d found inside fresh => ?_⟩
      · obtain ⟨source, dependencies⟩ := later.kept t early
        exact ⟨source, (if_neg (later.apart unseen early)).trans dependencies⟩
      · by_cases self : t = x
        · subst self
          exact .missing ((later.entries t early).noSource unseen) (if_pos rfl) absent
        · exact (later.entries t early).congr rfl (if_neg self)
      · have before : g.dependencies t = some recorded := by
          by_cases self : t = x
          · rw [self] at found
            cases (if_pos rfl : (g.newSet x).dependencies x = some []).symm.trans found
            cases inside
          · exact (if_neg self).symm.trans found
        rcases later.due_cons before inside fresh with done | rfl | old
        · exact Or.inl (grows d done)
        · rw [fresh.2] at absent
          cases absent
        · exact Or.inr old
  | @recorded deps _ next new unseen present reported parents =>
      have records := roundRecords (Or.inl rfl) parents
      obtain ⟨set, found, same⟩ := records.needs
      have other : ∀ t, t ≠ x → g'.sourceOf t = g.sourceOf t ∧ g'.dependencies t = g.dependencies t :=
        fun t differs => records.others t differs (Or.inl rfl)
      refine ⟨fun t early => ?_, fun t early => ?_, fun e member => ?_,
        fun t recorded d found' inside fresh => ?_⟩
      · obtain ⟨source, dependencies⟩ := other t (later.apart unseen early)
        exact ⟨source.trans (later.kept t early).1, dependencies.trans (later.kept t early).2⟩
      · by_cases self : t = x
        · subst self
          exact .recorded ⟨new, present⟩ records.itself reported found same
        · exact (later.entries t early).congr (other t self).1 (other t self).2
      · rcases List.mem_cons.mp member with rfl | member
        · rfl
        · rcases mem_queue_addAll.mp member with old | ⟨dep, _, rfl⟩
          · exact rest e old
          · rfl
      · by_cases self : t = x
        · subst self
          cases found.symm.trans found'
          rcases (same d).mp inside with among | directory
          · exact Or.inr (List.mem_cons_of_mem _ (mem_queue_addAll.mpr (Or.inr ⟨d, among, rfl⟩)))
          · rw [records.landing d (Or.inl directory) fresh.2]
            exact Or.inr List.mem_cons_self
        · rw [(other t self).2] at found'
          rcases later.due_cons found' inside fresh with done | rfl | old
          · exact Or.inl (grows d done)
          · rw [found]
            exact Or.inl rfl
          · exact Or.inr (List.mem_cons_of_mem _ (mem_queue_addAll.mpr (Or.inl old)))

theorem buildGraph {fuel : Nat} (later : Later env root first g queue)
    (done : Initramfs.buildGraph env root fuel g queue = .ok g') : Later env root first g' [] := by
  induction fuel generalizing g queue with
  | zero =>
      cases queue with
      | nil =>
          cases done
          exact later
      | cons e rest => cases done
  | succ fuel ih =>
      cases queue with
      | nil =>
          cases done
          exact later
      | cons e rest =>
          obtain ⟨source, target⟩ := e
          have self : source = target := later.queued _ List.mem_cons_self
          subst self
          obtain ⟨⟨g₁, queue₁⟩, round, goesOn⟩ := bind_ok_iff.mp done
          exact ih (later.expand round) goesOn

end Later

/-- After the first round a path is the destination, or a directory of it, or nothing is known of it. -/
theorem RoundRecords.kinds {source dest d : Text} {deps : List Text} {first : Graph}
    (records : RoundRecords env.host .empty source dest deps first d) (t : Text) :
    t = dest ∨ (source ≠ dest ∧ MissingUp env.host (dirname dest) t) ∨
      (t ≠ dest ∧ first.sourceOf t = none ∧ first.dependencies t = none) := by
  by_cases atDest : t = dest
  · exact Or.inl atDest
  · by_cases up : source ≠ dest ∧ MissingUp env.host (dirname dest) t
    · exact Or.inr (Or.inl up)
    · refine Or.inr (Or.inr ⟨atDest, records.others t atDest ?_⟩)
      by_cases self : source = dest
      · exact Or.inl self
      · exact Or.inr fun above => up ⟨self, above⟩

/-- The first round leaves what the later ones start from. -/
theorem RoundRecords.later {source dest d : Text} {deps : List Text} {first : Graph}
    (records : RoundRecords env.host .empty source dest deps first d) :
    Later env root first first ((d, d) :: deps.foldl (fun queue dep => (dep, dep) :: queue) []) := by
  obtain ⟨set, found, same⟩ := records.needs
  have landed : ∀ x, x = dirname dest ∨
      (source ≠ dest ∧ ∃ t, MissingUp env.host (dirname dest) t ∧ x = dirname t) → Fresh env root x →
        (x, x) ∈ (d, d) :: deps.foldl (fun queue dep => (dep, dep) :: queue) [] := by
    intro x place fresh
    rw [records.landing x place fresh.2]
    exact List.mem_cons_self
  refine ⟨fun t _ => ⟨rfl, rfl⟩, fun t early => ?_, fun e member => ?_,
    fun t recorded x found' inside fresh => ?_⟩
  · rcases records.kinds t with rfl | ⟨differ, up⟩ | ⟨_, noSource, _⟩
    · rw [found] at early
      cases early
    · rw [(records.missing differ t up).2] at early
      cases early
    · exact .unknown noSource early
  · rcases List.mem_cons.mp member with rfl | member
    · rfl
    · rcases mem_queue_addAll.mp member with impossible | ⟨dep, _, rfl⟩
      · exact (List.not_mem_nil impossible).elim
      · rfl
  · rcases records.kinds t with rfl | ⟨differ, up⟩ | ⟨_, _, nothing⟩
    · cases found.symm.trans found'
      rcases (same x).mp inside with among | directory
      · exact Or.inr (List.mem_cons_of_mem _ (mem_queue_addAll.mpr (Or.inr ⟨x, among, rfl⟩)))
      · exact Or.inr (landed x (Or.inl directory) fresh)
    · rw [(records.missing differ t up).2] at found'
      cases found'
      rw [List.mem_singleton] at inside
      exact Or.inr (landed x (Or.inr ⟨differ, t, up, inside⟩) fresh)
    · rw [nothing] at found'
      cases found'

/-- A path that has a source, with what is recorded for it. -/
inductive Sourced (env : Env) (root : FileSystem String) (source dest : Text) (g : Graph) :
    Text → Option Text → Prop where
  | destination {deps recorded : List Text} (new : isAlreadyCopied env.host root dest = false)
      (present : env.host.lexists source = true) (reported : getDependencies env source = .ok deps)
      (found : g.dependencies dest = some recorded)
      (same : ∀ d, d ∈ recorded ↔ d ∈ deps ∨ d = dirname dest) :
      Sourced env root source dest g dest (some source)
  | directory {t : Text} (differ : source ≠ dest) (up : MissingUp env.host (dirname dest) t)
      (found : g.dependencies t = some [dirname t]) : Sourced env root source dest g t none
  | dependency {t : Text} {deps recorded : List Text} (other : t ≠ dest) (fresh : Fresh env root t)
      (reported : getDependencies env t = .ok deps) (found : g.dependencies t = some recorded)
      (same : ∀ d, d ∈ recorded ↔ d ∈ deps ∨ d = dirname t) :
      Sourced env root source dest g t (some t)

theorem Entry.sourced {g : Graph} {source dest t : Text} {src : Option Text} (entry : Entry env root g t)
    (other : t ≠ dest) (found : g.sourceOf t = some src) : Sourced env root source dest g t src := by
  cases entry with
  | unknown noSource _ | missing noSource _ _ =>
      rw [noSource] at found
      cases found
  | recorded fresh self reported needs same =>
      rw [self] at found
      cases found
      exact .dependency other fresh reported needs same

namespace Sourced

variable {g : Graph} {source dest t : Text} {src : Option Text}

theorem dirname_mem (sourced : Sourced env root source dest g t src) :
    ∃ recorded, g.dependencies t = some recorded ∧ dirname t ∈ recorded := by
  cases sourced with
  | destination _ _ _ found same => exact ⟨_, found, (same _).mpr (Or.inr rfl)⟩
  | directory _ _ found => exact ⟨_, found, List.mem_singleton_self _⟩
  | dependency _ _ _ found same => exact ⟨_, found, (same _).mpr (Or.inr rfl)⟩

/-- What is copied from itself is on the host and has been analysed. -/
theorem itself (sourced : Sourced env root source dest g t (some t)) : env.host.lexists t = true ∧
    ∃ deps recorded, getDependencies env t = .ok deps ∧ g.dependencies t = some recorded ∧
      ∀ d, d ∈ recorded ↔ d ∈ deps ∨ d = dirname t := by
  cases sourced with
  | destination _ present reported found same => exact ⟨present, _, _, reported, found, same⟩
  | dependency _ fresh reported found same => exact ⟨fresh.2, _, _, reported, found, same⟩

theorem needed (sourced : Sourced env root source dest g t src) : Needed env root source dest t := by
  cases sourced with
  | destination new present _ _ _ => exact .destination new present
  | directory differ up _ => exact .directory differ up
  | dependency other fresh _ _ _ => exact .dependency other fresh

end Sourced

/-- The graph of a whole run. -/
structure Finished (env : Env) (root : FileSystem String) (source dest : Text) (g : Graph) : Prop where
  sourced : ∀ t src, g.sourceOf t = some src → Sourced env root source dest g t src
  leads : ∀ t recorded d, g.dependencies t = some recorded → d ∈ recorded → (g.sourceOf t).isSome = true
  known : ∀ t, Reached g dest t → Needed env root source dest t → (g.sourceOf t).isSome = true

/-- Nothing is reached when the destination is not recorded. -/
theorem Finished.nothing {source dest : Text} {g : Graph} (noSource : ∀ t, g.sourceOf t = none)
    (alone : ∀ t recorded, g.dependencies t = some recorded → recorded = [])
    (skipped : isAlreadyCopied env.host root dest = true ∨ env.host.lexists source = false) :
    Finished env root source dest g := by
  refine ⟨fun t src found => ?_, fun t recorded d found inside => ?_, fun t reached needed => ?_⟩
  · rw [noSource] at found
    cases found
  · rw [alone t recorded found] at inside
    exact (List.not_mem_nil inside).elim
  · have atDest : t = dest := by
      cases reached with
      | start => rfl
      | dep _ found inside =>
          rw [alone _ _ found] at inside
          exact (List.not_mem_nil inside).elim
    exfalso
    cases needed with
    | destination new present =>
        rcases skipped with copied | absent
        · rw [new] at copied
          cases copied
        · rw [present] at absent
          cases absent
    | directory _ up => exact MissingUp.not_self _ dest (atDest ▸ up)
    | dependency other _ => exact other atDest

theorem Later.finished {source dest d : Text} {deps : List Text} {first g : Graph}
    (new : isAlreadyCopied env.host root dest = false) (present : env.host.lexists source = true)
    (reported : getDependencies env source = .ok deps)
    (records : RoundRecords env.host .empty source dest deps first d) (later : Later env root first g []) :
    Finished env root source dest g := by
  obtain ⟨set, found, same⟩ := records.needs
  obtain ⟨destSource, destNeeds⟩ := later.kept dest (by rw [found]; rfl)
  have missing : source ≠ dest → ∀ t, MissingUp env.host (dirname dest) t →
      g.sourceOf t = some none ∧ g.dependencies t = some [dirname t] := by
    intro differ t up
    obtain ⟨itself, needs⟩ := records.missing differ t up
    obtain ⟨kept, keptNeeds⟩ := later.kept t (by rw [needs]; rfl)
    exact ⟨kept.trans itself, keptNeeds.trans needs⟩
  have kinds : ∀ t, t = dest ∨ (source ≠ dest ∧ MissingUp env.host (dirname dest) t) ∨
      (t ≠ dest ∧ Entry env root g t) := fun t =>
    (records.kinds t).imp_right (Or.imp_right fun ⟨other, _, nothing⟩ => ⟨other, later.entries t nothing⟩)
  refine ⟨fun t src sourceOf => ?_, fun t recorded d found' inside => ?_, fun t reached needed => ?_⟩
  · rcases kinds t with rfl | ⟨differ, up⟩ | ⟨other, entry⟩
    · rw [destSource, records.itself] at sourceOf
      cases sourceOf
      exact .destination new present reported (destNeeds.trans found) same
    · obtain ⟨itself, needs⟩ := missing differ t up
      rw [itself] at sourceOf
      cases sourceOf
      exact .directory differ up needs
    · exact entry.sourced other sourceOf
  · rcases kinds t with rfl | ⟨differ, up⟩ | ⟨_, entry⟩
    · rw [destSource, records.itself]
      rfl
    · rw [(missing differ t up).1]
      rfl
    · exact entry.isSome_of_mem found' inside
  · rcases kinds t with rfl | ⟨differ, up⟩ | ⟨other, entry⟩
    · rw [destSource, records.itself]
      rfl
    · rw [(missing differ t up).1]
      rfl
    · cases needed with
      | destination _ _ => exact absurd rfl other
      | directory differ up => exact absurd (missing differ t up).1 entry.sourceOf_ne
      | dependency _ fresh =>
          refine entry.isSome_of_fresh fresh ?_
          cases reached with
          | start => exact absurd rfl other
          | dep _ found' inside =>
              rcases later.due _ _ t found' inside fresh with done | impossible
              · exact done
              · exact (List.not_mem_nil impossible).elim

theorem finished_of_buildGraph {source dest : Text} {fuel : Nat} {g : Graph}
    (done : buildGraph env root fuel .empty [(source, dest)] = .ok g) :
    Finished env root source dest g := by
  cases fuel with
  | zero => cases done
  | succ fuel =>
      obtain ⟨⟨first, queue⟩, round, goesOn⟩ := bind_ok_iff.mp done
      have cases' := expanded env root .empty source dest []
      rw [round] at cases'
      cases cases' with
      | skipped known =>
          have ended : buildGraph env root fuel .empty [] = .ok .empty := by cases fuel <;> rfl
          cases ended.symm.trans goesOn
          refine Finished.nothing (fun _ => rfl) (fun t recorded found => ?_) (Or.inl ?_)
          · cases found
          · rcases known with copied | impossible
            · exact copied
            · cases impossible
      | missing _ _ absent =>
          have ended : buildGraph env root fuel (Graph.empty.newSet dest) [] = .ok (Graph.empty.newSet dest) := by
            cases fuel <;> rfl
          cases ended.symm.trans goesOn
          refine Finished.nothing (fun _ => rfl) (fun t recorded found => ?_) (Or.inr absent)
          by_cases self : t = dest
          · rw [self] at found
            cases (if_pos rfl : (Graph.empty.newSet dest).dependencies dest = some []).symm.trans found
            rfl
          · cases (if_neg self : (Graph.empty.newSet dest).dependencies t = none).symm.trans found
      | recorded new _ present reported parents =>
          have records := roundRecords (Or.inr fun _ _ => rfl) parents
          exact Later.finished new present reported records (records.later.buildGraph goesOn)

end GnomeBuildMeta.Initramfs
