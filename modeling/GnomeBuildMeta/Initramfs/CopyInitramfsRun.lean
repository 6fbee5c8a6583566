import GnomeBuildMeta.Control.Except
import GnomeBuildMeta.Initramfs.CopyInitramfs
import GnomeBuildMeta.Posix.NormPath

/-!
# What a run of copy-initramfs.py copies

With equal source and destination a run copies exactly the paths that its source
leads to over dependencies, not going beyond a path that the target root has.
-/

namespace GnomeBuildMeta.Initramfs

open GnomeBuildMeta.Control GnomeBuildMeta.Posix

/-- A path is recorded with what it needs and with its directory. -/
def Dep (env : Env) (t d : Text) : Prop :=
  ∃ deps, getDependencies env t = .ok deps ∧ (d ∈ deps ∨ d = dirname t)

/-- On the host, and not in the target root yet. -/
def Fresh (env : Env) (root : FileSystem String) (t : Text) : Prop :=
  isAlreadyCopied env.host root t = false ∧ env.host.lexists t = true

/-- The paths that a run for `source` walks over. -/
inductive Visited (env : Env) (root : FileSystem String) (source : Text) : Text → Prop where
  | start : Fresh env root source → Visited env root source source
  | dep {t d : Text} : Visited env root source t → Dep env t d → Fresh env root d →
      Visited env root source d

variable {env : Env} {root : FileSystem String}

theorem Visited.fresh {source t : Text} (visited : Visited env root source t) : Fresh env root t := by
  cases visited with
  | start fresh => exact fresh
  | dep _ _ fresh => exact fresh

/-! ## The location of a path -/

/-- A path is read in its directory at the end. -/
theorem directory_of_reaches {host : FileSystem String} {t : Text} {k : Nat} {q : Path String}
    {follow : Bool} (reaches : Reaches host.get follow [] t k q) :
    ∃ k₁ c k₂, Reaches host.get true [] (dirname t) k₁ c ∧ host.isDirAt c = true ∧
      Reaches host.get follow c [basename t] k₂ q ∧ k = k₁ + k₂ := by
  rcases List.eq_nil_or_concat t with rfl | ⟨init, piece, rfl⟩
  · cases reaches
    exact ⟨0, [], 0, .empty .done, host.isDirAt_root, .empty .done, rfl⟩
  · rw [List.concat_eq_append] at reaches ⊢
    obtain ⟨k₁, c, k₂, one, isDir, two, sum⟩ :=
      reaches.split host.grounded (List.cons_ne_nil _ _) host.isDirAt_root
    refine ⟨k₁, c, k₂, ?_, isDir, ?_, sum⟩
    · rw [reaches_dirname_iff host.grounded isDir, List.dropLast_concat]
      exact one
    · simpa [basename] using two

/-- The last piece of a path is looked up in the directory that the rest leads to. -/
theorem reallinkpath_of_reaches {host : FileSystem String} {t : Text} {k : Nat} {q : Path String}
    (reaches : Reaches host.get false [] t k q) :
    ∃ k' dir, Reaches host.get true [] (dirname t) k' dir ∧ host.isDirAt dir = true ∧
      reallinkpath host t = lexical dir (basename t) ∧ q = lexical dir (basename t) := by
  obtain ⟨k', dir, k₂, one, isDir, two, _⟩ := directory_of_reaches reaches
  refine ⟨k', dir, one, isDir, ?_, ?_⟩
  · rw [reallinkpath, host.realpath_of_reaches one]
  · generalize basename t = piece at two ⊢
    rw [two.last]
    cases piece <;> rfl

theorem get_reallinkpath {host : FileSystem String} {t : Text} {node : Node String}
    (found : host.lstat t = some node) : host.get (reallinkpath host t) = some node := by
  obtain ⟨k, q, _, reaches, there⟩ := FileSystem.lstat_eq_some_iff.mp found
  obtain ⟨_, dir, _, _, location, same⟩ := reallinkpath_of_reaches reaches
  rw [location, ← same]
  exact there

/-- A link is an entry of the directory that its path is in, and `realpath` finds this directory. -/
theorem location_of_link {host : FileSystem String} {t link : Text} (found : host.lstat t = some (.symlink link)) :
    ∃ n k, k ≤ maxSymlinks ∧ Reaches host.get false [] t k (n :: host.realpath (dirname t)) ∧
      host.isDirAt (host.realpath (dirname t)) = true ∧
      reallinkpath host t = n :: host.realpath (dirname t) ∧
      host.get (n :: host.realpath (dirname t)) = some (.symlink link) := by
  obtain ⟨k, q, enough, reaches, there⟩ := FileSystem.lstat_eq_some_iff.mp found
  obtain ⟨k', dir, one, isDir, location, same⟩ := reallinkpath_of_reaches reaches
  have noLink : ∀ p, host.isDirAt p = true → host.get p ≠ some (.symlink link) := by
    intro p dirAt link
    rw [FileSystem.isDirAt, link] at dirAt
    cases dirAt
  rw [host.realpath_of_reaches one]
  cases piece : basename t with
  | name n =>
      rw [piece] at location same
      rw [same] at reaches there
      exact ⟨n, k, enough, reaches, isDir, location, there⟩
  | up =>
      refine absurd there ?_
      rw [same, piece]
      exact noLink _ (host.grounded.tail isDir)
  | cur | empty =>
      refine absurd there ?_
      rw [same, piece]
      exact noLink _ isDir

/-! ## The graph -/

namespace Graph

variable {g : Graph} {target : Text}

theorem sourceOf_addAll (deps : List Text) :
    (deps.foldl (fun g dep => g.add target dep) g).sourceOf = g.sourceOf := by
  induction deps generalizing g with
  | nil => rfl
  | cons dep rest ih => exact ih

theorem dependencies_addAll_other (deps : List Text) {t : Text} (other : t ≠ target) :
    (deps.foldl (fun g dep => g.add target dep) g).dependencies t = g.dependencies t := by
  induction deps generalizing g with
  | nil => rfl
  | cons dep rest ih =>
      rw [List.foldl_cons, ih]
      exact if_neg other

theorem dependencies_add {recorded : List Text} (dep : Text)
    (there : g.dependencies target = some recorded) :
    (g.add target dep).dependencies target = some (recorded.insert dep) := by
  simp [add, there]

theorem dependencies_addAll (deps : List Text) {recorded : List Text}
    (there : g.dependencies target = some recorded) :
    ∃ recorded', (deps.foldl (fun g dep => g.add target dep) g).dependencies target = some recorded' ∧
      ∀ d, d ∈ recorded' ↔ d ∈ recorded ∨ d ∈ deps := by
  induction deps generalizing g recorded with
  | nil => exact ⟨recorded, there, by simp⟩
  | cons dep rest ih =>
      obtain ⟨recorded', found, same⟩ := ih (dependencies_add dep there)
      refine ⟨recorded', found, fun d => ?_⟩
      rw [same, List.mem_insert_iff, List.mem_cons]
      tauto

end Graph

theorem mem_queue_addAll {queue : Queue} {deps : List Text} {e : Text × Text} :
    e ∈ deps.foldl (fun queue dep => (dep, dep) :: queue) queue ↔
      e ∈ queue ∨ ∃ dep ∈ deps, e = (dep, dep) := by
  induction deps generalizing queue with
  | nil => simp
  | cons dep rest ih =>
      rw [List.foldl_cons, ih, List.mem_cons, List.exists_mem_cons_iff]
      tauto

/-! ## A round of the loop -/

/-- The target with what the analysis of its source has reported. -/
def Graph.report (g : Graph) (target source : Text) (deps : List Text) : Graph :=
  deps.foldl (fun g dep => g.add target dep) ((g.newSet target).setSource target source)

/-- The graph after the directories of the target, and the directory to go on with. -/
def Graph.withParents (g : Graph) (host : FileSystem String) (source target : Text) : Graph × Text :=
  if source = target then (g.add target (dirname target), dirname target)
  else addParents host (weight target) g target (dirname target)

/-- The ways in which a round can go. -/
inductive Expanded (env : Env) (root : FileSystem String) (g : Graph) (source target : Text)
    (queue : Queue) : Except Halt (Graph × Queue) → Prop where
  | skipped (known : isAlreadyCopied env.host root target = true ∨ (g.dependencies target).isSome = true) :
      Expanded env root g source target queue (.ok (g, queue))
  | missing (new : isAlreadyCopied env.host root target = false) (unseen : g.dependencies target = none)
      (absent : env.host.lexists source = false) :
      Expanded env root g source target queue (.ok (g.newSet target, queue))
  | raised {e : Halt} (new : isAlreadyCopied env.host root target = false)
      (unseen : g.dependencies target = none) (present : env.host.lexists source = true)
      (raises : getDependencies env source = .error e) :
      Expanded env root g source target queue (.error e)
  | recorded {deps : List Text} {g' : Graph} {d : Text}
      (new : isAlreadyCopied env.host root target = false) (unseen : g.dependencies target = none)
      (present : env.host.lexists source = true) (reported : getDependencies env source = .ok deps)
      (parents : (g.report target source deps).withParents env.host source target = (g', d)) :
      Expanded env root g source target queue
        (.ok (g', (d, d) :: deps.foldl (fun queue dep => (dep, dep) :: queue) queue))

theorem expanded (env : Env) (root : FileSystem String) (g : Graph) (source target : Text) (queue : Queue) :
    Expanded env root g source target queue (expand env root g source target queue) := by
  rw [expand]
  split
  · exact .skipped (Or.inl ‹_›)
  · rename_i new
    split
    · exact .skipped (Or.inr ‹_›)
    · rename_i unseen
      rw [Bool.not_eq_true] at new
      rw [Option.not_isSome_iff_eq_none] at unseen
      split
      · exact .missing new unseen ‹_›
      · rename_i present
        have present' := eq_true_of_ne_false present
        cases reported : getDependencies env source with
        | error e => exact .raised new unseen present' reported
        | ok deps =>
            by_cases same : source = target
            · subst same
              simp only [if_true]
              refine .recorded new unseen present' reported ?_
              rw [Graph.withParents, if_pos rfl]
              rfl
            · simp only [same, if_false]
              refine .recorded new unseen present' reported ?_
              rw [Graph.withParents, if_neg same]
              rfl

theorem Graph.sourceOf_report {g : Graph} {target source : Text} (deps : List Text) (t : Text) :
    (g.report target source deps).sourceOf t = if t = target then some (some source) else g.sourceOf t := by
  rw [Graph.report, Graph.sourceOf_addAll]
  rfl

theorem Graph.dependencies_report (g : Graph) (target source : Text) (deps : List Text) :
    ∃ recorded, (g.report target source deps).dependencies target = some recorded ∧
      ∀ d, d ∈ recorded ↔ d ∈ deps := by
  obtain ⟨recorded, found, same⟩ :=
    Graph.dependencies_addAll (g := (g.newSet target).setSource target source) deps (if_pos rfl)
  exact ⟨recorded, found, fun d => by rw [same]; simp⟩

theorem Graph.dependencies_report_other {g : Graph} {target source t : Text} (deps : List Text)
    (other : t ≠ target) : (g.report target source deps).dependencies t = g.dependencies t :=
  (Graph.dependencies_addAll_other deps other).trans (if_neg other)

/-- One round skips the path, finds that it is missing, or records all about it. -/
theorem expand_cases {g g' : Graph} {queue queue' : Queue} {x : Text}
    (round : expand env root g x x queue = .ok (g', queue')) :
    (g' = g ∧ queue' = queue ∧
      (isAlreadyCopied env.host root x = true ∨ (g.dependencies x).isSome = true)) ∨
    (g' = g.newSet x ∧ queue' = queue ∧ g.dependencies x = none ∧ env.host.lexists x = false) ∨
    (Fresh env root x ∧ g'.sourceOf = (g.setSource x (some x)).sourceOf ∧
      (∀ t, t ≠ x → g'.dependencies t = g.dependencies t) ∧
      (∃ recorded, g'.dependencies x = some recorded ∧ ∀ d, d ∈ recorded ↔ Dep env x d) ∧
      Dep env x (dirname x) ∧ ∀ e, e ∈ queue' ↔ e ∈ queue ∨ ∃ d, Dep env x d ∧ e = (d, d)) := by
  have cases' := expanded env root g x x queue
  rw [round] at cases'
  cases cases' with
  | skipped known => exact Or.inl ⟨rfl, rfl, known⟩
  | missing _ unseen absent => exact Or.inr (Or.inl ⟨rfl, rfl, unseen, absent⟩)
  | @recorded deps _ _ new _ present reported parents =>
      rw [Graph.withParents, if_pos rfl] at parents
      cases parents
      have depIff : ∀ d, Dep env x d ↔ d ∈ deps ∨ d = dirname x := by
        intro d
        constructor
        · rintro ⟨deps', same, inside⟩
          cases reported.symm.trans same
          exact inside
        · exact fun inside => ⟨deps, reported, inside⟩
      obtain ⟨recorded, found, same⟩ := g.dependencies_report x x deps
      refine Or.inr (Or.inr ⟨⟨new, present⟩, ?_, fun t other => ?_,
        ⟨recorded.insert (dirname x), Graph.dependencies_add _ found, fun d => ?_⟩,
        (depIff _).mpr (Or.inr rfl), fun e => ?_⟩)
      · exact Graph.sourceOf_addAll deps
      · exact (if_neg other).trans (Graph.dependencies_report_other deps other)
      · rw [List.mem_insert_iff, same, depIff, or_comm]
      · rw [List.mem_cons, mem_queue_addAll]
        simp only [depIff]
        constructor
        · rintro (rfl | old | ⟨d, inside, rfl⟩)
          · exact Or.inr ⟨_, Or.inr rfl, rfl⟩
          · exact Or.inl old
          · exact Or.inr ⟨d, Or.inl inside, rfl⟩
        · rintro (old | ⟨d, inside | rfl, rfl⟩)
          · exact Or.inr (Or.inl old)
          · exact Or.inr (Or.inr ⟨d, inside, rfl⟩)
          · exact Or.inl rfl

/-- What the graph so far asks for. -/
def Due (env : Env) (g : Graph) (source x : Text) : Prop :=
  x = source ∨ ∃ t, (g.sourceOf t).isSome = true ∧ Dep env t x

/-- While the graph is built, all that is asked for and fresh is recorded or queued. -/
structure Built (env : Env) (root : FileSystem String) (source : Text) (g : Graph) (queue : Queue) :
    Prop where
  sources : ∀ t src, g.sourceOf t = some src → src = some t ∧ Visited env root source t ∧
    Dep env t (dirname t) ∧
      ∃ recorded, g.dependencies t = some recorded ∧ ∀ d, d ∈ recorded ↔ Dep env t d
  seen : ∀ t, (g.dependencies t).isSome = true →
    (g.sourceOf t).isSome = true ∨ env.host.lexists t = false
  queued : ∀ e ∈ queue, ∃ x, e = (x, x) ∧ Due env g source x
  due : ∀ x, Due env g source x → (Fresh env root x → (g.sourceOf x).isSome = true) ∨ (x, x) ∈ queue

theorem Built.start (source : Text) : Built env root source .empty [(source, source)] where
  sources t src impossible := nomatch impossible
  seen t impossible := nomatch impossible
  queued e inside := ⟨source, List.mem_singleton.mp inside, Or.inl rfl⟩
  due x asked := by
    rcases asked with rfl | ⟨t, impossible, _⟩
    · exact Or.inr List.mem_cons_self
    · cases impossible

namespace Built

variable {source x : Text} {g g' : Graph} {queue queue' : Queue}

/-- The path at the head of the queue needs no entry of its own. -/
theorem pop (built : Built env root source g ((x, x) :: queue))
    (recorded : Fresh env root x → (g.sourceOf x).isSome = true) : Built env root source g queue where
  sources := built.sources
  seen := built.seen
  queued e inside := built.queued e (List.mem_cons_of_mem _ inside)
  due y asked := by
    rcases built.due y asked with done | inside
    · exact Or.inl done
    · rcases List.mem_cons.mp inside with same | later
      · cases same
        exact Or.inl recorded
      · exact Or.inr later

/-- A path that is asked for and fresh is visited. -/
theorem visited (built : Built env root source g queue) (asked : Due env g source x)
    (fresh : Fresh env root x) : Visited env root source x := by
  rcases asked with rfl | ⟨t, recorded, dep⟩
  · exact .start fresh
  · obtain ⟨src, there⟩ := Option.isSome_iff_exists.mp recorded
    exact .dep (built.sources t src there).2.1 dep fresh

/-- A path that is not there has an entry, but no source. -/
theorem missing (built : Built env root source g ((x, x) :: queue)) (unseen : g.dependencies x = none)
    (absent : env.host.lexists x = false) : Built env root source (g.newSet x) queue := by
  have popped := built.pop fun fresh => by
    rw [fresh.2] at absent
    cases absent
  refine ⟨fun t src there => ?_, fun t isSome => ?_, popped.queued, popped.due⟩
  · obtain ⟨isSelf, visited, directory, recorded, found, same⟩ := popped.sources t src there
    refine ⟨isSelf, visited, directory, recorded, ?_, same⟩
    have other : t ≠ x := by
      rintro rfl
      rw [unseen] at found
      cases found
    exact (if_neg other).trans found
  · by_cases at' : t = x
    · rw [at']
      exact Or.inr absent
    · exact popped.seen t (by simpa [Graph.newSet, at'] using isSome)

/-- A path is recorded with all that it depends on. -/
theorem record (built : Built env root source g ((x, x) :: queue)) (fresh : Fresh env root x)
    (sources : g'.sourceOf = (g.setSource x (some x)).sourceOf)
    (others : ∀ t, t ≠ x → g'.dependencies t = g.dependencies t)
    (whole : ∃ recorded, g'.dependencies x = some recorded ∧ ∀ d, d ∈ recorded ↔ Dep env x d)
    (directory : Dep env x (dirname x))
    (mem : ∀ e, e ∈ queue' ↔ e ∈ queue ∨ ∃ d, Dep env x d ∧ e = (d, d)) : Built env root source g' queue' := by
  have sourceOf_eq : ∀ t, g'.sourceOf t = if t = x then some (some x) else g.sourceOf t := by
    intro t
    rw [sources]
    rfl
  have kept : ∀ t, (g.sourceOf t).isSome = true → (g'.sourceOf t).isSome = true := by
    intro t isSome
    rw [sourceOf_eq]
    split
    · rfl
    · exact isSome
  have keptDue : ∀ y, Due env g source y → Due env g' source y := by
    rintro y (rfl | ⟨t, isSome, dep⟩)
    · exact Or.inl rfl
    · exact Or.inr ⟨t, kept t isSome, dep⟩
  -- asked for before this round, or by the path that it has recorded
  have before : ∀ y, Due env g' source y → Due env g source y ∨ Dep env x y := by
    rintro y (rfl | ⟨t, isSome, dep⟩)
    · exact Or.inl (Or.inl rfl)
    · by_cases new : t = x
      · exact Or.inr (new ▸ dep)
      · rw [sourceOf_eq, if_neg new] at isSome
        exact Or.inl (Or.inr ⟨t, isSome, dep⟩)
  obtain ⟨_, pair, asked⟩ := built.queued _ List.mem_cons_self
  cases pair
  refine ⟨fun t src found => ?_, fun t isSome => ?_, fun e inside => ?_, fun y askedNow => ?_⟩
  · rw [sourceOf_eq] at found
    by_cases at' : t = x
    · rw [if_pos at'] at found
      cases found
      rw [at']
      exact ⟨rfl, built.visited asked fresh, directory, whole⟩
    · rw [if_neg at'] at found
      obtain ⟨isSelf, visited, directory', recorded', found', same'⟩ := built.sources t src found
      exact ⟨isSelf, visited, directory', recorded', (others t at').trans found', same'⟩
  · by_cases at' : t = x
    · rw [sourceOf_eq, if_pos at']
      exact Or.inl rfl
    · rw [others t at'] at isSome
      rcases built.seen t isSome with done | missing
      · exact Or.inl (kept t done)
      · exact Or.inr missing
  · rcases (mem e).mp inside with old | ⟨d, dep, rfl⟩
    · obtain ⟨y, pair, askedBefore⟩ := built.queued e (List.mem_cons_of_mem _ old)
      exact ⟨y, pair, keptDue y askedBefore⟩
    · refine ⟨d, rfl, Or.inr ⟨x, ?_, dep⟩⟩
      rw [sourceOf_eq, if_pos rfl]
      rfl
  · by_cases at' : y = x
    · left
      intro _
      rw [sourceOf_eq, if_pos at']
      rfl
    · rcases before y askedNow with old | dep
      · rcases built.due y old with done | inside
        · exact Or.inl fun fresh => kept y (done fresh)
        · rcases List.mem_cons.mp inside with pair | later
          · exact absurd (Prod.mk.inj pair).1 at'
          · exact Or.inr ((mem _).mpr (Or.inl later))
      · exact Or.inr ((mem _).mpr (Or.inr ⟨y, dep, rfl⟩))

theorem expand (built : Built env root source g ((x, x) :: queue))
    (round : Initramfs.expand env root g x x queue = .ok (g', queue')) :
    Built env root source g' queue' := by
  rcases expand_cases round with ⟨rfl, rfl, copied | seen⟩ | ⟨rfl, rfl, unseen, absent⟩ |
    ⟨fresh, sources, others, whole, directory, mem⟩
  · refine built.pop fun fresh => ?_
    rw [fresh.1] at copied
    cases copied
  · refine built.pop fun fresh => ?_
    rcases built.seen x seen with done | missing
    · exact done
    · rw [fresh.2] at missing
      cases missing
  · exact built.missing unseen absent
  · exact built.record fresh sources others whole directory mem

theorem buildGraph {fuel : Nat} (built : Built env root source g queue)
    (done : Initramfs.buildGraph env root fuel g queue = .ok g') : Built env root source g' [] := by
  induction fuel generalizing g queue with
  | zero =>
      cases queue with
      | nil =>
          cases done
          exact built
      | cons e rest => cases done
  | succ fuel ih =>
      cases queue with
      | nil =>
          cases done
          exact built
      | cons e rest =>
          obtain ⟨x, rfl, _⟩ := built.queued e List.mem_cons_self
          obtain ⟨⟨g₁, queue₁⟩, round, later⟩ := bind_ok_iff.mp done
          exact ih (built.expand round) later

/-- In the end the graph has exactly the visited paths. -/
theorem sourceOf_iff (built : Built env root source g []) (t : Text) :
    g.sourceOf t = some (some t) ↔ Visited env root source t := by
  have recorded : ∀ t, (g.sourceOf t).isSome = true → g.sourceOf t = some (some t) := by
    intro t isSome
    obtain ⟨src, found⟩ := Option.isSome_iff_exists.mp isSome
    obtain ⟨rfl, _⟩ := built.sources t src found
    exact found
  have done : ∀ x, Due env g source x → Fresh env root x → g.sourceOf x = some (some x) := by
    intro x asked fresh
    rcases built.due x asked with isSome | impossible
    · exact recorded x (isSome fresh)
    · cases impossible
  constructor
  · exact fun found => (built.sources t _ found).2.1
  · intro visited
    induction visited with
    | start fresh => exact done _ (Or.inl rfl) fresh
    | dep _ dep fresh ih => exact done _ (Or.inr ⟨_, Option.isSome_of_eq_some ih, dep⟩) fresh

end Built

/-! ## The copies -/

/-- What becomes of an entry of the host in the target root. -/
def Env.copyOf (env : Env) : Node String → Node String
  | .file stat data => .file { stat with uid := env.uid, gid := env.gid } data
  | node => node

@[simp] theorem Env.copyOf_isDir (node : Node String) : (env.copyOf node).isDir = node.isDir := by
  cases node <;> rfl

@[simp] theorem Env.copyOf_target (node : Node String) : (env.copyOf node).target = node.target := by
  cases node <;> rfl

/-- All below the top of the target root is copied from the same place on the host. -/
def Mirrors (env : Env) (root : FileSystem String) : Prop :=
  ∀ p node, root.get p = some node → p = [] ∨ ∃ original, env.host.get p = some original ∧
    node = env.copyOf original

theorem Mirrors.bare (perm : Nat) : Mirrors env (.bare perm) := by
  intro p node found
  cases p with
  | nil => exact Or.inl rfl
  | cons n p => cases found

theorem Mirrors.covers (mirrors : Mirrors env root) : Covers env.host.get root.get := by
  intro p node found
  rcases mirrors p node found with rfl | ⟨original, there, rfl⟩
  · obtain ⟨perm, top⟩ := env.host.get_root
    obtain ⟨perm', top'⟩ := root.get_root
    rw [top'] at found
    cases found
    exact ⟨_, top, rfl, rfl⟩
  · exact ⟨original, there, by simp, by simp⟩

/-- What both have is of the same kind, and the same link. -/
theorem Mirrors.node (mirrors : Mirrors env root) {p : Path String} {node : Node String}
    (there : (root.get p).isSome = true) (found : env.host.get p = some node) :
    ∃ node', root.get p = some node' ∧ node'.isDir = node.isDir ∧ node'.target = node.target := by
  obtain ⟨node', found'⟩ := Option.isSome_iff_exists.mp there
  obtain ⟨original, same, isDir, target⟩ := mirrors.covers p node' found'
  cases found.symm.trans same
  exact ⟨node', found', isDir.symm, target.symm⟩

theorem Mirrors.isDirAt (mirrors : Mirrors env root) {p : Path String}
    (there : (root.get p).isSome = true) (isDir : env.host.isDirAt p = true) :
    root.isDirAt p = true := by
  obtain ⟨perm, found⟩ := (env.host.isDirAt_iff p).mp isDir
  obtain ⟨node', found', same, _⟩ := mirrors.node there found
  rw [FileSystem.isDirAt, found', Option.any_some, same]
  rfl

theorem Mirrors.symlink (mirrors : Mirrors env root) {p : Path String} {link : Text}
    (there : (root.get p).isSome = true) (found : env.host.get p = some (.symlink link)) :
    root.get p = some (.symlink link) := by
  obtain ⟨node', found', _, same⟩ := mirrors.node there found
  rw [found']
  cases node' with
  | symlink other =>
      cases same
      rfl
  | dir _ | file _ _ | chardev _ _ => cases same

/-- No link of the target root is above what the host has. -/
theorem Mirrors.plain (mirrors : Mirrors env root) {p : Path String} {node : Node String}
    (found : env.host.get p = some node) : root.Plain p := by
  intro q suffix proper target link
  obtain ⟨original, there, _, same⟩ := mirrors.covers q _ link
  cases original with
  | symlink text => exact FileSystem.plain_of_get found q suffix proper text there
  | dir _ | file _ _ | chardev _ _ => cases same

theorem Mirrors.insert (mirrors : Mirrors env root) {root' : FileSystem String} {p : Path String}
    {node : Node String} (found : env.host.get p = some node)
    (same : ∀ q, root'.get q = if q = p then some (env.copyOf node) else root.get q) :
    Mirrors env root' := by
  intro q other there
  rw [same] at there
  split at there
  · rename_i at'
    cases there
    exact Or.inr ⟨node, at' ▸ found, rfl⟩
  · exact mirrors q other there

theorem ofErrno_ok_iff {σ : Type} {x : Except Errno σ} {s : σ} : ofErrno x = .ok s ↔ x = .ok s := by
  cases x <;> simp [ofErrno]

/-- A copy finds its place taken or makes one entry there. -/
theorem copy_cases {root' : FileSystem String} {t : Text} {node : Node String}
    (mirrors : Mirrors env root) (found : env.host.lstat t = some node)
    (done : copy env (some t) t root = .ok root') :
    (root' = root ∧ (root.get (reallinkpath env.host t)).isSome = true) ∨
      (root.get (reallinkpath env.host t) = none ∧ ∀ q, root'.get q =
        if q = reallinkpath env.host t then some (env.copyOf node) else root.get q) := by
  have plain := mirrors.plain (get_reallinkpath found)
  rw [copy] at done
  generalize reallinkpath env.host t = p at *
  rw [root.lexists_textOf plain] at done
  split at done
  · rename_i taken
    cases done
    exact Or.inl ⟨rfl, taken⟩
  · rename_i free
    rw [Option.not_isSome_iff_eq_none] at free
    obtain ⟨n, p, rfl⟩ : ∃ n p', p = n :: p' := by
      cases p with
      | nil =>
          obtain ⟨perm, top⟩ := root.get_root
          rw [top] at free
          cases free
      | cons n p => exact ⟨n, p, rfl⟩
    refine Or.inr ⟨free, ?_⟩
    cases node with
    | symlink link =>
        simp only [FileSystem.readlink, found, Option.bind_some, Node.target] at done
        exact (root.create_plain_inv _ plain (ofErrno_ok_iff.mp done)).2.2
    | dir perm =>
        have stat : env.host.stat t = some (.dir perm) := FileSystem.stat_of_lstat found rfl
        simp only [FileSystem.readlink, found, Option.bind_some, Node.target, FileSystem.isdir, stat,
          Option.any_some, Node.isDir, ↓reduceIte, bind_ok_iff] at done
        obtain ⟨made, first, second⟩ := done
        have new := (root.create_plain_inv _ plain (ofErrno_ok_iff.mp first)).2.2
        have there : made.get (n :: p) = some (.dir 0o755) := (new _).trans (if_pos rfl)
        rw [copystat, stat, ofErrno_ok_iff, made.chmod_dir perm there] at second
        cases second
        intro q
        rw [made.get_chmodAt, new]
        split <;> rfl
    | file stat data =>
        have there : env.host.stat t = some (.file stat data) := FileSystem.stat_of_lstat found rfl
        simp only [FileSystem.readlink, found, Option.bind_some, Node.target, FileSystem.isdir, there,
          Option.any_some, Node.isDir, Bool.false_eq_true, ↓reduceIte, copy2, ofErrno_ok_iff] at done
        exact root.writeFile_plain_inv _ plain free done
    | chardev major minor =>
        have there : env.host.stat t = some (.chardev major minor) :=
          FileSystem.stat_of_lstat found rfl
        simp only [FileSystem.readlink, found, Option.bind_some, Node.target, FileSystem.isdir, there,
          Option.any_some, Node.isDir, Bool.false_eq_true, ↓reduceIte, copy2, reduceCtorEq] at done

/-- What holds while a run copies: the target root grows by what was copied and nothing else. -/
structure Copied (env : Env) (before root : FileSystem String) (copied : List Text) : Prop where
  mirrors : Mirrors env root
  kept : ∀ p node, before.get p = some node → root.get p = some node
  present : ∀ t ∈ copied, (root.get (reallinkpath env.host t)).isSome = true
  new : ∀ p, (root.get p).isSome = true → (before.get p).isSome = true ∨
    ∃ t ∈ copied, p = reallinkpath env.host t

theorem Copied.start (mirrors : Mirrors env root) : Copied env root root [] :=
  ⟨mirrors, fun _ _ found => found, fun _ impossible => (nomatch impossible),
    fun _ there => Or.inl there⟩

theorem Copied.copy {before root' : FileSystem String} {copied : List Text} {t : Text}
    (state : Copied env before root copied) (exists' : env.host.lexists t = true)
    (done : Initramfs.copy env (some t) t root = .ok root') :
    Copied env before root' (copied ++ [t]) := by
  obtain ⟨node, found⟩ := Option.isSome_iff_exists.mp exists'
  rcases copy_cases state.mirrors found done with ⟨rfl, taken⟩ | ⟨free, same⟩
  · refine ⟨state.mirrors, state.kept, fun u member => ?_, fun p there => ?_⟩
    · rcases List.mem_append.mp member with old | new
      · exact state.present u old
      · rw [List.mem_singleton.mp new]
        exact taken
    · rcases state.new p there with old | ⟨u, member, here⟩
      · exact Or.inl old
      · exact Or.inr ⟨u, List.mem_append_left _ member, here⟩
  · have grows : ∀ p node, root.get p = some node → root'.get p = some node := by
      intro p other there
      rw [same, if_neg]
      · exact there
      · rintro rfl
        rw [free] at there
        cases there
    refine ⟨state.mirrors.insert (get_reallinkpath found) same,
      fun p other there => grows p other (state.kept p other there), fun u member => ?_,
      fun p there => ?_⟩
    · rcases List.mem_append.mp member with old | new
      · obtain ⟨other, there⟩ := Option.isSome_iff_exists.mp (state.present u old)
        exact Option.isSome_of_eq_some (grows _ _ there)
      · rw [List.mem_singleton.mp new, same, if_pos rfl]
        rfl
    · by_cases here : p = reallinkpath env.host t
      · exact Or.inr ⟨t, List.mem_append_right _ List.mem_cons_self, here⟩
      · rw [same, if_neg here] at there
        rcases state.new p there with old | ⟨u, member, location⟩
        · exact Or.inl old
        · exact Or.inr ⟨u, List.mem_append_left _ member, location⟩

/-! ## The order of the copies -/

/-- Whatever `process` marks and has a source is copied, after all that it needs was marked. -/
structure Processed (g : Graph) (c c' : Copying) : Prop where
  marked : ∀ t ∈ c.processed, t ∈ c'.processed
  copied : ∀ t ∈ c.copied, t ∈ c'.copied
  closed : ∀ t ∈ c'.processed, t ∈ c.processed ∨ ∀ src, g.sourceOf t = some src →
    t ∈ c'.copied ∧ ∀ d ∈ (g.dependencies t).getD [], d ∈ c'.processed

namespace Processed

variable {g : Graph} {c c' c'' : Copying}

theorem refl (c : Copying) : Processed g c c :=
  ⟨fun _ member => member, fun _ member => member, fun _ member => Or.inl member⟩

theorem trans (one : Processed g c c') (two : Processed g c' c'') : Processed g c c'' where
  marked t member := two.marked t (one.marked t member)
  copied t member := two.copied t (one.copied t member)
  closed t member := by
    rcases two.closed t member with before | done
    · rcases one.closed t before with start | done
      · exact Or.inl start
      · refine Or.inr fun src found => ?_
        obtain ⟨copied, deps⟩ := done src found
        exact ⟨two.copied t copied, fun d inside => two.marked d (deps d inside)⟩
    · exact Or.inr done

end Processed

theorem process_spec {g : Graph} {fuel : Nat} {c c' : Copying} {t : Text}
    (done : process env g fuel c t = .ok c') : Processed g c c' ∧ t ∈ c'.processed := by
  induction fuel generalizing c c' t with
  | zero => cases done
  | succ fuel ih =>
      rw [process] at done
      split at done
      · rename_i member
        cases done
        exact ⟨.refl c, member⟩
      · cases found : g.sourceOf t with
        | none =>
            simp only [found] at done
            cases done
            refine ⟨⟨fun u member => List.mem_cons_of_mem _ member, fun _ member => member,
              fun u member => ?_⟩, List.mem_cons_self⟩
            rcases List.mem_cons.mp member with rfl | old
            · refine Or.inr fun src impossible => ?_
              rw [found] at impossible
              cases impossible
            · exact Or.inl old
        | some source =>
            simp only [found] at done
            obtain ⟨c₂, loop, rest⟩ := bind_ok_iff.mp done
            obtain ⟨root, _, last⟩ := bind_ok_iff.mp rest
            cases last
            have deps := env.order_perm t ((g.dependencies t).getD [])
            have loopSpec := foldlM_invariant
              (I := Processed g { c with processed := t :: c.processed })
              (fun s x s' _ before one => before.trans (ih one).1) (.refl _) loop
            have each : ∀ d ∈ (g.dependencies t).getD [], d ∈ c₂.processed := by
              intro d inside
              exact foldlM_progress (I := fun _ => True) (Q := fun s => d ∈ s.processed)
                (fun _ _ _ _ _ _ => trivial) (fun s x s' _ _ one => (ih one).1.marked d)
                (deps.mem_iff.mpr inside) (fun s s' _ one => (ih one).2) trivial loop
            have marked := loopSpec.marked t List.mem_cons_self
            refine ⟨⟨fun u member => loopSpec.marked u (List.mem_cons_of_mem _ member),
              fun u member => List.mem_append_left _ (loopSpec.copied u member),
              fun u member => ?_⟩, marked⟩
            by_cases self : u = t
            · subst self
              exact Or.inr fun _ _ =>
                ⟨List.mem_append_right _ List.mem_cons_self, each⟩
            · rcases loopSpec.closed u member with before | closed
              · rcases List.mem_cons.mp before with same | old
                · exact absurd same self
                · exact Or.inl old
              · refine Or.inr fun src there => ?_
                obtain ⟨copied, inside⟩ := closed src there
                exact ⟨List.mem_append_left _ copied, inside⟩

/-- What every copy of a path of the graph keeps holds after `process`. -/
theorem process_invariant {g : Graph} {I : FileSystem String → List Text → Prop}
    (step : ∀ root copied t src root', I root copied → g.sourceOf t = some src →
      copy env src t root = .ok root' → I root' (copied ++ [t])) {fuel : Nat} {c c' : Copying}
    {t : Text} (start : I c.root c.copied) (done : process env g fuel c t = .ok c') :
    I c'.root c'.copied := by
  induction fuel generalizing c c' t with
  | zero => cases done
  | succ fuel ih =>
      rw [process] at done
      split at done
      · cases done
        exact start
      · cases found : g.sourceOf t with
        | none =>
            simp only [found] at done
            cases done
            exact start
        | some source =>
            simp only [found] at done
            obtain ⟨c₂, loop, rest⟩ := bind_ok_iff.mp done
            obtain ⟨root, copying, last⟩ := bind_ok_iff.mp rest
            cases last
            have before := foldlM_invariant (I := fun c : Copying => I c.root c.copied)
              (s := { c with processed := t :: c.processed })
              (fun s x s' _ holds one => ih holds one) start loop
            exact step _ _ _ _ _ before found copying

/-- A successful run copies what it walks over, and changes nothing else. -/
theorem main_spec {fuel : Nat} {source : Text} {c : Copying} (mirrors : Mirrors env root)
    (done : main env fuel source source root = .ok c) :
    Copied env root c.root c.copied ∧ (∀ t, t ∈ c.copied ↔ Visited env root source t) ∧
      ∀ t ∈ c.copied, Dep env t (dirname t) := by
  obtain ⟨g, building, copying⟩ := bind_ok_iff.mp done
  have built := (Built.start source).buildGraph building
  have sources : ∀ t src, g.sourceOf t = some src → src = some t ∧ Visited env root source t :=
    fun t src found => ⟨(built.sources t src found).1, (built.sources t src found).2.1⟩
  have state := process_invariant
    (I := fun root' copied => Copied env root root' copied ∧ ∀ t ∈ copied, Visited env root source t)
    (fun root' copied t src root'' before found one => by
      obtain ⟨rfl, visited⟩ := sources t src found
      refine ⟨before.1.copy visited.fresh.2 one, fun u member => ?_⟩
      rcases List.mem_append.mp member with old | new
      · exact before.2 u old
      · rw [List.mem_singleton.mp new]
        exact visited)
    ⟨.start mirrors, fun t (impossible : t ∈ []) => (nomatch impossible)⟩ copying
  obtain ⟨processed, first⟩ := process_spec copying
  refine ⟨state.1, fun t => ⟨state.2 t, fun visited => ?_⟩, fun t member =>
    (built.sources t _ ((built.sourceOf_iff t).mpr (state.2 t member))).2.2.1⟩
  have closed : ∀ u ∈ c.processed, ∀ src, g.sourceOf u = some src →
      u ∈ c.copied ∧ ∀ d ∈ (g.dependencies u).getD [], d ∈ c.processed := by
    intro u member
    rcases processed.closed u member with impossible | done
    · cases impossible
    · exact done
  have marked : ∀ u, Visited env root source u → u ∈ c.processed := by
    intro u visited
    induction visited with
    | start _ => exact first
    | dep before dep _ ih =>
        have found := (built.sourceOf_iff _).mpr before
        obtain ⟨_, _, _, recorded, there, same⟩ := built.sources _ _ found
        refine (closed _ ih _ found).2 _ ?_
        rw [there]
        exact (same _).mpr dep
  exact (closed t (marked t visited) _ ((built.sourceOf_iff t).mpr visited)).1

end GnomeBuildMeta.Initramfs
