import GnomeBuildMeta.Control.Run
import GnomeBuildMeta.Initramfs.CopyInitramfsRun

/-!
# Dependencies in the target root

Over any number of runs, every path that a copied file depends on should resolve
in the target root as it does on the host.  A path that a run finds copied is
skipped together with its directory part, and what the host reaches through a
link above it may then be out of reach.
-/

namespace GnomeBuildMeta.Initramfs

open GnomeBuildMeta.Control GnomeBuildMeta.Posix

/-- The target root and all that `copy` was called for so far. -/
structure State where
  root : FileSystem String
  copied : List Text

/-- One successful run with equal source and destination. -/
def Step (env : Env) (s : State) (source : Text) (s' : State) : Prop :=
  ∃ fuel c, main env fuel source source s.root = .ok c ∧ s' = ⟨c.root, s.copied ++ c.copied⟩

/-- What the host reaches by a text the target root reaches by it too, and as a copy. -/
def Reproduced (env : Env) (root : FileSystem String) (d : Text) : Prop :=
  ∀ q node, env.host.locate true d = .ok q → env.host.get q = some node →
    root.locate true d = .ok q ∧
      ∃ copy, root.get q = some copy ∧ (q = [] ∨ copy = env.copyOf node)

/-- All that a copied file depends on is reproduced. -/
def Dependable (env : Env) (s : State) : Prop :=
  ∀ t ∈ s.copied, ∀ d, Dep env t d → Reproduced env s.root d

/--
The directory part of a skipped dependency resolves already, and no relative
link that the run walks over takes back a name with a `..`.
-/
structure Careful (env : Env) (root : FileSystem String) (source : Text) : Prop where
  skipped : ∀ t d, Visited env root source t → Dep env t d →
    isAlreadyCopied env.host root d = true → env.host.lexists d = true →
      Reproduced env root (dirname d)
  noDetour : ∀ t link, Visited env root source t → env.host.readlink t = some link →
    isabs link = false → straight link = true

/-! ## Resolutions that carry over -/

/-- Each resolution of a text on the host is one in the target root. -/
def Complete (env : Env) (root : FileSystem String) (d : Text) : Prop :=
  ∀ k q, k ≤ maxSymlinks → Reaches env.host.get true [] d k q → Reaches root.get true [] d k q

/-- The same for each link of the target root, read from its directory. -/
def LinksComplete (env : Env) (root : FileSystem String) : Prop :=
  ∀ n dir link, root.get (n :: dir) = some (.symlink link) → ∀ k q, k ≤ maxSymlinks →
    Reaches env.host.get true (linkStart dir link) link k q →
      Reaches root.get true (linkStart dir link) link k q

variable {env : Env} {root root' : FileSystem String}

theorem Complete.reproduced (mirrors : Mirrors env root) {d : Text} (complete : Complete env root d) :
    Reproduced env root d := by
  intro q node located found
  obtain ⟨k, enough, reaches⟩ := Reaches.of_walk located (Option.isSome_of_eq_some found)
  have there := complete k q enough reaches
  refine ⟨there.walk_eq enough, ?_⟩
  obtain ⟨copy, found'⟩ := Option.isSome_iff_exists.mp (there.exists_node root.grounded root.isDirAt_root)
  refine ⟨copy, found', ?_⟩
  rcases mirrors q copy found' with top | ⟨original, same, rfl⟩
  · exact Or.inl top
  · cases found.symm.trans same
    exact Or.inr rfl

theorem Reproduced.complete (mirrors : Mirrors env root) {d : Text}
    (reproduced : Reproduced env root d) : Complete env root d := by
  intro k q enough reaches
  obtain ⟨node, found⟩ :=
    Option.isSome_iff_exists.mp (reaches.exists_node env.host.grounded env.host.isDirAt_root)
  obtain ⟨located, copy, there, _⟩ := reproduced q node (reaches.walk_eq enough) found
  obtain ⟨k', _, reaches'⟩ := Reaches.of_walk located (Option.isSome_of_eq_some there)
  obtain ⟨rfl, _⟩ := reaches.unique (reaches'.mono mirrors.covers)
  exact reaches'

theorem Complete.grow {d : Text} (grows : ∀ p node, root.get p = some node → root'.get p = some node)
    (complete : Complete env root d) : Complete env root' d :=
  fun k q enough reaches => (complete k q enough reaches).mono (.of_extends grows)

/-- The text that a link is recorded with leads where the link does. -/
theorem reaches_linkDependency {dir q : Path String} {link : Text} {k : Nat}
    (isDir : env.host.isDirAt dir = true) (noDetour : isabs link = false → straight link = true)
    (reaches : Reaches env.host.get true (linkStart dir link) link k q) :
    Reaches env.host.get true [] (linkDependency dir link) k q := by
  rw [linkDependency]
  by_cases absolute : isabs link = true
  · rw [linkStart_of_isabs absolute] at reaches
    rw [if_pos absolute]
    exact reaches
  · rw [linkStart_of_not_isabs absolute] at reaches
    rw [if_neg absolute]
    exact reaches.absText_normFrom env.host.grounded isDir
      (noDetour (Bool.eq_false_iff.mpr absolute))

/-- If that text resolves in the target root, so does the link. -/
theorem reaches_link (mirrors : Mirrors env root) {dir q : Path String} {link : Text} {k : Nat}
    (isDir : root.isDirAt dir = true) (noDetour : isabs link = false → straight link = true)
    (reaches : Reaches env.host.get true (linkStart dir link) link k q)
    (recorded : Reaches root.get true [] (linkDependency dir link) k q) :
    Reaches root.get true (linkStart dir link) link k q := by
  rw [linkDependency] at recorded
  by_cases absolute : isabs link = true
  · rw [if_pos absolute] at recorded
    rw [linkStart_of_isabs absolute]
    exact recorded
  · rw [linkStart_of_not_isabs absolute] at reaches ⊢
    rw [if_neg absolute] at recorded
    exact reaches.of_absText_normFrom env.host.grounded root.grounded mirrors.covers isDir
      (noDetour (Bool.eq_false_iff.mpr absolute)) recorded

/-! ## One run -/

/-- What a run needs to know of the target root, and leaves behind. -/
structure Sound (env : Env) (root : FileSystem String) : Prop where
  mirrors : Mirrors env root
  links : LinksComplete env root

/-- Asked for by a run that copies something. -/
def Asked (env : Env) (root : FileSystem String) (source d : Text) : Prop :=
  Visited env root source d ∨ ∃ t, Visited env root source t ∧ Dep env t d

section Run

variable {source : Text} {copied : List Text}

/-- The directory of a visited link, and what the link is recorded with. -/
theorem link_of_visited (careful : Careful env root source) {t : Text} {link : Text}
    (visited : Visited env root source t)
    (found : env.host.lstat t = some (.symlink link)) :
    ∃ n dir, env.host.isDirAt dir = true ∧ reallinkpath env.host t = n :: dir ∧
      Dep env t (linkDependency dir link) ∧ (isabs link = false → straight link = true) := by
  obtain ⟨n, _, _, _, isDir, location, _⟩ := location_of_link found
  refine ⟨n, env.host.realpath (dirname t), isDir, location,
    ⟨[linkDependency (env.host.realpath (dirname t)) link], ?_, Or.inl List.mem_cons_self⟩, ?_⟩
  · simp only [getDependencies, found]
  · exact careful.noDetour t link visited (by rw [FileSystem.readlink, found]; rfl)

/-- What is found under a text is there, or the run brings it. -/
theorem present_of_asked (sound : Sound env root) (after : Copied env root root' copied)
    (visited' : ∀ t, t ∈ copied ↔ Visited env root source t) {d : Text} {node : Node String}
    (asked : Asked env root source d) (found : env.host.lstat d = some node) :
    isAlreadyCopied env.host root d = true ∧ (root.get (reallinkpath env.host d)).isSome = true ∧
        (∃ t, Visited env root source t ∧ Dep env t d) ∨
      Visited env root source d ∧ (root'.get (reallinkpath env.host d)).isSome = true := by
  by_cases skipped : isAlreadyCopied env.host root d = true
  · left
    refine ⟨skipped, ?_, ?_⟩
    · rw [← root.lexists_textOf (sound.mirrors.plain (get_reallinkpath found))]
      exact skipped
    · rcases asked with visited | dep
      · rw [visited.fresh.1] at skipped
        cases skipped
      · exact dep
  · right
    have visited : Visited env root source d := by
      rcases asked with visited | ⟨t, before, dep⟩
      · exact visited
      · exact .dep before dep ⟨Bool.eq_false_iff.mpr skipped, Option.isSome_of_eq_some found⟩
    exact ⟨visited, after.present d ((visited' d).mpr visited)⟩

/-- The last piece of a text leads on as on the host, if what it names is there. -/
theorem reaches_last (mirrors : Mirrors env root) {dir q : Path String} {piece : Piece String}
    {k : Nat} (present : (root.get (lexical dir piece)).isSome = true)
    (reaches : Reaches env.host.get true dir [piece] k q)
    (links : ∀ n link k', piece = .name n → env.host.get (n :: dir) = some (.symlink link) → k' < k →
      Reaches env.host.get true (linkStart dir link) link k' q →
        Reaches root.get true (linkStart dir link) link k' q) :
    Reaches root.get true dir [piece] k q := by
  cases reaches with
  | empty later =>
      cases later
      exact .empty .done
  | cur later =>
      cases later
      exact .cur .done
  | up later =>
      cases later
      exact .up .done
  | dir below later =>
      cases later
      exact .dir (mirrors.isDirAt present below) .done
  | leaf here noDir noLink =>
      rename_i n node
      obtain ⟨copy, here', same, target⟩ := mirrors.node present here
      refine .leaf here' (same.trans noDir) fun isLink => noLink ?_
      cases node <;> cases copy <;> simp_all [Node.isSymlink, Node.target]
  | link here _ later =>
      rw [List.append_nil] at later
      refine .link (mirrors.symlink present here) (Or.inl rfl) ?_
      rw [List.append_nil]
      exact links _ _ _ rfl here (Nat.lt_succ_self _) later

/-- A resolution carries over if those of the directory part and over fewer links do. -/
theorem reaches_of_asked (sound : Sound env root) (careful : Careful env root source)
    (after : Copied env root root' copied)
    (visited' : ∀ t, t ∈ copied ↔ Visited env root source t)
    (directories : ∀ t ∈ copied, Dep env t (dirname t)) {k : Nat} {d : Text} {q : Path String}
    (asked : Asked env root source d) (enough : k ≤ maxSymlinks)
    (reaches : Reaches env.host.get true [] d k q)
    (shorter : weight (dirname d) < weight d → Asked env root source (dirname d) → ∀ k₁ ≤ k,
      ∀ dir, Reaches env.host.get true [] (dirname d) k₁ dir →
        Reaches root'.get true [] (dirname d) k₁ dir)
    (fewer : ∀ k₁ < k, ∀ d', Asked env root source d' → ∀ q', Reaches env.host.get true [] d' k₁ q' →
      Reaches root'.get true [] d' k₁ q') : Reaches root'.get true [] d k q := by
  by_cases proper : ∃ piece ∈ d, piece ≠ .empty
  · obtain ⟨k', p, less, whole⟩ := reaches.unfollow
    obtain ⟨node, there⟩ := Option.isSome_iff_exists.mp
      (whole.exists_node env.host.grounded env.host.isDirAt_root)
    have found : env.host.lstat d = some node :=
      FileSystem.lstat_eq_some_iff.mpr ⟨k', p, less.trans enough, whole, there⟩
    have shrinks := weight_dirname_lt proper
    obtain ⟨init, piece, rfl⟩ : ∃ init piece, d = init ++ [piece] := by
      rcases List.eq_nil_or_concat d with rfl | ⟨init, piece, rfl⟩
      · obtain ⟨_, impossible, _⟩ := proper
        cases impossible
      · exact ⟨init, piece, List.concat_eq_append⟩
    obtain ⟨k₁, dir, k₂, one, isDir, two, rfl⟩ :=
      reaches.split env.host.grounded (List.cons_ne_nil _ _) env.host.isDirAt_root
    have one' : Reaches env.host.get true [] (dirname (init ++ [piece])) k₁ dir := by
      rw [reaches_dirname_iff env.host.grounded isDir, List.dropLast_concat]
      exact one
    have location : reallinkpath env.host (init ++ [piece]) = lexical dir piece := by
      rw [reallinkpath, env.host.realpath_of_reaches one']
      simp [basename]
    have brought := present_of_asked sound after visited' asked found
    rw [location] at brought
    -- the directory part resolves in the target root, and what it is asked for is there
    have parts : Reaches root'.get true [] (dirname (init ++ [piece])) k₁ dir ∧
        (root'.get (lexical dir piece)).isSome = true := by
      rcases brought with ⟨skipped, present, t, before, dep⟩ | ⟨visited, present⟩
      · have kept := (careful.skipped t _ before dep skipped (Option.isSome_of_eq_some found)).complete
          sound.mirrors
        refine ⟨kept.grow after.kept k₁ dir (by omega) one', ?_⟩
        obtain ⟨copy, here⟩ := Option.isSome_iff_exists.mp present
        exact Option.isSome_of_eq_some (after.kept _ _ here)
      · refine ⟨shorter shrinks (Or.inr ⟨_, visited, ?_⟩) k₁ (by omega) dir one', present⟩
        exact directories _ ((visited' _).mpr visited)
    obtain ⟨up, present⟩ := parts
    have isDir' : root'.isDirAt dir = true :=
      after.mirrors.isDirAt (up.exists_node root'.grounded root'.isDirAt_root) isDir
    have last : Reaches root'.get true dir [piece] k₂ q := by
      refine reaches_last after.mirrors present two fun n link k' isName here less' later => ?_
      subst isName
      rcases brought with ⟨_, old, _⟩ | ⟨visited, _⟩
      · -- a link that the target root had before
        have before := sound.links n dir link (sound.mirrors.symlink old here) k' q (by omega) later
        exact before.mono (.of_extends after.kept)
      · have atLink : env.host.lstat (init ++ [.name n]) = some (.symlink link) := by
          rw [found, ← get_reallinkpath found, location]
          exact here
        obtain ⟨n', dir', _, same, dep, noDetour⟩ := link_of_visited careful visited atLink
        obtain ⟨rfl, rfl⟩ := List.cons.inj (location.symm.trans same)
        refine reaches_link after.mirrors isDir' noDetour later ?_
        exact fewer k' (by omega) _ (Or.inr ⟨_, visited, dep⟩) q
          (reaches_linkDependency isDir noDetour later)
    rw [reaches_dirname_iff root'.grounded isDir', List.dropLast_concat] at up
    exact up.append isDir' last
  · have empties : ∀ piece ∈ d, piece = .empty := by
      intro piece member
      by_contra other
      exact proper ⟨piece, member, other⟩
    rw [reaches_empties empties] at reaches ⊢
    exact reaches

/-- By induction on the links still to follow, and then on the text. -/
theorem complete_of_asked (sound : Sound env root) (careful : Careful env root source)
    (after : Copied env root root' copied)
    (visited' : ∀ t, t ∈ copied ↔ Visited env root source t)
    (directories : ∀ t ∈ copied, Dep env t (dirname t)) {d : Text}
    (asked : Asked env root source d) : Complete env root' d := by
  have bounded : ∀ k, ∀ d, Asked env root source d → k ≤ maxSymlinks → ∀ k₁ ≤ k, ∀ q,
      Reaches env.host.get true [] d k₁ q → Reaches root'.get true [] d k₁ q := by
    intro k
    induction k using Nat.strong_induction_on with
    | h k outer =>
        intro d
        generalize size : weight d = w
        induction w using Nat.strong_induction_on generalizing d with
        | h w inner =>
            intro asked enough k₁ least q reaches
            refine reaches_of_asked sound careful after visited' directories asked (by omega) reaches
              (fun shrinks asked' k₂ few dir one => ?_) (fun k₂ less d' asked' q' one => ?_)
            · exact inner _ (size ▸ shrinks) _ rfl asked' enough k₂ (by omega) dir one
            · exact outer k₂ (by omega) d' asked' (by omega) k₂ (Nat.le_refl k₂) q' one
  exact fun k q enough reaches => bounded k d asked enough k (Nat.le_refl k) q reaches

/-- The links of the target root lead on there as on the host, the new ones too. -/
theorem Sound.after (sound : Sound env root) (careful : Careful env root source)
    (after : Copied env root root' copied)
    (visited' : ∀ t, t ∈ copied ↔ Visited env root source t)
    (directories : ∀ t ∈ copied, Dep env t (dirname t)) : Sound env root' := by
  refine ⟨after.mirrors, fun n dir link found k q enough reaches => ?_⟩
  rcases after.new _ (Option.isSome_of_eq_some found) with old | ⟨t, member, location⟩
  · obtain ⟨node, there⟩ := Option.isSome_iff_exists.mp old
    cases found.symm.trans (after.kept _ _ there)
    exact (sound.links n dir link there k q enough reaches).mono (.of_extends after.kept)
  · have visited := (visited' t).mp member
    obtain ⟨node, onHost⟩ := Option.isSome_iff_exists.mp visited.fresh.2
    have here := get_reallinkpath onHost
    rw [← location] at here
    obtain ⟨original, same, _, target⟩ := after.mirrors.covers _ _ found
    cases here.symm.trans same
    obtain rfl : node = .symlink link := by
      cases node <;> simp_all [Node.target]
    obtain ⟨n', dir', isDir, same', dep, noDetour⟩ := link_of_visited careful visited onHost
    obtain ⟨rfl, rfl⟩ := List.cons.inj (location.trans same')
    refine reaches_link after.mirrors (root'.parent_isDirAt found) noDetour reaches ?_
    exact complete_of_asked sound careful after visited' directories (Or.inr ⟨t, visited, dep⟩) k q
      enough (reaches_linkDependency isDir noDetour reaches)

end Run

/-! ## All runs -/

/-- What holds of the target root between the runs. -/
structure Between (env : Env) (s : State) : Prop where
  sound : Sound env s.root
  dependencies : ∀ t ∈ s.copied, ∀ d, Dep env t d → Complete env s.root d

theorem Between.start (perm : Nat) : Between env ⟨.bare perm, []⟩ where
  sound := ⟨.bare perm, fun _ _ _ impossible => (nomatch impossible)⟩
  dependencies _ impossible := nomatch impossible

theorem Between.step {s s' : State} {source : Text} (between : Between env s)
    (run : Step env s source s') (careful : Careful env s.root source) : Between env s' := by
  obtain ⟨fuel, c, done, rfl⟩ := run
  obtain ⟨after, visited', directories⟩ := main_spec between.sound.mirrors done
  refine ⟨between.sound.after careful after visited' directories, fun t member d dep => ?_⟩
  rcases List.mem_append.mp member with old | new
  · exact (between.dependencies t old d dep).grow after.kept
  · exact complete_of_asked between.sound careful after visited' directories
      (Or.inr ⟨t, (visited' t).mp new, dep⟩)

/-- Careful runs keep every dependency of every copied file within reach. -/
theorem main_dependable {perm : Nat} {sources : List Text} {s : State}
    (run : Run (fun s source s' => Step env s source s' ∧ Careful env s.root source)
      ⟨.bare perm, []⟩ sources s) : Dependable env s := by
  have between : Between env s :=
    run.invariant (I := fun _ s => Between env s) (Between.start perm)
      fun _ s' source s'' before one => before.step one.1 one.2
  exact fun t member d dep => (between.dependencies t member d dep).reproduced between.sound.mirrors

/-! ## Checking a run -/

/-- What a path is recorded with. -/
def recorded (env : Env) (t : Text) : List Text :=
  match getDependencies env t with
  | .ok deps => dirname t :: deps
  | .error _ => []

theorem dep_iff {t d : Text} : Dep env t d ↔ d ∈ recorded env t := by
  rw [recorded]
  constructor
  · rintro ⟨deps, reported, inside⟩
    rw [reported, List.mem_cons]
    exact inside.symm
  · intro inside
    cases reported : getDependencies env t with
    | ok deps =>
        rw [reported, List.mem_cons] at inside
        exact ⟨deps, reported, inside.symm⟩
    | error e =>
        rw [reported] at inside
        cases inside

instance {t : Text} : Decidable (Fresh env root t) := inferInstanceAs (Decidable (_ ∧ _))

/-- One resolution on the host and one in the target root decide whether a text is reproduced. -/
def reproduces (env : Env) (root : FileSystem String) (d : Text) : Bool :=
  match env.host.locate true d with
  | .error _ => true
  | .ok q =>
      match env.host.get q, root.locate true d, root.get q with
      | none, _, _ => true
      | some node, .ok p, some copy => p = q && (q = [] || copy = env.copyOf node)
      | some _, _, _ => false

theorem reproduces_iff {d : Text} : reproduces env root d = true ↔ Reproduced env root d := by
  rw [reproduces]
  unfold Reproduced
  cases env.host.locate true d with
  | error e => simp
  | ok q =>
      have atOnce : (∀ q' node, Except.ok (ε := Errno) q = .ok q' → env.host.get q' = some node →
          root.locate true d = .ok q' ∧ ∃ copy, root.get q' = some copy ∧
            (q' = [] ∨ copy = env.copyOf node)) ↔
          ∀ node, env.host.get q = some node → root.locate true d = .ok q ∧
            ∃ copy, root.get q = some copy ∧ (q = [] ∨ copy = env.copyOf node) := by
        constructor
        · exact fun all node => all q node rfl
        · rintro all q' node ⟨⟩
          exact all node
      rw [atOnce]
      dsimp only
      cases env.host.get q <;> cases root.locate true d <;> cases root.get q <;> simp

instance {d : Text} : Decidable (Reproduced env root d) := decidable_of_iff _ reproduces_iff

/-- A list that holds the source and is closed under what is fresh holds all visited paths. -/
theorem Visited.mem {source t : Text} {ts : List Text} (start : source ∈ ts)
    (closed : ∀ u ∈ ts, ∀ d ∈ recorded env u, Fresh env root d → d ∈ ts)
    (visited : Visited env root source t) : t ∈ ts := by
  induction visited with
  | start _ => exact start
  | dep _ dep fresh ih => exact closed _ ih _ (dep_iff.mp dep) fresh

theorem Careful.of_mem {source : Text} (ts : List Text) (start : source ∈ ts)
    (closed : ∀ u ∈ ts, ∀ d ∈ recorded env u, Fresh env root d → d ∈ ts)
    (skipped : ∀ u ∈ ts, ∀ d ∈ recorded env u, isAlreadyCopied env.host root d = true →
      Reproduced env root (dirname d))
    (noDetour : ∀ u ∈ ts, ∀ link ∈ env.host.readlink u, isabs link = false → straight link = true) :
    Careful env root source where
  skipped t d visited dep copied _ := skipped t (visited.mem start closed) d (dep_iff.mp dep) copied
  noDetour t link visited found := noDetour t (visited.mem start closed) link found

/-! ## A merged `/usr` -/

/-- `/lib` is a link into `/usr`, and a program names its interpreter through it. -/
def mergedHost : FileSystem String where
  entries :=
    [([], .dir 0o755),
      (["usr"], .dir 0o755),
      (["bin", "usr"], .dir 0o755),
      (["sh", "bin", "usr"], .file ⟨0o755, 1, 0, 0⟩ [127]),
      (["lib", "usr"], .dir 0o755),
      (["ld.so", "lib", "usr"], .file ⟨0o755, 1, 0, 0⟩ [127]),
      (["lib"], .symlink [.name "usr", .name "lib"])]
  nodup := by simp
  root := rfl
  parents := by simp [List.lookup_cons, List.lookup_nil, Node.isDir]

def shellText : Text := [.empty, .name "usr", .name "bin", .name "sh"]

def interpreterText : Text := [.empty, .name "lib", .name "ld.so"]

def interpreterUsrText : Text := [.empty, .name "usr", .name "lib", .name "ld.so"]

def mergedEnv : Env where
  host := mergedHost
  fileDependencies := fun t => .ok (if t = shellText then [interpreterText] else [])
  order := fun _ deps => deps
  order_perm := fun _ _ => .refl _
  uid := 0
  gid := 0

/-- The interpreter is copied under its own name first, and the link to it never. -/
theorem interpreter_lost : ∃ s, Run (Step mergedEnv) ⟨.bare 0o755, []⟩
    [interpreterUsrText, shellText] s ∧ ¬ Dependable mergedEnv s := by
  refine ⟨_, .snoc (.snoc .nil ⟨20, _, rfl, rfl⟩) ⟨20, _, rfl, rfl⟩, fun dependable => ?_⟩
  have reproduced := dependable shellText (by decide) interpreterText
    ⟨[interpreterText], rfl, Or.inl List.mem_cons_self⟩
  obtain ⟨located, _⟩ := reproduced ["ld.so", "lib", "usr"] _ rfl rfl
  exact nomatch located

/-- The target root once the interpreter is copied by the name that programs use. -/
def afterInterpreter : State :=
  match main mergedEnv 20 interpreterText interpreterText (.bare 0o755) with
  | .ok c => ⟨c.root, c.copied⟩
  | .error _ => ⟨.bare 0o755, []⟩

/-- In the other order the program finds its interpreter. -/
theorem interpreter_kept : ∃ s, Run (Step mergedEnv) ⟨.bare 0o755, []⟩ [interpreterText, shellText] s ∧
    s.copied.length = 6 ∧ Dependable mergedEnv s := by
  have first : Step mergedEnv ⟨.bare 0o755, []⟩ interpreterText afterInterpreter :=
    ⟨20, _, rfl, rfl⟩
  have firstCareful : Careful mergedEnv (.bare 0o755) interpreterText :=
    .of_mem [interpreterText, [.empty, .name "lib"], [.empty, .name "usr", .name "lib"],
      [.empty, .name "usr"]] (by decide) (by decide) (by decide) (by decide)
  have secondCareful : Careful mergedEnv afterInterpreter.root shellText :=
    .of_mem [shellText, [.empty, .name "usr", .name "bin"]]
      (by decide) (by decide) (by decide) (by decide)
  refine ⟨_, .snoc (.snoc .nil first) ⟨20, _, rfl, rfl⟩, rfl, ?_⟩
  exact main_dependable (.snoc (.snoc .nil ⟨first, firstCareful⟩) ⟨⟨20, _, rfl, rfl⟩, secondCareful⟩)

end GnomeBuildMeta.Initramfs
