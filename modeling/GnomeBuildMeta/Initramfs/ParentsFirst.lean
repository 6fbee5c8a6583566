import GnomeBuildMeta.Control.Run
import GnomeBuildMeta.Initramfs.CopyScript
import GnomeBuildMeta.Initramfs.HostDirectories

/-!
# Directories before their entries

`copy` does not make the directory of its destination.  It is there because the
traversal has been to it before: a directory is never in progress when one of
its entries is copied.  What a destination of another name adds has to fit.
-/

namespace GnomeBuildMeta.Initramfs

open GnomeBuildMeta.Control GnomeBuildMeta.Posix

/-- Where the target root has a path that leads to a directory of the host, it has the directory. -/
def Ready (host root : FileSystem String) : Prop :=
  ∀ t, host.isdir t = true → (root.get (reallinkpath host t)).isSome = true →
    root.isDirAt (host.realpath t) = true

/-- What a destination of another name finds on the host and in the target root. -/
structure Fits (host root : FileSystem String) (source dest : Text) : Prop where
  /-- The first of its directories that the host has is a directory. -/
  landing : ∀ x, x = dirname dest ∨ (∃ t, MissingUp host (dirname dest) t ∧ x = dirname t) →
    host.lexists x = true → host.isdir x = true
  /-- Nothing but a directory is where the directories before it are made. -/
  free : ∀ t, MissingUp host (dirname dest) t →
    (∀ node, host.get (reallinkpath host t) = some node → node.isDir = true) ∧
      ∀ node, root.get (reallinkpath host t) = some node → node.isDir = true
  /-- A directory of the host is at its place only if it is to be one too. -/
  place : host.isdir (textOf (reallinkpath host dest)) = true →
    host.isDirAt (reallinkpath host dest) = true ∧ ∃ perm, host.lstat source = some (.dir perm)

variable {env : Env} {host root root' : FileSystem String} {t : Text}

namespace Ready

theorem bare (host : FileSystem String) (perm : Nat) : Ready host (.bare perm) := by
  intro t isdir there
  obtain ⟨k, q, leads⟩ := isdir_iff.mp isdir
  rw [leads.realpath]
  rcases leads.last with same | ⟨n, c, _, _, location, _⟩
  · rw [same] at there
    cases q with
    | nil => exact FileSystem.isDirAt_root _
    | cons n q => cases there
  · rw [location] at there
    cases there

/-- Directories of the host are directories of the target root. -/
theorem isDirAt (ready : Ready host root) {p : Path String} (isDir : host.isDirAt p = true)
    (there : (root.get p).isSome = true) : root.isDirAt p = true := by
  obtain ⟨perm, found⟩ := (host.isDirAt_iff p).mp isDir
  have named : host.lstat (textOf p) = some (.dir perm) := by
    rw [host.lstat_textOf (FileSystem.plain_of_get found), found]
  have leads : Leads host (textOf p) 0 p := by
    refine ⟨?_, isDir, Nat.zero_le _⟩
    rw [← List.append_nil (textOf p), Reaches.textOf_append_iff host.grounded isDir]
    exact .done
  have location : reallinkpath host (textOf p) = p := by
    rw [← realpath_of_dir named, leads.realpath]
  have here := ready (textOf p) (isdir_iff.mpr ⟨0, p, leads⟩) (by rw [location]; exact there)
  rwa [leads.realpath] at here

/-- No link of the target root is above what the host has. -/
theorem plain (ready : Ready host root) {p : Path String} {node : Node String}
    (found : host.get p = some node) : root.Plain p := by
  intro q suffix proper target link
  have isDir := ready.isDirAt (host.ancestor_isDirAt found suffix proper) (Option.isSome_of_eq_some link)
  rw [FileSystem.isDirAt, link] at isDir
  cases isDir

/-- What the script finds copied is there. -/
theorem present (ready : Ready host root) (exists' : host.lexists t = true)
    (copied : isAlreadyCopied host root t = true) : (root.get (reallinkpath host t)).isSome = true := by
  obtain ⟨node, found⟩ := Option.isSome_iff_exists.mp exists'
  rwa [isAlreadyCopied, root.lexists_textOf (ready.plain (get_reallinkpath found))] at copied

end Ready

/-! ## What a copy makes -/

/-- A copy to a place in a directory finds it taken, or makes an entry there. -/
inductive Effect (root : FileSystem String) (p : Path String) (isDir : Prop) : FileSystem String → Prop where
  | taken (there : (root.get p).isSome = true) : Effect root p isDir root
  | made {root' : FileSystem String} {node : Node String} (free : root.get p = none)
      (new : ∀ q, root'.get q = if q = p then some node else root.get q)
      (kind : isDir → node.isDir = true) : Effect root p isDir root'

namespace Effect

variable {p : Path String} {isDir : Prop}

theorem present (effect : Effect root p isDir root') : (root'.get p).isSome = true := by
  cases effect with
  | taken there => exact there
  | made _ new _ =>
      rw [new, if_pos rfl]
      rfl

theorem kept (effect : Effect root p isDir root') {q : Path String} {node : Node String}
    (found : root.get q = some node) : root'.get q = some node := by
  cases effect with
  | taken _ => exact found
  | made free new _ =>
      rw [new, if_neg]
      · exact found
      · rintro rfl
        rw [free] at found
        cases found

theorem isDirAt (effect : Effect root p isDir root') {q : Path String} (before : root.isDirAt q = true) :
    root'.isDirAt q = true := by
  obtain ⟨perm, found⟩ := (root.isDirAt_iff q).mp before
  exact (root'.isDirAt_iff q).mpr ⟨perm, effect.kept found⟩

theorem grows (effect : Effect root p isDir root') : root.Grows root' := by
  intro q there
  obtain ⟨node, found⟩ := Option.isSome_iff_exists.mp there
  exact Option.isSome_of_eq_some (effect.kept found)

/-- What is there afterwards was there, or is what was to be made. -/
theorem cases (effect : Effect root p isDir root') {q : Path String} {node : Node String}
    (found : root'.get q = some node) : root.get q = some node ∨ (q = p ∧ (isDir → node.isDir = true)) := by
  cases effect with
  | taken _ => exact Or.inl found
  | made _ new kind =>
      rw [new] at found
      split at found
      · cases found
        exact Or.inr ⟨‹_›, kind⟩
      · exact Or.inl found

end Effect

/-- The copy is to be a directory. -/
def MakesDir (host : FileSystem String) (source : Option Text) : Prop :=
  ∀ s, source = some s → ∃ perm, host.lstat s = some (.dir perm)

theorem copy_effect {source : Option Text} (parent : root.isDirAt (reallinkpath env.host t).tail = true)
    (done : copy env source t root = .ok root') :
    Effect root (reallinkpath env.host t) (MakesDir env.host source) root' := by
  rw [copy.eq_def] at done
  generalize reallinkpath env.host t = p at parent done ⊢
  dsimp only at done
  cases p with
  | nil =>
      have top : root.lexists (textOf []) = true :=
        lexists_of_empties fun _ impossible => (List.not_mem_nil impossible).elim
      rw [if_pos top] at done
      cases done
      obtain ⟨perm, there⟩ := root.get_root
      exact .taken (Option.isSome_of_eq_some there)
  | cons n p =>
      have isDir : root.isDirAt p = true := parent
      rw [root.lexists_textOf (FileSystem.plain_cons_of_isDirAt isDir)] at done
      split at done
      · cases done
        exact .taken ‹_›
      · rename_i free
        rw [Option.not_isSome_iff_eq_none] at free
        cases source with
        | none =>
            have new := (root.create_inv root' isDir (ofErrno_ok_iff.mp done)).2
            exact .made free new fun _ => rfl
        | some s =>
            dsimp only at done
            cases link : env.host.readlink s with
            | some target =>
                rw [link] at done
                have new := (root.create_inv root' isDir (ofErrno_ok_iff.mp done)).2
                refine .made free new fun makesDir => ?_
                obtain ⟨perm, found⟩ := makesDir s rfl
                rw [FileSystem.readlink, found] at link
                cases link
            | none =>
                rw [link] at done
                dsimp only at done
                split at done
                · obtain ⟨made, first, second⟩ := bind_ok_iff.mp done
                  have new := (root.create_inv made isDir (ofErrno_ok_iff.mp first)).2
                  have there : made.get (n :: p) = some (.dir 0o755) := (new _).trans (if_pos rfl)
                  rw [copystat] at second
                  split at second
                  · rename_i perm _
                    rw [ofErrno_ok_iff, made.chmod_dir perm there] at second
                    cases second
                    refine @Effect.made _ _ _ _ (.dir perm) free (fun q => ?_) fun _ => rfl
                    rw [made.get_chmodAt, new]
                    split <;> rfl
                  · cases second
                · rename_i noDir
                  rw [copy2] at done
                  split at done
                  · have new := root.writeFile_inv root' isDir (by simp [free]) (ofErrno_ok_iff.mp done)
                    refine .made free new fun makesDir => ?_
                    obtain ⟨perm, found⟩ := makesDir s rfl
                    refine absurd ?_ noDir
                    rw [isdir_of_lstat found rfl]
                    rfl
                  · cases done

/-! ## The order of the paths -/

/-- A path that the target root lacks has a piece that is no slash. -/
theorem proper_of_new (new : isAlreadyCopied host root t = false) : ∃ piece ∈ t, piece ≠ .empty := by
  by_contra none'
  have empties : ∀ piece ∈ t, piece = .empty := fun piece member =>
    by_contra fun other => none' ⟨piece, member, other⟩
  have reaches : Reaches host.get false [] t 0 [] := (reaches_empties empties).mpr ⟨rfl, rfl⟩
  obtain ⟨_, _, _, _, location, same⟩ := reallinkpath_of_reaches reaches
  have top : root.lexists (textOf []) = true :=
    lexists_of_empties fun _ impossible => (List.not_mem_nil impossible).elim
  rw [isAlreadyCopied, location, ← same, top] at new
  cases new

/-- What a run that copies something works with. -/
structure Setting (env : Env) (start : FileSystem String) (source dest : Text) (g : Graph) : Prop where
  plain : LinksPlain env.host
  ready : Ready env.host start
  fits : source ≠ dest → Fits env.host start source dest
  finished : Finished env start source dest g
  recorded : (g.sourceOf dest).isSome = true

namespace Setting

variable {start : FileSystem String} {source dest d : Text} {g : Graph} {src : Option Text} {r : Nat × Nat}
  {recorded deps : List Text}

/-- What a path to a directory needs leads on over less. -/
theorem self_under (setting : Setting env start source dest g) (new : isAlreadyCopied env.host start t = false)
    {k : Nat} {q : Path String} (leads : Leads env.host t k q)
    (reported : getDependencies env t = .ok deps) (inside : d ∈ deps ∨ d = dirname t) :
    ∃ k' q', Leads env.host d k' q' ∧ Under (k', weight d) (k, weight t) := by
  rcases inside with among | rfl
  · obtain ⟨node, found⟩ := Option.isSome_iff_exists.mp leads.lexists
    have here := get_reallinkpath found
    rcases leads.last with same | ⟨n, c, link, k₂, location, isDir, there, later, fewer⟩
    · obtain ⟨perm, dir⟩ := (env.host.isDirAt_iff q).mp leads.isDir
      rw [same, dir] at here
      cases here
      rw [getDependencies_of_dir found] at reported
      cases reported
      exact (List.not_mem_nil among).elim
    · rw [location, there] at here
      cases here
      rw [getDependencies_of_link found location] at reported
      cases reported
      rw [List.mem_singleton] at among
      have bound := leads.enough
      obtain ⟨k', less, onward⟩ :=
        leads_linkDependency setting.plain isDir there later (by omega) leads.isDir
      rw [among]
      exact ⟨k', q, onward, Or.inl (Nat.lt_of_le_of_lt less fewer)⟩
  · obtain ⟨k', c, fewer, above⟩ := leads.dirname
    have smaller := weight_dirname_lt (proper_of_new new)
    refine ⟨k', c, above, ?_⟩
    rw [Under]
    omega

/-- The directories of a destination of another name have ranks, up to the first that is there. -/
theorem above_ranked (setting : Setting env start source dest g) (differ : source ≠ dest) {x : Text}
    (above : x = dirname dest ∨ ∃ t, MissingUp env.host (dirname dest) t ∧ x = dirname t) :
    ∃ r, Ranked env.host source dest x r ∧ r.1 ≤ maxSymlinks + 1 := by
  cases there : env.host.lexists x with
  | true =>
      obtain ⟨k, q, leads⟩ := isdir_iff.mp ((setting.fits differ).landing x above there)
      exact ⟨_, .of_leads leads, Nat.le_succ_of_le leads.enough⟩
  | false =>
      have up : MissingUp env.host (dirname dest) x := by
        rcases above with rfl | ⟨t, up, rfl⟩
        · exact .here there
        · exact up.dirname there
      exact ⟨_, .of_made ⟨differ, up⟩, Nat.le_refl _⟩

/-- No path of a rank depends on one of the same or a higher rank. -/
theorem dependency_under (setting : Setting env start source dest g)
    (sourced : Sourced env start source dest g t src) (ranked : Ranked env.host source dest t r)
    (found : g.dependencies t = some recorded) (inside : d ∈ recorded) :
    ∃ r', Ranked env.host source dest d r' ∧ Under r' r := by
  obtain ⟨k, w⟩ := r
  obtain rfl : w = weight t := ranked.size
  -- a path that is analysed itself
  have self : isAlreadyCopied env.host start t = false → env.host.lexists t = true → ∀ deps,
      getDependencies env t = .ok deps → (d ∈ deps ∨ d = dirname t) →
        ∃ r', Ranked env.host source dest d r' ∧ Under r' (k, weight t) := by
    intro new present deps reported needs
    rcases ranked.links with ⟨q, leads⟩ | ⟨made, _⟩
    · obtain ⟨k', q', onward, under⟩ := setting.self_under new leads reported needs
      exact ⟨_, .of_leads onward, under⟩
    · rw [made.2.missing] at present
      cases present
  cases sourced with
  | dependency _ fresh reported found' same =>
      cases found.symm.trans found'
      exact self fresh.1 fresh.2 _ reported ((same d).mp inside)
  | directory differ up found' =>
      cases found.symm.trans found'
      rw [List.mem_singleton] at inside
      subst inside
      rcases ranked.links with ⟨q, leads⟩ | ⟨_, highest⟩
      · have present := leads.lexists
        rw [up.missing] at present
        cases present
      · obtain ⟨r', above, fewer⟩ := setting.above_ranked differ (Or.inr ⟨t, up, rfl⟩)
        have smaller := weight_dirname_of_missing up.missing
        have size := above.size
        refine ⟨r', above, ?_⟩
        rw [Under]
        change r'.1 < k ∨ _
        change k = maxSymlinks + 1 at highest
        omega
  | destination new present reported found' same =>
      cases found.symm.trans found'
      by_cases differ : source = t
      · subst differ
        exact self new present _ reported ((same d).mp inside)
      · rcases ranked.links with ⟨q, leads⟩ | ⟨made, _⟩
        · obtain ⟨_, perm, isDir⟩ := (setting.fits differ).place leads.textOf_reallinkpath
          rw [getDependencies_of_dir isDir] at reported
          cases reported
          rcases (same d).mp inside with impossible | rfl
          · exact (List.not_mem_nil impossible).elim
          · obtain ⟨k', c, fewer, above⟩ := leads.dirname
            have smaller := weight_dirname_lt (proper_of_new new)
            refine ⟨_, .of_leads above, ?_⟩
            rw [Under]
            change k' < k ∨ _
            omega
        · exact absurd made.2 (MissingUp.not_self _ _)

/-- The directory of each path that is copied is one of these. -/
theorem dirname_ranked (setting : Setting env start source dest g)
    (sourced : Sourced env start source dest g t src) : ∃ r, Ranked env.host source dest (dirname t) r := by
  have present : ∀ {t}, env.host.lexists t = true → ∃ r, Ranked env.host source dest (dirname t) r := by
    intro t there
    obtain ⟨k, c, leads⟩ := leads_dirname_of_lexists there
    exact ⟨_, .of_leads leads⟩
  cases sourced with
  | dependency _ fresh _ _ _ => exact present fresh.2
  | directory differ up _ =>
      obtain ⟨r, ranked, _⟩ := setting.above_ranked differ (Or.inr ⟨t, up, rfl⟩)
      exact ⟨r, ranked⟩
  | destination _ there _ _ _ =>
      by_cases differ : source = t
      · subst differ
        exact present there
      · obtain ⟨r, ranked, _⟩ := setting.above_ranked differ (Or.inl rfl)
        exact ⟨r, ranked⟩

/-! ## The paths in progress -/

/-- The ranked paths in progress are of higher ranks than the path. -/
def Guard (env : Env) (source dest : Text) (stack : List Text) (t : Text) : Prop :=
  ∀ u ∈ stack, ∀ r, Ranked env.host source dest u r → ∃ r', Ranked env.host source dest t r' ∧ Under r' r

theorem guard_dependency (setting : Setting env start source dest g)
    (sourced : Sourced env start source dest g t src) {stack : List Text}
    (guard : Guard env source dest stack t) (found : g.dependencies t = some recorded) (inside : d ∈ recorded) :
    Guard env source dest (t :: stack) d := by
  intro u member r ranked
  rcases List.mem_cons.mp member with rfl | below
  · exact setting.dependency_under sourced ranked found inside
  · obtain ⟨r', ranked', under⟩ := guard u below r ranked
    obtain ⟨r'', ranked'', under'⟩ := setting.dependency_under sourced ranked' found inside
    exact ⟨r'', ranked'', under'.trans under⟩

/-- So a ranked path that is needed is not in progress. -/
theorem not_in_progress {stack : List Text} (guard : Guard env source dest stack d)
    (ranked : Ranked env.host source dest d r) : d ∉ stack := by
  intro member
  obtain ⟨r', ranked', under⟩ := guard d member r ranked
  rw [ranked'.unique ranked] at under
  exact under.irrefl

end Setting

/-- Each call of `copy` finds the directory of its destination. -/
def Safe (host : FileSystem String) (p : Progress) : Prop :=
  ∀ call ∈ p.calls, call.2.isDirAt (reallinkpath host call.1).tail = true

/-- What holds while the paths of the stack are in progress. -/
structure Going (env : Env) (start : FileSystem String) (source dest : Text) (g : Graph) (stack : List Text)
    (p : Progress) : Prop where
  ready : Ready env.host p.root
  made : ∀ t, Made env.host source dest t → ∀ node,
    p.root.get (reallinkpath env.host t) = some node → node.isDir = true
  grown : start.Grows p.root
  active : ∀ t ∈ stack, t ∈ p.processed
  done : ∀ t ∈ p.processed, t ∉ stack → (g.sourceOf t).isSome = true →
    (p.root.get (reallinkpath env.host t)).isSome = true
  safe : Safe env.host p

namespace Going

variable {start : FileSystem String} {source dest d : Text} {g : Graph} {src : Option Text} {r : Nat × Nat}
  {recorded : List Text} {stack : List Text} {p : Progress}

/-- A ranked path that is there is there as a directory. -/
theorem isDirAt (going : Going env start source dest g stack p) (setting : Setting env start source dest g)
    (ranked : Ranked env.host source dest d r) (there : (p.root.get (reallinkpath env.host d)).isSome = true) :
    p.root.isDirAt (env.host.realpath d) = true := by
  rcases ranked.links with ⟨q, leads⟩ | ⟨made, _⟩
  · exact going.ready d (isdir_iff.mpr ⟨_, q, leads⟩) there
  · obtain ⟨node, found⟩ := Option.isSome_iff_exists.mp there
    have isDir := going.made d made node found
    have free := ((setting.fits made.1).free d made.2).1
    rw [env.host.realpath_of_not_link fun target link => by
      have impossible := free _ link
      cases impossible]
    change p.root.isDirAt (reallinkpath env.host d) = true
    rw [FileSystem.isDirAt, found]
    exact isDir

/-- A ranked path that the traversal has been to is there. -/
theorem present (going : Going env start source dest g stack p) (setting : Setting env start source dest g)
    (reached : Reached g dest d) (ranked : Ranked env.host source dest d r) (seen : d ∈ p.processed)
    (idle : d ∉ stack) : (p.root.get (reallinkpath env.host d)).isSome = true := by
  cases known : (g.sourceOf d).isSome with
  | true => exact going.done d seen idle known
  | false =>
      have unneeded : ¬ Needed env start source dest d := by
        intro needed
        rw [setting.finished.known d reached needed] at known
        cases known
      rcases ranked.links with ⟨q, leads⟩ | ⟨made, _⟩
      · have other : d ≠ dest := by
          rintro rfl
          rw [setting.recorded] at known
          cases known
        refine going.grown _ (setting.ready.present leads.lexists ?_)
        exact eq_true_of_ne_false fun new => unneeded (.dependency other ⟨new, leads.lexists⟩)
      · exact absurd (.directory made.1 made.2) unneeded

/-- What the path in progress needs is there as a directory, if it is to be one. -/
theorem dependency_isDirAt (going : Going env start source dest g (t :: stack) p)
    (setting : Setting env start source dest g) (reached : Reached g dest t)
    (sourced : Sourced env start source dest g t src) (guard : Setting.Guard env source dest stack t)
    (each : ∀ recorded d, g.dependencies t = some recorded → d ∈ recorded → d ∈ p.processed)
    (found : g.dependencies t = some recorded) (inside : d ∈ recorded)
    (ranked : Ranked env.host source dest d r) : p.root.isDirAt (env.host.realpath d) = true := by
  have idle := Setting.not_in_progress (setting.guard_dependency sourced guard found inside) ranked
  have there := going.present setting (.dep reached found inside) ranked (each recorded d found inside) idle
  exact going.isDirAt setting ranked there

/-- The directory of the path in progress is there once all that it needs is done. -/
theorem directory (going : Going env start source dest g (t :: stack) p)
    (setting : Setting env start source dest g) (reached : Reached g dest t)
    (sourced : Sourced env start source dest g t src) (guard : Setting.Guard env source dest stack t)
    (each : ∀ recorded d, g.dependencies t = some recorded → d ∈ recorded → d ∈ p.processed) :
    p.root.isDirAt (env.host.realpath (dirname t)) = true := by
  obtain ⟨r, ranked⟩ := setting.dirname_ranked sourced
  obtain ⟨recorded, found, inside⟩ := sourced.dirname_mem
  exact going.dependency_isDirAt setting reached sourced guard each found inside ranked

theorem parent (isDir : p.root.isDirAt (env.host.realpath (dirname t)) = true) :
    p.root.isDirAt (reallinkpath env.host t).tail = true := by
  rw [reallinkpath]
  cases basename t with
  | name n => exact isDir
  | up => exact p.root.grounded.tail (p.root.grounded.tail isDir)
  | empty | cur => exact p.root.grounded.tail isDir

theorem call (safe : Safe env.host p) (parent : p.root.isDirAt (reallinkpath env.host t).tail = true) :
    Safe env.host (p.call t) := by
  intro call member
  rcases List.mem_append.mp member with before | last
  · exact safe call before
  · rw [List.mem_singleton.mp last]
    exact parent

/-- A directory that is made at the place of one is what leads to that place. -/
theorem isDirAt_of_made {u : Text} {node : Node String} (named : env.host.lexists u = true)
    (isDir : env.host.isDirAt (reallinkpath env.host u) = true)
    (found : root'.get (reallinkpath env.host u) = some node) (made : node.isDir = true) :
    root'.isDirAt (env.host.realpath u) = true := by
  obtain ⟨original, there⟩ := Option.isSome_iff_exists.mp named
  obtain ⟨perm, dir⟩ := (env.host.isDirAt_iff _).mp isDir
  cases dir.symm.trans (get_reallinkpath there)
  rw [realpath_of_dir there, FileSystem.isDirAt, found]
  exact made

/-- A path that is copied from itself is the directory of the host, or a link that leads on to one. -/
theorem itself_isDirAt (going : Going env start source dest g (t :: stack) p)
    (setting : Setting env start source dest g) (reached : Reached g dest t)
    (sourced : Sourced env start source dest g t (some t)) (guard : Setting.Guard env source dest stack t)
    (each : ∀ recorded d, g.dependencies t = some recorded → d ∈ recorded → d ∈ p.processed)
    {u : Text} {k : Nat} {q : Path String} (leads : Leads env.host u k q)
    (location : reallinkpath env.host u = reallinkpath env.host t) :
    (env.host.isDirAt (reallinkpath env.host u) = true ∧ ∃ perm, env.host.lstat t = some (.dir perm)) ∨
      p.root.isDirAt (env.host.realpath u) = true := by
  obtain ⟨present, deps, recorded, reported, found, same⟩ := sourced.itself
  obtain ⟨original, named⟩ := Option.isSome_iff_exists.mp present
  have here := get_reallinkpath named
  rw [← location] at here
  rcases leads.last with atDir | ⟨n, c, link, k₂, atLink, isDir, there, later, fewer⟩
  · obtain ⟨perm, dir⟩ := (env.host.isDirAt_iff q).mp leads.isDir
    rw [atDir, dir] at here
    cases here
    rw [atDir]
    exact Or.inl ⟨leads.isDir, perm, named⟩
  · rw [atLink, there] at here
    cases here
    rw [getDependencies_of_link named (location.symm.trans atLink)] at reported
    cases reported
    have bound := leads.enough
    obtain ⟨k', _, onward⟩ :=
      leads_linkDependency setting.plain isDir there later (by omega) leads.isDir
    have inside := (same _).mpr (Or.inl (List.mem_singleton_self (linkDependency c link)))
    have placed := going.dependency_isDirAt setting reached sourced guard each found inside
      (.of_leads onward)
    rw [onward.realpath] at placed
    rw [leads.realpath]
    exact Or.inr placed

/-- With its copy the target root is ready for what leads through the path. -/
theorem ready_after (going : Going env start source dest g (t :: stack) p)
    (setting : Setting env start source dest g) (reached : Reached g dest t)
    (sourced : Sourced env start source dest g t src) (guard : Setting.Guard env source dest stack t)
    (each : ∀ recorded d, g.dependencies t = some recorded → d ∈ recorded → d ∈ p.processed)
    (effect : Effect p.root (reallinkpath env.host t) (MakesDir env.host src) root') :
    Ready env.host root' := by
  intro u isdir there
  obtain ⟨k, q, leads⟩ := isdir_iff.mp isdir
  obtain ⟨node, found⟩ := Option.isSome_iff_exists.mp there
  rcases effect.cases found with before | ⟨location, kind⟩
  · exact effect.isDirAt (going.ready u isdir (Option.isSome_of_eq_some before))
  · have self : src = some t → root'.isDirAt (env.host.realpath u) = true := by
      rintro rfl
      rcases going.itself_isDirAt setting reached sourced guard each leads location with
        ⟨isDir, makes⟩ | placed
      · refine isDirAt_of_made leads.lexists isDir found (kind fun s isSelf => ?_)
        cases isSelf
        exact makes
      · exact effect.isDirAt placed
    cases sourced with
    | dependency _ _ _ _ _ => exact self rfl
    | directory differ up _ =>
        obtain ⟨original, named⟩ := Option.isSome_iff_exists.mp leads.lexists
        have held := get_reallinkpath named
        have isDir := ((setting.fits differ).free t up).1 original (location ▸ held)
        refine isDirAt_of_made leads.lexists ?_ found (kind fun s impossible => by cases impossible)
        rw [FileSystem.isDirAt, held]
        exact isDir
    | destination _ _ _ _ _ =>
        by_cases differ : source = t
        · exact self (congrArg some differ)
        · have leadsOn := leads.textOf_reallinkpath
          rw [location] at leadsOn
          obtain ⟨isDir, perm, makes⟩ := (setting.fits differ).place leadsOn
          rw [← location] at isDir
          refine isDirAt_of_made leads.lexists isDir found (kind fun s isSource => ?_)
          cases isSource
          exact ⟨perm, makes⟩

end Going

/-! ## The traversal -/

section Traversal

variable {start : FileSystem String} {source dest : Text} {g : Graph} {src : Option Text} {stack : List Text}
  {fuel : Nat} {p : Progress}

/-- What a call of `process` is to leave. -/
def Leaves (env : Env) (start : FileSystem String) (source dest : Text) (g : Graph) (stack : List Text)
    (t : Text) (outcome : Except Halt Unit × Progress) : Prop :=
  Safe env.host outcome.2 ∧
    (outcome.1 = .ok () → Going env start source dest g stack outcome.2 ∧ t ∈ outcome.2.processed)

theorem Going.mark (going : Going env start source dest g stack p) (t : Text) :
    Going env start source dest g (t :: stack) (p.mark t) where
  ready := going.ready
  made := going.made
  grown := going.grown
  active u member := by
    rcases List.mem_cons.mp member with rfl | below
    · exact List.mem_cons_self
    · exact List.mem_cons_of_mem _ (going.active u below)
  done u seen idle known := by
    rcases List.mem_cons.mp seen with rfl | before
    · exact absurd List.mem_cons_self idle
    · exact going.done u before (fun below => idle (List.mem_cons_of_mem _ below)) known
  safe := going.safe

/-- A path that is finished and there leaves the stack. -/
theorem Going.finish (going : Going env start source dest g (t :: stack) p)
    (setting : Setting env start source dest g) (reached : Reached g dest t)
    (sourced : Sourced env start source dest g t src) (other : t ≠ dest)
    (guard : Setting.Guard env source dest stack t)
    (each : ∀ recorded d, g.dependencies t = some recorded → d ∈ recorded → d ∈ p.processed)
    (parent : p.root.isDirAt (reallinkpath env.host t).tail = true) {root' : FileSystem String}
    (effect : Effect p.root (reallinkpath env.host t) (MakesDir env.host src) root') :
    Going env start source dest g stack { p.call t with root := root' } where
  ready := going.ready_after setting reached sourced guard each effect
  made u made node found := by
    rcases effect.cases found with before | ⟨location, kind⟩
    · exact going.made u made node before
    · refine kind fun s isSource => ?_
      cases sourced with
      | destination _ _ _ _ _ => exact absurd rfl other
      | directory _ _ _ => cases isSource
      | dependency _ fresh _ _ _ =>
          cases isSource
          obtain ⟨original, named⟩ := Option.isSome_iff_exists.mp fresh.2
          have isDir := ((setting.fits made.1).free u made.2).1 original
            (by rw [location]; exact get_reallinkpath named)
          obtain ⟨perm, rfl⟩ := Node.isDir_iff.mp isDir
          exact ⟨perm, named⟩
  grown := going.grown.trans effect.grows
  active u member := going.active u (List.mem_cons_of_mem _ member)
  done u seen idle known := by
    by_cases self : u = t
    · rw [self]
      exact effect.present
    · refine effect.grows _ (going.done u seen (fun member => ?_) known)
      rcases List.mem_cons.mp member with same | below
      · exact self same
      · exact idle below
  safe := Going.call going.safe parent

theorem copyScript_safe (source : Option Text) (target : Text) :
    Program.Keeps (Safe env.host) (copyScript env source target) :=
  copyScript_keeps (fun _ _ safe => safe) source target

/-- The rest of a call, once the dependencies have been gone through. -/
theorem visitScript_cases (env : Env) (g : Graph) (fuel : Nat) (src : Option Text) (t : Text) (p : Progress) :
    (∃ e s, (env.order t ((g.dependencies t).getD [])).forM (processScript env g fuel) p = (.error e, s) ∧
      visitScript env g fuel src t p = (.error e, s)) ∨
    ∃ s, (env.order t ((g.dependencies t).getD [])).forM (processScript env g fuel) p = (.ok (), s) ∧
      visitScript env g fuel src t p = copyScript env src t (s.call t) := by
  change (∃ e s, _ ∧ Program.bind _ _ p = _) ∨ ∃ s, _ ∧ Program.bind _ _ p = _
  unfold Program.bind
  cases (env.order t ((g.dependencies t).getD [])).forM (processScript env g fuel) p with
  | mk result s =>
      cases result with
      | ok _ => exact Or.inr ⟨s, rfl, rfl⟩
      | error e => exact Or.inl ⟨e, s, rfl, rfl⟩

/-- What a visit leaves, if the calls for the dependencies leave what they are to. -/
theorem visitScript_leaves (setting : Setting env start source dest g) (reached : Reached g dest t)
    (sourced : Sourced env start source dest g t src) (guard : Setting.Guard env source dest stack t)
    (calls : ∀ d s, Reached g dest d → Setting.Guard env source dest (t :: stack) d →
      Going env start source dest g (t :: stack) s →
        Leaves env start source dest g (t :: stack) d (processScript env g fuel d s))
    (going : Going env start source dest g (t :: stack) p) :
    Safe env.host (visitScript env g fuel src t p).2 ∧
      ((visitScript env g fuel src t p).1 = .ok () → ∃ s root', Going env start source dest g (t :: stack) s ∧
        (∀ recorded d, g.dependencies t = some recorded → d ∈ recorded → d ∈ s.processed) ∧
          s.root.isDirAt (reallinkpath env.host t).tail = true ∧
            Effect s.root (reallinkpath env.host t) (MakesDir env.host src) root' ∧
              (visitScript env g fuel src t p).2 = { s.call t with root := root' }) := by
  obtain ⟨recorded, found, _⟩ := sourced.dirname_mem
  have among : ∀ d, d ∈ env.order t ((g.dependencies t).getD []) ↔ d ∈ recorded := by
    intro d
    rw [(env.order_perm t _).mem_iff, found]
    rfl
  have loop : Safe env.host ((env.order t ((g.dependencies t).getD [])).forM (processScript env g fuel) p).2 ∧
      (((env.order t ((g.dependencies t).getD [])).forM (processScript env g fuel) p).1 = .ok () →
        Going env start source dest g (t :: stack)
          ((env.order t ((g.dependencies t).getD [])).forM (processScript env g fuel) p).2 ∧
        ∀ d ∈ env.order t ((g.dependencies t).getD []),
          d ∈ ((env.order t ((g.dependencies t).getD [])).forM (processScript env g fuel) p).2.processed) :=
    Program.forM_each (f := processScript env g fuel) (I := Going env start source dest g (t :: stack))
      (E := Safe env.host) (D := fun d s => d ∈ s.processed)
      (fun d member s before => calls d s (.dep reached found ((among d).mp member))
        (setting.guard_dependency sourced guard found ((among d).mp member)) before)
      (fun d c s seen => (processScript_grown env g fuel c s).marked d seen) (fun _ before => before.safe) going
  rcases visitScript_cases env g fuel src t p with ⟨e, s, stops, whole⟩ | ⟨s, goesOn, whole⟩
  · rw [stops] at loop
    rw [whole]
    refine ⟨loop.1, fun impossible => ?_⟩
    cases impossible
  · rw [goesOn] at loop
    obtain ⟨after, achieved⟩ := loop.2 rfl
    have each : ∀ recorded d, g.dependencies t = some recorded → d ∈ recorded → d ∈ s.processed := by
      intro recorded' d found' inside
      cases found.symm.trans found'
      exact achieved d ((among d).mpr inside)
    have parent := Going.parent (after.directory setting reached sourced guard each)
    rw [whole]
    refine ⟨copyScript_safe src t _ (Going.call after.safe parent), fun done => ?_⟩
    obtain ⟨root', copied, last⟩ := copyScript_ok_iff.mp
      (show copyScript env src t (s.call t) = (.ok (), (copyScript env src t (s.call t)).2) from
        Prod.ext done rfl)
    exact ⟨s, root', after, each, parent, copy_effect parent copied, last⟩

/-- By induction on the fuel: calls for dependencies leave what is in progress alone. -/
theorem processScript_leaves (setting : Setting env start source dest g) (bottom : dest ∈ stack)
    (reached : Reached g dest t) (guard : Setting.Guard env source dest stack t)
    (going : Going env start source dest g stack p) :
    Leaves env start source dest g stack t (processScript env g fuel t p) := by
  induction fuel generalizing stack t p with
  | zero =>
      refine ⟨going.safe, fun impossible => ?_⟩
      cases impossible
  | succ fuel ih =>
      by_cases seen : t ∈ p.processed
      · rw [processScript_of_seen seen]
        exact ⟨going.safe, fun _ => ⟨going, seen⟩⟩
      · cases found : g.sourceOf t with
        | none =>
            rw [processScript_of_noSource seen found]
            have marked : Going env start source dest g stack (p.mark t) := by
              refine ⟨going.ready, going.made, going.grown, fun u member =>
                List.mem_cons_of_mem _ (going.active u member), fun u member idle known => ?_, going.safe⟩
              rcases List.mem_cons.mp member with rfl | before
              · rw [found] at known
                cases known
              · exact going.done u before idle known
            exact ⟨going.safe, fun _ => ⟨marked, List.mem_cons_self⟩⟩
        | some src =>
            rw [processScript_of_source seen found]
            have sourced := setting.finished.sourced t src found
            have other : t ≠ dest := by
              rintro rfl
              exact seen (going.active t bottom)
            obtain ⟨safe, done⟩ := visitScript_leaves setting reached sourced guard
              (fun d s reached' guard' before => ih (List.mem_cons_of_mem _ bottom) reached' guard' before)
              (going.mark t)
            refine ⟨safe, fun ended => ?_⟩
            obtain ⟨s, root', after, each, parent, effect, last⟩ := done ended
            rw [last]
            exact ⟨after.finish setting reached sourced other guard each parent effect,
              after.active t List.mem_cons_self⟩

/-- The call for the destination, which is in progress to the end. -/
theorem processScript_dest (setting : Setting env start source dest g) (fuel : Nat) :
    Safe env.host (processScript env g fuel dest ⟨[], start, []⟩).2 ∧
      ((processScript env g fuel dest ⟨[], start, []⟩).1 = .ok () →
        Ready env.host (processScript env g fuel dest ⟨[], start, []⟩).2.root) := by
  cases fuel with
  | zero =>
      refine ⟨fun _ impossible => (List.not_mem_nil impossible).elim, fun impossible => ?_⟩
      cases impossible
  | succ fuel =>
      obtain ⟨src, found⟩ := Option.isSome_iff_exists.mp setting.recorded
      have sourced := setting.finished.sourced dest src found
      have guard : Setting.Guard env source dest [] dest :=
        fun _ impossible => (List.not_mem_nil impossible).elim
      have going : Going env start source dest g [dest] (Progress.mark ⟨[], start, []⟩ dest) := by
        refine ⟨setting.ready, fun t made node there => ?_, .refl _, fun t member => member,
          fun t member idle => absurd member idle, fun _ impossible => (List.not_mem_nil impossible).elim⟩
        exact ((setting.fits made.1).free t made.2).2 node there
      rw [processScript_of_source (List.not_mem_nil) found]
      obtain ⟨safe, done⟩ := visitScript_leaves setting .start sourced guard
        (fun d s reached guard' before => processScript_leaves setting List.mem_cons_self reached guard' before)
        going
      refine ⟨safe, fun ended => ?_⟩
      obtain ⟨s, root', after, each, _, effect, last⟩ := done ended
      rw [last]
      exact after.ready_after setting .start sourced guard each effect

end Traversal

/-! ## Runs -/

/-- A destination of another name fits, if the run comes to copy anything for it. -/
def Request.Fits (request : Request) (host root : FileSystem String) : Prop :=
  request.source ≠ request.dest → isAlreadyCopied host root request.dest = false →
    host.lexists request.source = true → Initramfs.Fits host root request.source request.dest

theorem mainScript_safe (plain : LinksPlain env.host) (ready : Ready env.host root) {request : Request}
    (fits : request.Fits env.host root) {fuel : Nat} {result : Except Halt Unit} {p : Progress}
    (run : mainScript env fuel request.source request.dest ⟨[], root, []⟩ = (result, p)) :
    Safe env.host p ∧ (result = .ok () → Ready env.host p.root) := by
  have whole : mainScript env fuel request.source request.dest ⟨[], root, []⟩ =
      (Program.outside (buildGraph env root fuel .empty [(request.source, request.dest)]) >>= fun g =>
        processScript env g fuel request.dest) ⟨[], root, []⟩ := rfl
  rw [whole] at run
  cases building : buildGraph env root fuel .empty [(request.source, request.dest)] with
  | error e =>
      rw [building] at run
      cases run
      refine ⟨fun _ impossible => (List.not_mem_nil impossible).elim, fun impossible => ?_⟩
      cases impossible
  | ok g =>
      rw [building] at run
      change processScript env g fuel request.dest ⟨[], root, []⟩ = (result, p) at run
      have finished := finished_of_buildGraph building
      cases found : g.sourceOf request.dest with
      | none =>
          have nothing : ∀ fuel, Safe env.host (processScript env g fuel request.dest ⟨[], root, []⟩).2 ∧
              (processScript env g fuel request.dest ⟨[], root, []⟩).2.root = root := by
            intro fuel
            cases fuel with
            | zero => exact ⟨fun _ impossible => (List.not_mem_nil impossible).elim, rfl⟩
            | succ fuel =>
                rw [processScript_of_noSource (List.not_mem_nil) found]
                exact ⟨fun _ impossible => (List.not_mem_nil impossible).elim, rfl⟩
          have state := nothing fuel
          rw [run] at state
          exact ⟨state.1, fun _ => state.2 ▸ ready⟩
      | some src =>
          have setting : Setting env root request.source request.dest g := by
            refine ⟨plain, ready, fun differ => ?_, finished, by rw [found]; rfl⟩
            cases (finished.sourced _ src found).needed with
            | destination new present => exact fits differ new present
            | directory _ up => exact absurd up (MissingUp.not_self _ _)
            | dependency other _ => exact absurd rfl other
          have state := processScript_dest setting fuel
          rw [run] at state
          exact state

/-- An earlier run: it has raised nothing, and its destination fits. -/
def EarlierRun (host root : FileSystem String) (run : Env × Request) (root' : FileSystem String) : Prop :=
  run.1.host = host ∧ run.2.Fits host root ∧ ∃ fuel p,
    mainScript run.1 fuel run.2.source run.2.dest ⟨[], root, []⟩ = (.ok (), p) ∧ p.root = root'

/-- After any earlier runs, every copy of a run finds the directory of its destination. -/
theorem mainScript_parents_first (plain : LinksPlain host) {perm : Nat} {runs : List (Env × Request)}
    (earlier : Run (EarlierRun host) (.bare perm) runs root) {env : Env} (onHost : env.host = host)
    {request : Request} (fits : request.Fits host root) {fuel : Nat} {result : Except Halt Unit} {p : Progress}
    (run : mainScript env fuel request.source request.dest ⟨[], root, []⟩ = (result, p)) :
    ∀ call ∈ p.calls, call.2.isDirAt (reallinkpath host call.1).tail = true := by
  subst onHost
  have ready : Ready env.host root := by
    refine earlier.invariant (I := fun _ root => Ready env.host root) (.bare _ perm)
      fun _ before step after holds one => ?_
    obtain ⟨onHost, fits', fuel', p', done, rfl⟩ := one
    rw [← onHost] at holds fits' plain ⊢
    exact (mainScript_safe plain holds fits' done).2 rfl
  exact (mainScript_safe plain ready fits run).1

theorem circularHost_linksPlain : LinksPlain circularHost := by
  intro n dir link found relative
  have entry := (circularHost.mem_entries_iff _ _).mpr found
  simp only [circularHost, List.mem_cons, Prod.mk.injEq, reduceCtorEq, and_false, List.cons.injEq,
    Node.symlink.injEq, List.not_mem_nil, or_false, false_or] at entry
  rcases entry with ⟨_, rfl⟩ | ⟨_, rfl⟩
  · cases relative
  · cases relative

def fileRequest : Request := ⟨fileText, fileText, rfl, rfl⟩

/-- The same file in a directory that the host does not have. -/
def movedRequest : Request := ⟨fileText, [.empty, .name "d", .name "f"], rfl, rfl⟩

def afterFile : FileSystem String :=
  (mainScript circularEnv 10 fileRequest.source fileRequest.dest ⟨[], .bare 0o755, []⟩).2.root

theorem movedRequest_fits : movedRequest.Fits circularHost afterFile := by
  intro _ _ _
  have single : ∀ t, MissingUp circularHost (dirname movedRequest.dest) t → t = [.empty, .name "d"] := by
    intro t up
    rcases (MissingUp.iff (by rfl)).mp up with same | above
    · exact same
    · cases above.start
  refine ⟨fun x above there => ?_, fun t up => ?_, fun impossible => by cases impossible⟩
  · rcases above with rfl | ⟨t, up, rfl⟩
    · cases there
    · rw [single t up]
      rfl
  · rw [single t up]
    constructor
    · intro node impossible
      cases impossible
    · intro node impossible
      cases impossible

def movedRun : Except Halt Unit × Progress :=
  mainScript circularEnv 10 movedRequest.source movedRequest.dest ⟨[], afterFile, []⟩

theorem moved_parents_first : movedRun.1 = .ok () ∧
    movedRun.2.copied = [[.empty, .name "d"], movedRequest.dest] ∧
      ∀ call ∈ movedRun.2.calls, call.2.isDirAt (reallinkpath circularHost call.1).tail = true :=
  ⟨rfl, rfl, mainScript_parents_first circularHost_linksPlain
    (.snoc .nil ⟨rfl, fun differ => absurd rfl differ, 10, _, rfl, rfl⟩ :
      Run (EarlierRun circularHost) (.bare 0o755) [(circularEnv, fileRequest)] afterFile) rfl
    movedRequest_fits (rfl : movedRun = (movedRun.1, movedRun.2))⟩

/-- A directory for locks is a link to where nothing is yet. -/
def danglingHost : FileSystem String where
  entries :=
    [([], .dir 0o755),
      (["var"], .dir 0o755),
      (["lock", "var"], .symlink [.empty, .name "run", .name "lock"]),
      (["f"], .file ⟨0o644, 1, 0, 0⟩ [10])]
  nodup := by simp
  root := rfl
  parents := by simp [List.lookup_cons, List.lookup_nil, Node.isDir]

def danglingEnv : Env := { circularEnv with host := danglingHost }

def lockText : Text := [.empty, .name "var", .name "lock", .name "f"]

/-- The link counts as a directory that is there, and the copy beyond it fails. -/
theorem dangling_not_first : LinksPlain danglingHost ∧
    (mainScript danglingEnv 10 fileText lockText ⟨[], .bare 0o755, []⟩).1 = .error (.failed .enoent) ∧
      ∃ call ∈ (mainScript danglingEnv 10 fileText lockText ⟨[], .bare 0o755, []⟩).2.calls,
        call.1 = lockText ∧ call.2.isDirAt (reallinkpath danglingHost call.1).tail = false := by
  refine ⟨fun n dir link found relative => ?_, rfl, ?_⟩
  · have entry := (danglingHost.mem_entries_iff _ _).mpr found
    simp only [danglingHost, List.mem_cons, Prod.mk.injEq, reduceCtorEq, and_false, List.cons.injEq,
      Node.symlink.injEq, List.not_mem_nil, or_false, false_or] at entry
    obtain ⟨_, rfl⟩ := entry
    cases relative
  · refine ⟨_, List.mem_of_getLast? (rfl : _ = some _), rfl, rfl⟩

end GnomeBuildMeta.Initramfs
