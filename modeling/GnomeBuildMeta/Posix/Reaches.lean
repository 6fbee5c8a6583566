import GnomeBuildMeta.Posix.Resolve

/-!
# Resolutions as derivations

`Reaches` follows a successful resolution piece by piece and counts the links.
It splits and joins where a text does, which the search of `walk` does not show.
-/

namespace GnomeBuildMeta.Posix

variable {α : Type} [DecidableEq α]

/--
Read from `cwd`, the text leads over `k` links to an entry.  A link at the end
of the text is followed only if the first flag says so.
-/
inductive Reaches (look : Tree α) : Bool → Path α → PathText α → Nat → Path α → Prop where
  | done {follow : Bool} {cwd : Path α} : Reaches look follow cwd [] 0 cwd
  | empty {follow : Bool} {cwd q : Path α} {rest : PathText α} {k : Nat} :
      Reaches look follow cwd rest k q → Reaches look follow cwd (.empty :: rest) k q
  | cur {follow : Bool} {cwd q : Path α} {rest : PathText α} {k : Nat} :
      Reaches look follow cwd rest k q → Reaches look follow cwd (.cur :: rest) k q
  | up {follow : Bool} {cwd q : Path α} {rest : PathText α} {k : Nat} :
      Reaches look follow cwd.tail rest k q → Reaches look follow cwd (.up :: rest) k q
  | dir {follow : Bool} {cwd q : Path α} {n : α} {rest : PathText α} {k : Nat} :
      (look (n :: cwd)).any Node.isDir = true → Reaches look follow (n :: cwd) rest k q →
        Reaches look follow cwd (.name n :: rest) k q
  | leaf {follow : Bool} {cwd : Path α} {n : α} {node : Node α} :
      look (n :: cwd) = some node → node.isDir = false →
        (node.isSymlink = true → follow = false) →
        Reaches look follow cwd [.name n] 0 (n :: cwd)
  | link {follow : Bool} {cwd q : Path α} {n : α} {target rest : PathText α} {k : Nat} :
      look (n :: cwd) = some (.symlink target) → (follow = true ∨ rest ≠ []) →
        Reaches look follow (linkStart cwd target) (target ++ rest) k q →
        Reaches look follow cwd (.name n :: rest) (k + 1) q

namespace Grounded

variable {look : Tree α}

omit [DecidableEq α] in
theorem tail (grounded : Grounded look) {p : Path α} (isDir : (look p).any Node.isDir = true) :
    (look p.tail).any Node.isDir = true := by
  cases p with
  | nil => exact isDir
  | cons n p =>
      obtain ⟨node, found, _⟩ := (Option.any_eq_true _ _).mp isDir
      exact grounded.parent found

theorem linkStart (grounded : Grounded look) {cwd : Path α}
    (isDir : (look cwd).any Node.isDir = true) (target : PathText α) :
    (look (Posix.linkStart cwd target)).any Node.isDir = true := by
  rw [Posix.linkStart]
  split
  · exact grounded.root
  · exact isDir

end Grounded

/-- Whatever the second tree has the first has too: a directory, the same link, or something else. -/
def Covers (look' look : Tree α) : Prop :=
  ∀ p node, look p = some node → ∃ node', look' p = some node' ∧
    node'.isDir = node.isDir ∧ node'.target = node.target

omit [DecidableEq α] in
theorem Covers.isDir {look' look : Tree α} (covers : Covers look' look) {p : Path α}
    (isDir : (look p).any Node.isDir = true) : (look' p).any Node.isDir = true := by
  obtain ⟨node, found, dir⟩ := (Option.any_eq_true _ _).mp isDir
  obtain ⟨node', found', same, _⟩ := covers p node found
  rw [found', Option.any_some, same, dir]

omit [DecidableEq α] in
theorem Covers.of_extends {look' look : Tree α}
    (extends' : ∀ p node, look p = some node → look' p = some node) : Covers look' look :=
  fun p node found => ⟨node, extends' p node found, rfl, rfl⟩

namespace Reaches

variable {look : Tree α} {follow : Bool} {cwd p q : Path α} {text : PathText α} {k : Nat}

/-- Where a resolution leads and how many links it takes is determined. -/
theorem unique (one : Reaches look follow cwd text k p) {k' : Nat}
    (other : Reaches look follow cwd text k' q) : k = k' ∧ p = q := by
  induction one generalizing k' q with
  | done =>
      cases other
      exact ⟨rfl, rfl⟩
  | empty _ ih =>
      cases other with
      | empty later => exact ih later
  | cur _ ih =>
      cases other with
      | cur later => exact ih later
  | up _ ih =>
      cases other with
      | up later => exact ih later
  | dir isDir _ ih =>
      cases other with
      | dir _ later => exact ih later
      | leaf found noDir _ =>
          rw [found, Option.any_some, noDir] at isDir
          cases isDir
      | link found _ _ =>
          rw [found] at isDir
          cases isDir
  | leaf found noDir last =>
      cases other with
      | dir isDir _ =>
          rw [found, Option.any_some, noDir] at isDir
          cases isDir
      | leaf _ _ _ => exact ⟨rfl, rfl⟩
      | link found' more _ =>
          cases found.symm.trans found'
          rcases more with following | nonempty
          · rw [last rfl] at following
            cases following
          · exact absurd rfl nonempty
  | link found more _ ih =>
      cases other with
      | dir isDir _ =>
          rw [found] at isDir
          cases isDir
      | leaf found' _ last =>
          cases found.symm.trans found'
          rcases more with following | nonempty
          · rw [last rfl] at following
            cases following
          · exact absurd rfl nonempty
      | link found' _ later =>
          cases found.symm.trans found'
          obtain ⟨rfl, same⟩ := ih later
          exact ⟨rfl, same⟩

/-- From a directory a resolution ends at something that exists. -/
theorem exists_node (grounded : Grounded look) (start : (look cwd).any Node.isDir = true)
    (reaches : Reaches look follow cwd text k q) : (look q).isSome = true := by
  have isSome : ∀ {p : Path α}, (look p).any Node.isDir = true → (look p).isSome = true := by
    intro p isDir
    obtain ⟨node, found, _⟩ := (Option.any_eq_true _ _).mp isDir
    rw [found]
    rfl
  induction reaches with
  | done => exact isSome start
  | empty _ ih | cur _ ih => exact ih start
  | up _ ih => exact ih (grounded.tail start)
  | dir isDir _ ih => exact ih isDir
  | leaf found _ _ =>
      rw [found]
      rfl
  | link _ _ _ ih =>
      exact ih (grounded.linkStart start _)

/-- The first part of a text leads to a directory, from which the rest is read. -/
theorem split (grounded : Grounded look) {first rest : PathText α} (more : rest ≠ [])
    (start : (look cwd).any Node.isDir = true)
    (reaches : Reaches look follow cwd (first ++ rest) k q) :
    ∃ k₁ p k₂, Reaches look true cwd first k₁ p ∧ (look p).any Node.isDir = true ∧
      Reaches look follow p rest k₂ q ∧ k = k₁ + k₂ := by
  have atStart : ∀ {cwd q : Path α} {text : PathText α} {k : Nat},
      (look cwd).any Node.isDir = true → [] ++ rest = text → Reaches look follow cwd text k q →
        ∃ k₁ p k₂, Reaches look true cwd [] k₁ p ∧ (look p).any Node.isDir = true ∧
          Reaches look follow p rest k₂ q ∧ k = k₁ + k₂ := by
    intro cwd q text k start same later
    rw [← same] at later
    exact ⟨0, cwd, k, .done, start, later, (Nat.zero_add k).symm⟩
  generalize whole : first ++ rest = text at reaches
  induction reaches generalizing first with
  | done => exact absurd (List.append_eq_nil_iff.mp whole).2 more
  | empty later ih =>
      cases first with
      | nil => exact atStart start whole later.empty
      | cons piece first =>
          obtain ⟨rfl, same⟩ := List.cons.inj whole
          obtain ⟨k₁, p, k₂, one, isDir, two, sum⟩ := ih start same
          exact ⟨k₁, p, k₂, one.empty, isDir, two, sum⟩
  | cur later ih =>
      cases first with
      | nil => exact atStart start whole later.cur
      | cons piece first =>
          obtain ⟨rfl, same⟩ := List.cons.inj whole
          obtain ⟨k₁, p, k₂, one, isDir, two, sum⟩ := ih start same
          exact ⟨k₁, p, k₂, one.cur, isDir, two, sum⟩
  | up later ih =>
      cases first with
      | nil => exact atStart start whole later.up
      | cons piece first =>
          obtain ⟨rfl, same⟩ := List.cons.inj whole
          obtain ⟨k₁, p, k₂, one, isDir, two, sum⟩ := ih (grounded.tail start) same
          exact ⟨k₁, p, k₂, one.up, isDir, two, sum⟩
  | dir isDir later ih =>
      cases first with
      | nil => exact atStart start whole (later.dir isDir)
      | cons piece first =>
          obtain ⟨rfl, same⟩ := List.cons.inj whole
          obtain ⟨k₁, p, k₂, one, isDir', two, sum⟩ := ih isDir same
          exact ⟨k₁, p, k₂, one.dir isDir, isDir', two, sum⟩
  | leaf found noDir last =>
      cases first with
      | nil => exact atStart start whole (.leaf found noDir last)
      | cons piece first =>
          obtain ⟨_, same⟩ := List.cons.inj whole
          exact absurd (List.append_eq_nil_iff.mp same).2 more
  | link found more' later ih =>
      cases first with
      | nil => exact atStart start whole (later.link found more')
      | cons piece first =>
          obtain ⟨rfl, same⟩ := List.cons.inj whole
          rename_i target text _
          have joined : (target ++ first) ++ rest = target ++ text := by
            rw [← same]
            exact List.append_assoc _ _ _
          obtain ⟨k₁, p, k₂, one, isDir, two, sum⟩ := ih (grounded.linkStart start target) joined
          exact ⟨k₁ + 1, p, k₂, one.link found (Or.inl rfl), isDir, two, by omega⟩

/-- From the directory that a first text leads to another one may be read. -/
theorem append {first rest : PathText α} {k' : Nat} (one : Reaches look true cwd first k p)
    (isDir : (look p).any Node.isDir = true) (two : Reaches look true p rest k' q) :
    Reaches look true cwd (first ++ rest) (k + k') q := by
  induction one with
  | done => simpa using two
  | empty _ ih => exact (ih isDir two).empty
  | cur _ ih => exact (ih isDir two).cur
  | up _ ih => exact (ih isDir two).up
  | dir here _ ih => exact (ih isDir two).dir here
  | leaf found noDir _ =>
      rw [found, Option.any_some, noDir] at isDir
      cases isDir
  | link found _ _ ih =>
      have later := ih isDir two
      rw [List.append_assoc] at later
      rw [Nat.add_right_comm]
      exact later.link found (Or.inl rfl)

/-- The last piece of a text is read from a directory, where it names the entry. -/
theorem last {piece : Piece α} (reaches : Reaches look false cwd [piece] k q) :
    q = match piece with
      | .name n => n :: cwd
      | .up => cwd.tail
      | _ => cwd := by
  cases reaches with
  | empty later =>
      cases later
      rfl
  | cur later =>
      cases later
      rfl
  | up later =>
      cases later
      rfl
  | dir _ later =>
      cases later
      rfl
  | leaf _ _ _ => rfl
  | link _ more _ =>
      rcases more with impossible | nonempty
      · cases impossible
      · exact absurd rfl nonempty

/-- A resolution is one in every tree that has as much. -/
theorem mono {look' : Tree α} (covers : Covers look' look)
    (reaches : Reaches look follow cwd text k q) : Reaches look' follow cwd text k q := by
  induction reaches with
  | done => exact .done
  | empty _ ih => exact ih.empty
  | cur _ ih => exact ih.cur
  | up _ ih => exact ih.up
  | dir isDir _ ih => exact ih.dir (covers.isDir isDir)
  | leaf found noDir last =>
      rename_i cwd n node
      obtain ⟨node', found', isDir, target⟩ := covers _ _ found
      refine .leaf found' (isDir.trans noDir) fun isLink => last ?_
      cases node <;> cases node' <;> simp_all [Node.isSymlink, Node.target]
  | link found more _ ih =>
      obtain ⟨node', found', _, target⟩ := covers _ _ found
      cases node' with
      | symlink text =>
          cases target
          exact ih.link found' more
      | dir _ | file _ _ | chardev _ _ => cases target

/-- Where a text resolves it also does so without following the link at its end. -/
theorem unfollow (reaches : Reaches look follow cwd text k q) :
    ∃ k' p, k' ≤ k ∧ Reaches look false cwd text k' p := by
  induction reaches with
  | done => exact ⟨0, _, Nat.le_refl 0, .done⟩
  | empty _ ih =>
      obtain ⟨k', p, fewer, later⟩ := ih
      exact ⟨k', p, fewer, later.empty⟩
  | cur _ ih =>
      obtain ⟨k', p, fewer, later⟩ := ih
      exact ⟨k', p, fewer, later.cur⟩
  | up _ ih =>
      obtain ⟨k', p, fewer, later⟩ := ih
      exact ⟨k', p, fewer, later.up⟩
  | dir isDir _ ih =>
      obtain ⟨k', p, fewer, later⟩ := ih
      exact ⟨k', p, fewer, later.dir isDir⟩
  | leaf found noDir _ => exact ⟨0, _, Nat.le_refl 0, .leaf found noDir fun _ => rfl⟩
  | @link _ _ _ _ rest _ found _ _ ih =>
      by_cases last : rest = []
      · subst last
        exact ⟨0, _, Nat.zero_le _, .leaf found rfl fun _ => rfl⟩
      · obtain ⟨k', p, fewer, later⟩ := ih
        exact ⟨k' + 1, p, Nat.succ_le_succ fewer, later.link found (Or.inr last)⟩

/-- A resolution that ends at no link is one with every link followed. -/
theorem follow_of_not_link (reaches : Reaches look false cwd text k q)
    (noLink : ∀ target, look q ≠ some (.symlink target)) : Reaches look true cwd text k q := by
  induction reaches with
  | done => exact .done
  | empty _ ih => exact (ih noLink).empty
  | cur _ ih => exact (ih noLink).cur
  | up _ ih => exact (ih noLink).up
  | dir isDir _ ih => exact (ih noLink).dir isDir
  | leaf found noDir _ =>
      refine .leaf found noDir fun isLink => ?_
      obtain ⟨target, rfl⟩ := Node.isSymlink_iff.mp isLink
      exact absurd found (noLink target)
  | link found _ _ ih => exact (ih noLink).link found (Or.inl rfl)

/-- Behind a link at its end a resolution goes on from the directory of the link. -/
theorem behind_link {p : Path α} {target : PathText α} {k₀ : Nat} (grounded : Grounded look)
    (start : (look cwd).any Node.isDir = true)
    (unfollowed : Reaches look false cwd text k₀ p) (isLink : look p = some (.symlink target))
    (reaches : Reaches look true cwd text k q) :
    ∃ k', k = k₀ + 1 + k' ∧ Reaches look true (Posix.linkStart p.tail target) target k' q := by
  have noDir : ∀ {n : α} {cwd : Path α} {other : PathText α}, look (n :: cwd) = some (.symlink other) →
      ¬ (look (n :: cwd)).any Node.isDir = true := by
    intro n cwd other found isDir
    rw [found] at isDir
    cases isDir
  generalize follows : false = follow at unfollowed
  induction unfollowed generalizing k with
  | done =>
      rw [isLink] at start
      cases start
  | empty _ ih =>
      cases reaches with
      | empty later => exact ih start isLink later
  | cur _ ih =>
      cases reaches with
      | cur later => exact ih start isLink later
  | up _ ih =>
      cases reaches with
      | up later => exact ih (grounded.tail start) isLink later
  | dir isDir _ ih =>
      cases reaches with
      | dir _ later => exact ih isDir isLink later
      | leaf found notDir _ =>
          rw [found, Option.any_some, notDir] at isDir
          cases isDir
      | link found _ _ => exact absurd isDir (noDir found)
  | leaf _ _ _ =>
      cases reaches with
      | dir isDir _ => exact absurd isDir (noDir isLink)
      | leaf found _ last =>
          cases isLink.symm.trans found
          cases last rfl
      | @link _ _ _ _ _ k found _ later =>
          cases isLink.symm.trans found
          rw [List.append_nil] at later
          exact ⟨k, by omega, later⟩
  | @link cwd p n _ rest _ found more _ ih =>
      cases reaches with
      | dir isDir _ => exact absurd isDir (noDir found)
      | leaf found' _ last =>
          cases found.symm.trans found'
          cases last rfl
      | link found' _ later =>
          cases found.symm.trans found'
          obtain ⟨k', sum, behind⟩ := ih (grounded.linkStart start _) isLink later
          exact ⟨k', by omega, behind⟩

/-- The text of a directory leads to it, and what follows is read from there. -/
theorem textOf_append_iff (grounded : Grounded look) {p : Path α}
    (isDir : (look p).any Node.isDir = true) {rest : PathText α} :
    Reaches look follow [] (textOf p ++ rest) k q ↔ Reaches look follow p rest k q := by
  induction p generalizing rest with
  | nil => exact Iff.rfl
  | cons n p ih =>
      obtain ⟨node, found, dir⟩ := (Option.any_eq_true _ _).mp isDir
      rw [textOf_cons, List.append_assoc, ih (grounded.parent found)]
      constructor
      · intro reaches
        cases reaches with
        | dir _ later => exact later
        | leaf found' noDir _ =>
            cases found.symm.trans found'
            rw [dir] at noDir
            cases noDir
        | link found' _ _ =>
            cases found.symm.trans found'
            cases dir
      · intro reaches
        exact .dir isDir reaches

end Reaches

/-! ## The search -/

section Walk

variable {look : Tree α} {follow : Bool} {budget : Nat} {cwd : Path α} {n : α} {rest : PathText α}

theorem walk_empty : walk look follow budget cwd (.empty :: rest) = walk look follow budget cwd rest := by
  cases budget <;> rfl

theorem walk_cur : walk look follow budget cwd (.cur :: rest) = walk look follow budget cwd rest := by
  cases budget <;> rfl

theorem walk_up :
    walk look follow budget cwd (.up :: rest) = walk look follow budget cwd.tail rest := by
  cases budget <;> rfl

theorem walk_dir (isDir : (look (n :: cwd)).any Node.isDir = true) :
    walk look follow budget cwd (.name n :: rest) = walk look follow budget (n :: cwd) rest := by
  obtain ⟨node, found, dir⟩ := (Option.any_eq_true _ _).mp isDir
  obtain ⟨perm, rfl⟩ := Node.isDir_iff.mp dir
  cases budget <;> simp [walk, scan, found]

theorem walk_other {node : Node α} (found : look (n :: cwd) = some node)
    (noDir : node.isDir = false) (noLink : node.isSymlink = false) :
    walk look follow budget cwd (.name n :: rest) =
      if rest.isEmpty then .ok (n :: cwd) else .error .enotdir := by
  apply walk_of_scan_done
  cases node with
  | dir _ => cases noDir
  | symlink _ => cases noLink
  | file _ _ | chardev _ _ => simp [scan, found]

theorem walk_missing (missing : look (n :: cwd) = none) :
    walk look follow budget cwd (.name n :: rest) =
      if rest.isEmpty then .ok (n :: cwd) else .error .enoent := by
  apply walk_of_scan_done
  simp [scan, missing]

theorem walk_last_link {target : PathText α} (found : look (n :: cwd) = some (.symlink target)) :
    walk look false budget cwd [.name n] = .ok (n :: cwd) := by
  apply walk_of_scan_done
  simp [scan, found]

omit [DecidableEq α] in
theorem scan_link {target : PathText α} (found : look (n :: cwd) = some (.symlink target))
    (more : follow = true ∨ rest ≠ []) :
    scan look follow cwd (.name n :: rest) = .link cwd target rest := by
  have expands : (rest.isEmpty && !follow) = false := by
    rcases more with rfl | nonempty
    · simp
    · simp [nonempty]
  simp [scan, found, expands]

/-- The search finds what a derivation leads to, if it may follow as many links. -/
theorem Reaches.walk_eq {text : PathText α} {k : Nat} {q : Path α}
    (reaches : Reaches look follow cwd text k q) (enough : k ≤ budget) :
    walk look follow budget cwd text = .ok q := by
  induction reaches generalizing budget with
  | done => exact walk_of_scan_done rfl
  | empty _ ih => rw [walk_empty, ih enough]
  | cur _ ih => rw [walk_cur, ih enough]
  | up _ ih => rw [walk_up, ih enough]
  | dir isDir _ ih => rw [walk_dir isDir, ih enough]
  | leaf found noDir last =>
      rename_i node
      cases node with
      | dir _ => cases noDir
      | symlink _ =>
          rw [last rfl]
          exact walk_last_link found
      | file _ _ | chardev _ _ => exact walk_other found rfl rfl
  | link found more _ ih =>
      cases budget with
      | zero => omega
      | succ budget =>
          rw [walk, scan_link found more]
          exact ih (Nat.le_of_succ_le_succ enough)

/-- Where a text leads to a directory, the search goes on from there with the links it has left. -/
theorem Reaches.walk_append {first : PathText α} {k : Nat} {p : Path α}
    (reaches : Reaches look true cwd first k p) (isDir : (look p).any Node.isDir = true) (more : rest ≠ []) :
    walk look follow (k + budget) cwd (first ++ rest) = walk look follow budget p rest := by
  induction reaches with
  | done => rw [Nat.zero_add, List.nil_append]
  | empty _ ih => exact walk_empty.trans (ih isDir)
  | cur _ ih => exact walk_cur.trans (ih isDir)
  | up _ ih => exact walk_up.trans (ih isDir)
  | dir here _ ih => exact (walk_dir here).trans (ih isDir)
  | leaf found noDir _ =>
      rw [found, Option.any_some, noDir] at isDir
      cases isDir
  | @link _ _ _ _ after k found _ _ ih =>
      rw [List.cons_append, Nat.add_right_comm, walk,
        scan_link found (Or.inr (List.append_ne_nil_of_right_ne_nil after more))]
      rw [List.append_assoc] at ih
      exact ih isDir

/-- What the search finds has a derivation, once there is something. -/
theorem Reaches.of_walk_extended {look' : Tree α} {text : PathText α} {q : Path α}
    (extends' : ∀ p node, look p = some node → look' p = some node)
    (leaf : look q = none → ∃ node, look' q = some node ∧ node.isDir = false ∧ node.isSymlink = false)
    (walked : walk look follow budget cwd text = .ok q) :
    ∃ k, k ≤ budget ∧ Reaches look' follow cwd text k q := by
  induction budget using Nat.strong_induction_on generalizing cwd text with
  | h budget outer =>
      induction text generalizing cwd with
      | nil =>
          rw [show walk look follow budget cwd [] = .ok cwd from walk_of_scan_done rfl] at walked
          cases walked
          exact ⟨0, Nat.zero_le _, .done⟩
      | cons piece rest ih =>
          cases piece with
          | empty =>
              rw [walk_empty] at walked
              obtain ⟨k, enough, later⟩ := ih walked
              exact ⟨k, enough, later.empty⟩
          | cur =>
              rw [walk_cur] at walked
              obtain ⟨k, enough, later⟩ := ih walked
              exact ⟨k, enough, later.cur⟩
          | up =>
              rw [walk_up] at walked
              obtain ⟨k, enough, later⟩ := ih walked
              exact ⟨k, enough, later.up⟩
          | name n =>
              cases found : look (n :: cwd) with
              | none =>
                  rw [walk_missing found] at walked
                  split at walked
                  · rename_i last
                    cases walked
                    obtain ⟨node, found', noDir, noLink⟩ := leaf found
                    rw [List.isEmpty_iff.mp last]
                    refine ⟨0, Nat.zero_le _, .leaf found' noDir fun impossible => ?_⟩
                    rw [noLink] at impossible
                    cases impossible
                  · cases walked
              | some node =>
                  have found' := extends' _ _ found
                  by_cases isDir : node.isDir = true
                  · have dir : (look (n :: cwd)).any Node.isDir = true := by rw [found]; exact isDir
                    rw [walk_dir dir] at walked
                    obtain ⟨k, enough, later⟩ := ih walked
                    exact ⟨k, enough, later.dir (by rw [found']; exact isDir)⟩
                  · have noDir : node.isDir = false := Bool.eq_false_iff.mpr isDir
                    by_cases isLink : node.isSymlink = true
                    · obtain ⟨target, rfl⟩ := Node.isSymlink_iff.mp isLink
                      by_cases more : follow = true ∨ rest ≠ []
                      · cases budget with
                        | zero =>
                            rw [walk, scan_link found more] at walked
                            cases walked
                        | succ budget =>
                            rw [walk, scan_link found more] at walked
                            obtain ⟨k, enough, later⟩ :=
                              outer budget (Nat.lt_succ_self budget) walked
                            exact ⟨k + 1, Nat.succ_le_succ enough, later.link found' more⟩
                      · have stop : follow = false ∧ rest = [] := by
                          simpa [not_or] using more
                        obtain ⟨rfl, rfl⟩ := stop
                        rw [walk_last_link found] at walked
                        cases walked
                        exact ⟨0, Nat.zero_le _, .leaf found' rfl fun _ => rfl⟩
                    · have noLink : node.isSymlink = false := Bool.eq_false_iff.mpr isLink
                      rw [walk_other found noDir noLink] at walked
                      split at walked
                      · rename_i last
                        cases walked
                        rw [List.isEmpty_iff.mp last]
                        refine ⟨0, Nat.zero_le _, .leaf found' noDir fun impossible => ?_⟩
                        rw [noLink] at impossible
                        cases impossible
                      · cases walked

/-- What the search finds, if it is there, has a derivation. -/
theorem Reaches.of_walk {text : PathText α} {q : Path α}
    (walked : walk look follow budget cwd text = .ok q) (exists' : (look q).isSome = true) :
    ∃ k, k ≤ budget ∧ Reaches look follow cwd text k q := by
  refine of_walk_extended (fun _ _ found => found) (fun missing => ?_) walked
  rw [missing] at exists'
  cases exists'

end Walk

namespace FileSystem

variable {fs : FileSystem α} {text : PathText α} {node : Node α}

theorem lstat_eq_some_iff : fs.lstat text = some node ↔
    ∃ k q, k ≤ maxSymlinks ∧ Reaches fs.get false [] text k q ∧ fs.get q = some node := by
  constructor
  · intro found
    unfold lstat at found
    cases located : fs.locate false text with
    | error e =>
        rw [located] at found
        cases found
    | ok q =>
        rw [located] at found
        obtain ⟨k, enough, reaches⟩ := Reaches.of_walk located (Option.isSome_of_eq_some found)
        exact ⟨k, q, enough, reaches, found⟩
  · rintro ⟨k, q, enough, reaches, found⟩
    have located : fs.locate false text = .ok q := reaches.walk_eq enough
    rw [lstat, located]
    exact found

/-- What is no link is found whether the last link is followed or not. -/
theorem stat_of_lstat (found : fs.lstat text = some node)
    (noLink : node.isSymlink = false) : fs.stat text = some node := by
  obtain ⟨k, q, enough, reaches, there⟩ := lstat_eq_some_iff.mp found
  have notLink : ∀ target, fs.get q ≠ some (.symlink target) := by
    intro target link
    rw [there] at link
    cases link
    cases noLink
  have located : fs.locate true text = .ok q := (reaches.follow_of_not_link notLink).walk_eq enough
  rw [stat, located]
  exact there

end FileSystem

end GnomeBuildMeta.Posix
