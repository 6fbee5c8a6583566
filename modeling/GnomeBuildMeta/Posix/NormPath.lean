import GnomeBuildMeta.Posix.RealPath

/-!
# Links made absolute by normpath

A relative link text, joined to the directory of the link and normalised, leads
where the link does, unless a `..` in it takes back a name.
-/

namespace GnomeBuildMeta.Posix

variable {α : Type} [DecidableEq α]

/-- No name is taken back by a `..` after it. -/
def straight : PathText α → Bool
  | [] => true
  | .name _ :: rest => rest.all (· ≠ .up)
  | _ :: rest => straight rest

/-- The pieces of a text that are names. -/
def namesOf : PathText α → PathText α
  | [] => []
  | .name n :: rest => .name n :: namesOf rest
  | _ :: rest => namesOf rest

omit [DecidableEq α] in
theorem textOf_normFrom {text : PathText α} (noUp : ∀ piece ∈ text, piece ≠ .up) (cwd : Path α) :
    textOf (normFrom cwd text) = textOf cwd ++ namesOf text := by
  induction text generalizing cwd with
  | nil => simp [normFrom, namesOf]
  | cons piece rest ih =>
      have later := fun cwd => ih (fun other inside => noUp other (List.mem_cons_of_mem _ inside)) cwd
      cases piece with
      | empty | cur => exact later cwd
      | up => exact absurd rfl (noUp .up List.mem_cons_self)
      | name n =>
          change textOf (normFrom (n :: cwd) rest) = _
          rw [later, textOf_cons, List.append_assoc]
          rfl

variable {look : Tree α} {cwd q : Path α} {text : PathText α} {k : Nat}

theorem reaches_absText_iff {follow : Bool} {p : Path α} :
    Reaches look follow [] (absText p) k q ↔ Reaches look follow [] (textOf p) k q := by
  rw [absText]
  split
  · rename_i root
    rw [root, reaches_empties (by simp), reaches_empties (by simp [textOf])]
  · constructor
    · intro reaches
      cases reaches with
      | empty later => exact later
    · exact .empty

namespace Reaches

/-- The names of a text without `..` lead where the text does. -/
theorem namesOf (grounded : Grounded look) (start : (look cwd).any Node.isDir = true)
    (noUp : ∀ piece ∈ text, piece ≠ .up) (reaches : Reaches look true cwd text k q) :
    Reaches look true cwd (namesOf text) k q := by
  induction text generalizing cwd k with
  | nil => exact reaches
  | cons piece rest ih =>
      have later : ∀ {cwd k}, (look cwd).any Node.isDir = true → Reaches look true cwd rest k q →
          Reaches look true cwd (Posix.namesOf rest) k q :=
        fun start => ih start fun other inside => noUp other (List.mem_cons_of_mem _ inside)
      cases piece with
      | empty =>
          cases reaches with
          | empty reaches => exact later start reaches
      | cur =>
          cases reaches with
          | cur reaches => exact later start reaches
      | up => exact absurd rfl (noUp .up List.mem_cons_self)
      | name n =>
          by_cases last : rest = []
          · subst last
            exact reaches
          · change Reaches look true cwd ([.name n] ++ rest) k q at reaches
            obtain ⟨k₁, p, k₂, one, isDir, two, rfl⟩ := reaches.split grounded last start
            exact one.append isDir (later isDir two)

/-- Conversely, in a tree that another one covers where the whole text resolves. -/
theorem of_namesOf {look' : Tree α} (grounded : Grounded look) (grounded' : Grounded look')
    (covers : Covers look look') (start : (look' cwd).any Node.isDir = true)
    (reaches : Reaches look true cwd text k q) {k' : Nat} {q' : Path α}
    (names : Reaches look' true cwd (Posix.namesOf text) k' q')
    (noUp : ∀ piece ∈ text, piece ≠ .up) : Reaches look' true cwd text k q := by
  induction text generalizing cwd k k' q' with
  | nil =>
      cases reaches
      exact .done
  | cons piece rest ih =>
      have noUpRest : ∀ piece ∈ rest, piece ≠ .up :=
        fun other inside => noUp other (List.mem_cons_of_mem _ inside)
      cases piece with
      | empty =>
          cases reaches with
          | empty reaches => exact (ih start reaches names noUpRest).empty
      | cur =>
          cases reaches with
          | cur reaches => exact (ih start reaches names noUpRest).cur
      | up => exact absurd rfl (noUp .up List.mem_cons_self)
      | name n =>
          change Reaches look' true cwd ([.name n] ++ Posix.namesOf rest) k' q' at names
          by_cases last : rest = []
          · subst last
            obtain ⟨rfl, rfl⟩ := reaches.unique (names.mono covers)
            exact names
          · change Reaches look true cwd ([.name n] ++ rest) k q at reaches
            obtain ⟨k₁, p, k₂, one, isDir, two, rfl⟩ :=
              reaches.split grounded last (covers.isDir start)
            have parts : ∃ k₃ k₄, Reaches look' true cwd [.name n] k₃ p ∧
                Reaches look' true p (Posix.namesOf rest) k₄ q' := by
              by_cases more : Posix.namesOf rest = []
              · rw [more, List.append_nil] at names
                obtain ⟨_, rfl⟩ := one.unique (names.mono covers)
                rw [more]
                exact ⟨k', 0, names, .done⟩
              · obtain ⟨k₃, p', k₄, first, _, second, _⟩ := names.split grounded' more start
                obtain ⟨_, rfl⟩ := one.unique (first.mono covers)
                exact ⟨k₃, k₄, first, second⟩
            obtain ⟨k₃, k₄, first, second⟩ := parts
            have isDir' : (look' p).any Node.isDir = true := by
              obtain ⟨node', found'⟩ := Option.isSome_iff_exists.mp (first.exists_node grounded' start)
              obtain ⟨node, found, same, _⟩ := covers p node' found'
              rw [found, Option.any_some, same] at isDir
              rw [found']
              exact isDir
            obtain ⟨rfl, _⟩ := one.unique (first.mono covers)
            exact first.append isDir' (ih isDir' two second noUpRest)

/-- A straight link text leads from its directory to where the absolute text made of it does. -/
theorem absText_normFrom (grounded : Grounded look) (start : (look cwd).any Node.isDir = true)
    (noDetour : straight text = true) (reaches : Reaches look true cwd text k q) :
    Reaches look true [] (absText (normFrom cwd text)) k q := by
  induction text generalizing cwd with
  | nil =>
      rw [reaches_absText_iff, show normFrom cwd [] = cwd from rfl, ← List.append_nil (textOf cwd),
        textOf_append_iff grounded start]
      exact reaches
  | cons piece rest ih =>
      cases piece with
      | empty =>
          cases reaches with
          | empty reaches => exact ih start noDetour reaches
      | cur =>
          cases reaches with
          | cur reaches => exact ih start noDetour reaches
      | up =>
          cases reaches with
          | up reaches => exact ih (grounded.tail start) noDetour reaches
      | name n =>
          have noUp : ∀ piece ∈ Piece.name n :: rest, piece ≠ .up := by
            simpa [straight] using noDetour
          rw [reaches_absText_iff, textOf_normFrom noUp, textOf_append_iff grounded start]
          exact reaches.namesOf grounded start noUp

theorem of_absText_normFrom {look' : Tree α} (grounded : Grounded look)
    (grounded' : Grounded look') (covers : Covers look look')
    (start : (look' cwd).any Node.isDir = true) (noDetour : straight text = true)
    (reaches : Reaches look true cwd text k q) {k' : Nat} {q' : Path α}
    (normalised : Reaches look' true [] (absText (normFrom cwd text)) k' q') :
    Reaches look' true cwd text k q := by
  induction text generalizing cwd with
  | nil =>
      cases reaches
      exact .done
  | cons piece rest ih =>
      cases piece with
      | empty =>
          cases reaches with
          | empty reaches => exact (ih start noDetour reaches normalised).empty
      | cur =>
          cases reaches with
          | cur reaches => exact (ih start noDetour reaches normalised).cur
      | up =>
          cases reaches with
          | up reaches => exact (ih (grounded'.tail start) noDetour reaches normalised).up
      | name n =>
          have noUp : ∀ piece ∈ Piece.name n :: rest, piece ≠ .up := by
            simpa [straight] using noDetour
          rw [reaches_absText_iff, textOf_normFrom noUp, textOf_append_iff grounded' start] at normalised
          exact of_namesOf grounded grounded' covers start reaches normalised noUp

end Reaches

/-! ## Links below links -/

namespace FileSystem

variable {fs : FileSystem α}

/-- Read from a location, no `..` of the text takes back a symbolic link. -/
def noLinkUp (fs : FileSystem α) : Path α → PathText α → Bool
  | _, [] => true
  | p, .empty :: rest => fs.noLinkUp p rest
  | p, .cur :: rest => fs.noLinkUp p rest
  | p, .up :: rest => !fs.islink (textOf p) && fs.noLinkUp p.tail rest
  | p, .name n :: rest => fs.noLinkUp (n :: p) rest

/-- A `..` after a name that is no link takes back one piece of the text. -/
theorem reaches_textOf_tail {p c : Path α} {k : Nat} (reaches : Reaches fs.get true [] (textOf p) k c)
    (isDir : fs.isDirAt c = true) (enough : k ≤ maxSymlinks) (noLink : fs.islink (textOf p) = false) :
    ∃ k', k' ≤ k ∧ Reaches fs.get true [] (textOf p.tail) k' c.tail := by
  cases p with
  | nil =>
      cases reaches
      exact ⟨0, Nat.le_refl 0, .done⟩
  | cons n p =>
      rw [textOf_cons] at reaches
      obtain ⟨k₁, c₁, k₂, one, isDir₁, two, rfl⟩ :=
        reaches.split fs.grounded (List.cons_ne_nil _ _) fs.grounded.root
      have stays : c = n :: c₁ := by
        cases two with
        | dir _ later =>
            cases later
            rfl
        | leaf _ _ _ => rfl
        | @link _ _ _ target _ _ found _ _ =>
            -- the link is what the text names, found over no more links than the whole text
            obtain ⟨k', q, fewer, whole⟩ := reaches.unfollow
            obtain ⟨k₃, c₃, k₄, first, _, last, rfl⟩ :=
              whole.split fs.grounded (List.cons_ne_nil _ _) fs.grounded.root
            obtain ⟨_, rfl⟩ := first.unique one
            rw [last.last] at whole
            have there : fs.lstat (textOf (n :: p)) = some (.symlink target) := by
              rw [lstat_eq_some_iff, textOf_cons]
              exact ⟨_, _, Nat.le_trans fewer enough, whole, found⟩
            rw [islink, there] at noLink
            cases noLink
      rw [stays]
      exact ⟨k₁, Nat.le_add_right _ _, one⟩

/--
By induction on the text: what is read from a location by the names that lead to
it is read by the normalised text too, over no more links.
-/
theorem reaches_normFrom {p c q : Path α} {text : PathText α} {k₀ k : Nat}
    (before : Reaches fs.get true [] (textOf p) k₀ c) (isDir : fs.isDirAt c = true)
    (noDetour : fs.noLinkUp p text = true) (reaches : Reaches fs.get true c text k q)
    (enough : k₀ + k ≤ maxSymlinks) :
    ∃ k', k' ≤ k₀ + k ∧ Reaches fs.get true [] (textOf (normFrom p text)) k' q := by
  induction text generalizing p c k₀ k with
  | nil =>
      cases reaches
      exact ⟨k₀, Nat.le_refl _, before⟩
  | cons piece rest ih =>
      cases piece with
      | empty =>
          cases reaches with
          | empty later => exact ih before isDir noDetour later enough
      | cur =>
          cases reaches with
          | cur later => exact ih before isDir noDetour later enough
      | up =>
          rw [noLinkUp, Bool.and_eq_true, Bool.not_eq_true'] at noDetour
          cases reaches with
          | up later =>
              obtain ⟨k₁, fewer, back⟩ :=
                reaches_textOf_tail before isDir (by omega) noDetour.1
              obtain ⟨k', bound, whole⟩ :=
                ih back (fs.grounded.tail isDir) noDetour.2 later (by omega)
              exact ⟨k', by omega, whole⟩
      | name n =>
          by_cases last : rest = []
          · subst last
            refine ⟨k₀ + k, Nat.le_refl _, ?_⟩
            change Reaches fs.get true [] (textOf (n :: p)) (k₀ + k) q
            rw [textOf_cons]
            exact before.append isDir reaches
          · change Reaches fs.get true c ([.name n] ++ rest) k q at reaches
            obtain ⟨k₁, c₁, k₂, one, isDir₁, two, rfl⟩ := reaches.split fs.grounded last isDir
            have joined := before.append isDir one
            rw [← textOf_cons] at joined
            obtain ⟨k', bound, whole⟩ := ih joined isDir₁ noDetour two (by omega)
            exact ⟨k', by omega, whole⟩

theorem reaches_absText_normFrom {dir q : Path α} {text : PathText α} {k : Nat}
    (isDir : fs.isDirAt dir = true) (noDetour : fs.noLinkUp dir text = true)
    (reaches : Reaches fs.get true dir text k q) (enough : k ≤ maxSymlinks) :
    ∃ k', k' ≤ k ∧ Reaches fs.get true [] (absText (normFrom dir text)) k' q := by
  have here : Reaches fs.get true [] (textOf dir) 0 dir := by
    rw [← List.append_nil (textOf dir), Reaches.textOf_append_iff fs.grounded isDir]
    exact .done
  obtain ⟨k', fewer, whole⟩ := reaches_normFrom here isDir noDetour reaches (by omega)
  exact ⟨k', by omega, reaches_absText_iff.mpr whole⟩

end FileSystem

end GnomeBuildMeta.Posix
