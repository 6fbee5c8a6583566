import GnomeBuildMeta.Posix.Resolve

/-!
# Walks that stay in a tree

The reading of a text stays in a tree if it follows relative links only and
never climbs above the top.  Such a reading goes the same way wherever the tree
is mounted, and also through another tree that agrees at every location on the
way.  The last link is not followed, so that what is at the end does not count.
-/

namespace GnomeBuildMeta.Posix

variable {α : Type}

/--
Reading `text` from `cwd` up to the first link never climbs above the top, and
each location on the way is one of `seen`.
-/
def scanStays (look : Tree α) (seen : Path α → Prop) : Path α → PathText α → Prop
  | _, [] => True
  | cwd, .empty :: rest => scanStays look seen cwd rest
  | cwd, .cur :: rest => scanStays look seen cwd rest
  | [], .up :: _ => False
  | _ :: cwd, .up :: rest => scanStays look seen cwd rest
  | cwd, .name n :: rest =>
      (rest ≠ [] → seen (n :: cwd)) ∧
        ((look (n :: cwd)).any Node.isDir = true → scanStays look seen (n :: cwd) rest)

/-- The same for a whole reading, which follows no absolute link. -/
def walkStays (look : Tree α) (seen : Path α → Prop) : Nat → Path α → PathText α → Prop
  | 0, cwd, text => scanStays look seen cwd text
  | budget + 1, cwd, text =>
      scanStays look seen cwd text ∧
        ∀ dir target rest, scan look false cwd text = .link dir target rest →
          target.head? ≠ some .empty ∧ walkStays look seen budget dir (target ++ rest)

/-- Both are directories, or both are the same. -/
def SameWay (first second : Option (Node α)) : Prop :=
  first = second ∨ first.any Node.isDir = true ∧ second.any Node.isDir = true

def Scan.mount (base : Path α) : Scan α → Scan α
  | .done result => .done (result.map (· ++ base))
  | .link cwd target rest => .link (cwd ++ base) target rest

theorem SameWay.dir {first second : Option (Node α)} (same : SameWay first second) {perm : Nat}
    (dir : first = some (.dir perm)) : ∃ perm', second = some (.dir perm') := by
  rcases same with rfl | ⟨_, isDir⟩
  · exact ⟨perm, dir⟩
  · obtain ⟨node, rfl, isDir⟩ := (Option.any_eq_true _ _).mp isDir
    obtain ⟨perm', rfl⟩ := Node.isDir_iff.mp isDir
    exact ⟨perm', rfl⟩

theorem SameWay.other {first second : Option (Node α)} (same : SameWay first second)
    (other : first.any Node.isDir = false) : second = first := by
  rcases same with rfl | ⟨isDir, _⟩
  · rfl
  · rw [other] at isDir
    cases isDir

/-- What is at the end of a text does not matter where the last link is not followed. -/
theorem scan_last (look : Tree α) (cwd : Path α) (n : α) :
    scan look false cwd [.name n] = .done (.ok (n :: cwd)) := by
  cases found : look (n :: cwd) with
  | none => simp [scan, found]
  | some node => cases node <;> simp [scan, found]

/-- A reading that stays in a tree goes the same way where the tree is mounted. -/
theorem scan_mount {look mounted : Tree α} {seen : Path α → Prop} {base : Path α}
    (agree : ∀ p, seen p → SameWay (look p) (mounted (p ++ base))) {cwd : Path α}
    {text : PathText α} (stays : scanStays look seen cwd text) :
    scan mounted false (cwd ++ base) text = (scan look false cwd text).mount base := by
  induction cwd, text using scanStays.induct with
  | case1 cwd => rfl
  | case2 cwd rest ih => exact ih stays
  | case3 cwd rest ih => exact ih stays
  | case4 rest => exact stays.elim
  | case5 n cwd rest ih => exact ih stays
  | case6 cwd n rest ih =>
      obtain ⟨looked, deeper⟩ := stays
      by_cases last : rest = []
      · subst last
        rw [scan_last, scan_last]
        rfl
      have same : SameWay (look (n :: cwd)) (mounted (n :: (cwd ++ base))) := agree _ (looked last)
      cases found : look (n :: cwd) with
      | none =>
          have found' := (same.other (by simp [found])).trans found
          simp only [scan, found, found']
          split <;> rfl
      | some node =>
          cases node with
          | dir perm =>
              obtain ⟨perm', found'⟩ := same.dir found
              have isDir : (look (n :: cwd)).any Node.isDir = true := by simp [found, Node.isDir]
              simp only [scan, found, found']
              exact ih (deeper isDir)
          | symlink target =>
              have found' := (same.other (by simp [found, Node.isDir])).trans found
              simp only [scan, found, found']
              split <;> rfl
          | file _ _ | chardev _ _ =>
              have found' := (same.other (by simp [found, Node.isDir])).trans found
              simp only [scan, found, found']
              split <;> rfl

theorem scanStays_textOf {look : Tree α} {seen : Path α → Prop} {p : Path α}
    (root : (look []).any Node.isDir = true) (rest : PathText α)
    (above : ∀ q, q <:+ p → q ≠ [] → (q = p → rest ≠ []) → seen q)
    (later : (look p).any Node.isDir = true → scanStays look seen p rest) :
    scanStays look seen [] (textOf p ++ rest) := by
  induction p generalizing rest with
  | nil => exact later root
  | cons n p ih =>
      rw [textOf_cons, List.append_assoc]
      refine ih _ (fun q suffix proper _ => ?_) fun _ => ⟨fun more => ?_, later⟩
      · refine above q (suffix.trans (List.suffix_cons n p)) proper ?_
        rintro rfl
        have lengths := suffix.length_le
        simp only [List.length_cons] at lengths
        omega
      · exact above _ List.suffix_rfl (List.cons_ne_nil _ _) fun _ => more

/-- Reading a location that lies under no link stays in the tree. -/
theorem walkStays_textOf {look : Tree α} {seen : Path α → Prop} (grounded : Grounded look)
    {p : Path α} (plain : ¬ UnderLink look p) (above : ∀ q, q <:+ p → q ≠ [] → q ≠ p → seen q)
    (budget : Nat) : walkStays look seen budget [] (textOf p) := by
  have stays : scanStays look seen [] (textOf p) := by
    have stays := scanStays_textOf grounded.root []
      (fun q suffix proper last => above q suffix proper fun same => last same rfl)
      fun _ => (trivial : scanStays look seen p [])
    rwa [List.append_nil] at stays
  cases budget with
  | zero => exact stays
  | succ budget =>
      refine ⟨stays, fun dir target rest stopped => ?_⟩
      obtain ⟨result, done, _⟩ := grounded.scan_textOf_plain plain
      rw [done] at stopped
      cases stopped

/--
Where a reading that stays in a tree comes to: a directory, or a name in a
directory that is `clear` if the top is and whatever the reading passes.
-/
theorem scan_arrives {look : Tree α} {seen clear : Path α → Prop} (grounded : Grounded look)
    (tail : ∀ n p, clear (n :: p) → clear p) (passed : ∀ p, seen p → clear p) {cwd : Path α}
    {text : PathText α} (dir : (look cwd).any Node.isDir = true) (start : clear cwd)
    (stays : scanStays look seen cwd text) :
    (∀ p, scan look false cwd text = .done (.ok p) →
        (look p).any Node.isDir = true ∨ ∃ n q, p = n :: q ∧ clear q) ∧
      ∀ p target rest, scan look false cwd text = .link p target rest →
        (look p).any Node.isDir = true ∧ clear p := by
  induction cwd, text using scanStays.induct with
  | case1 cwd =>
      constructor
      · intro p here
        cases here
        exact Or.inl dir
      · intro p target rest here
        cases here
  | case2 cwd rest ih => exact ih dir start stays
  | case3 cwd rest ih => exact ih dir start stays
  | case4 rest => exact stays.elim
  | case5 n cwd rest ih =>
      obtain ⟨node, found, _⟩ := (Option.any_eq_true _ _).mp dir
      exact ih (grounded.parent found) (tail n cwd start) stays
  | case6 cwd n rest ih =>
      obtain ⟨looked, deeper⟩ := stays
      by_cases last : rest = []
      · subst last
        rw [scan_last]
        constructor
        · intro p here
          cases here
          exact Or.inr ⟨n, cwd, rfl, start⟩
        · intro p target rest here
          cases here
      have more : rest.isEmpty = false := by simp [last]
      cases found : look (n :: cwd) with
      | none =>
          simp only [scan, found, more]
          constructor
          · intro p here
            cases here
          · intro p target rest here
            cases here
      | some node =>
          cases node with
          | dir perm =>
              have isDir : (look (n :: cwd)).any Node.isDir = true := by simp [found, Node.isDir]
              simp only [scan, found]
              exact ih isDir (passed _ (looked last)) (deeper isDir)
          | symlink target =>
              simp only [scan, found, more]
              constructor
              · intro p here
                cases here
              · intro p target' rest' here
                cases here
                exact ⟨dir, start⟩
          | file _ _ | chardev _ _ =>
              simp only [scan, found, more]
              constructor
              · intro p here
                cases here
              · intro p target rest here
                cases here

variable [DecidableEq α]

/-- A whole reading that stays in a tree ends at the same place where the tree is mounted. -/
theorem walk_mount {look mounted : Tree α} {seen : Path α → Prop} {base : Path α}
    (agree : ∀ p, seen p → SameWay (look p) (mounted (p ++ base))) {budget : Nat} {cwd : Path α}
    {text : PathText α} (stays : walkStays look seen budget cwd text) :
    walk mounted false budget (cwd ++ base) text =
      (walk look false budget cwd text).map (· ++ base) := by
  induction budget generalizing cwd text with
  | zero =>
      have here := scan_mount agree stays
      cases stopped : scan look false cwd text with
      | done result => simp only [walk, here, stopped, Scan.mount]
      | link dir target rest => simp only [walk, here, stopped, Scan.mount, Except.map]
  | succ budget ih =>
      obtain ⟨first, next⟩ := stays
      have here := scan_mount agree first
      cases stopped : scan look false cwd text with
      | done result => simp only [walk, here, stopped, Scan.mount]
      | link dir target rest =>
          obtain ⟨relative, later⟩ := next dir target rest stopped
          simp only [walk, here, stopped, Scan.mount, linkStart, relative, ↓reduceIte]
          exact ih later

theorem walk_arrives {look : Tree α} {seen clear : Path α → Prop} (grounded : Grounded look)
    (tail : ∀ n p, clear (n :: p) → clear p) (passed : ∀ p, seen p → clear p) {budget : Nat}
    {cwd p : Path α} {text : PathText α} (dir : (look cwd).any Node.isDir = true)
    (start : clear cwd) (stays : walkStays look seen budget cwd text)
    (walked : walk look false budget cwd text = .ok p) :
    (look p).any Node.isDir = true ∨ ∃ n q, p = n :: q ∧ clear q := by
  induction budget generalizing cwd text with
  | zero =>
      have arrives := scan_arrives grounded tail passed dir start stays
      cases stopped : scan look false cwd text with
      | done result =>
          simp only [walk, stopped] at walked
          exact arrives.1 p (by rw [stopped, walked])
      | link dir' target rest =>
          simp only [walk, stopped] at walked
          cases walked
  | succ budget ih =>
      obtain ⟨first, next⟩ := stays
      have arrives := scan_arrives grounded tail passed dir start first
      cases stopped : scan look false cwd text with
      | done result =>
          simp only [walk, stopped] at walked
          exact arrives.1 p (by rw [stopped, walked])
      | link dir' target rest =>
          obtain ⟨relative, later⟩ := next dir' target rest stopped
          obtain ⟨isDir, clear'⟩ := arrives.2 dir' target rest stopped
          simp only [walk, stopped, linkStart, relative, ↓reduceIte] at walked
          exact ih isDir clear' later walked

end GnomeBuildMeta.Posix
