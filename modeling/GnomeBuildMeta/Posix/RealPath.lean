import GnomeBuildMeta.Posix.Reaches
import Mathlib.Data.List.Perm.Subperm
import Mathlib.Data.List.TakeWhile

/-!
# os.path of Python

The functions that only look at the text, and `realpath`, which resolves as far
as it can.  Where the system finds an entry `realpath` finds the same one.
-/

namespace GnomeBuildMeta.Posix

variable {α : Type} [DecidableEq α]

/-! ## Texts -/

/-- `os.path.isabs` -/
def isabs (text : PathText α) : Bool := text.head? = some .empty

/-- An absolute target is read from the root. -/
theorem linkStart_of_isabs {target : PathText α} (absolute : isabs target = true) (cwd : Path α) :
    linkStart cwd target = [] :=
  if_pos (of_decide_eq_true absolute)

theorem linkStart_of_not_isabs {target : PathText α} (relative : ¬ isabs target = true) (cwd : Path α) :
    linkStart cwd target = cwd :=
  if_neg fun first => relative (decide_eq_true first)

/-- `os.path.basename` -/
def basename (text : PathText α) : Piece α := text.getLast?.getD .empty

/-- Trailing slashes are dropped from the directory part, unless there is nothing else. -/
def dirname (text : PathText α) : PathText α :=
  if text.dropLast.all (· = .empty) then text.dropLast ++ [.empty]
  else (text.dropLast.reverse.dropWhile (· = .empty)).reverse

/-- One piece of an absolute text as `os.path.normpath` takes it. -/
def lexical (cwd : Path α) : Piece α → Path α
  | .name n => n :: cwd
  | .up => cwd.tail
  | _ => cwd

/-- Where an absolute text leads if there are no links. -/
def normFrom (cwd : Path α) (text : PathText α) : Path α := text.foldl lexical cwd

/-- The absolute text of a location. -/
def absText (p : Path α) : PathText α :=
  if p = [] then [.empty, .empty] else .empty :: textOf p

/-! ## realpath -/

/-- Read a text; how the target of a link is read from its directory is given. -/
def joinRealPathFrom (look : Tree α) (active : List (Path α))
    (resolve : Path α → Path α → PathText α → Path α × Bool) :
    Path α → PathText α → Path α × Bool
  | cwd, [] => (cwd, true)
  | cwd, .empty :: rest => joinRealPathFrom look active resolve cwd rest
  | cwd, .cur :: rest => joinRealPathFrom look active resolve cwd rest
  | cwd, .up :: rest => joinRealPathFrom look active resolve cwd.tail rest
  | cwd, .name n :: rest =>
      match look (n :: cwd) with
      | some (.symlink target) =>
          -- a link inside its own resolution is a loop, and the rest stays unresolved
          if n :: cwd ∈ active then (normFrom (n :: cwd) rest, false)
          else
            match resolve (n :: cwd) (linkStart cwd target) target with
            | (p, true) => joinRealPathFrom look active resolve p rest
            | (p, false) => (normFrom p rest, false)
      | _ => joinRealPathFrom look active resolve (n :: cwd) rest

/-- `_joinrealpath`; the links that are being resolved are `active`. -/
def joinRealPath (look : Tree α) : Nat → List (Path α) → Path α → PathText α → Path α × Bool
  | 0, _, cwd, text => (normFrom cwd text, false)
  | depth + 1, active, cwd, text =>
      joinRealPathFrom look active
        (fun link start target => joinRealPath look depth (link :: active) start target) cwd text

/-- `os.path.realpath`; no more links can be active than there are. -/
def FileSystem.realpath (fs : FileSystem α) (text : PathText α) : Path α :=
  (joinRealPath fs.get (fs.entries.length + 1) [] [] text).1

/-- Each active link takes at least as many links as are still to follow. -/
def Pending (look : Tree α) (active : List (Path α)) (k : Nat) : Prop :=
  ∀ link ∈ active, ∃ target cost p, look link = some (.symlink target) ∧
    Reaches look true (linkStart link.tail target) target cost p ∧ k ≤ cost

/-- There are no more active links than entries. -/
theorem length_active_le (fs : FileSystem α) {active : List (Path α)} (distinct : active.Nodup)
    {k : Nat} (pending : Pending fs.get active k) : active.length ≤ fs.entries.length := by
  have inside : active ⊆ fs.entries.map Prod.fst := by
    intro link member
    obtain ⟨target, _, _, found, _⟩ := pending link member
    exact List.mem_map.mpr ⟨_, (fs.mem_entries_iff link _).mpr found, rfl⟩
  have bound := (List.subperm_of_subset distinct inside).length_le
  rwa [List.length_map] at bound

/-- Where the system finds something `realpath` comes to the same place. -/
theorem joinRealPath_of_reaches (fs : FileSystem α) {k : Nat} {cwd q : Path α} {text : PathText α}
    (start : fs.isDirAt cwd = true) (reaches : Reaches fs.get true cwd text k q) {depth : Nat}
    {active : List (Path α)} (room : depth + active.length = fs.entries.length + 1)
    (distinct : active.Nodup) (pending : Pending fs.get active k) :
    joinRealPath fs.get depth active cwd text = (q, true) := by
  induction k using Nat.strong_induction_on generalizing cwd q text depth active with
  | h k outer =>
      have few := length_active_le fs distinct pending
      obtain ⟨depth, rfl⟩ : ∃ d, depth = d + 1 := ⟨depth - 1, by omega⟩
      rw [joinRealPath]
      induction text generalizing cwd with
      | nil =>
          cases reaches
          rfl
      | cons piece rest ih =>
          cases piece with
          | empty =>
              cases reaches with
              | empty later => exact ih start later
          | cur =>
              cases reaches with
              | cur later => exact ih start later
          | up =>
              cases reaches with
              | up later => exact ih (fs.grounded.tail start) later
          | name n =>
              cases reaches with
              | dir isDir later =>
                  obtain ⟨perm, found⟩ := (fs.isDirAt_iff _).mp isDir
                  rw [joinRealPathFrom, found]
                  exact ih isDir later
              | leaf found noDir last =>
                  rename_i node
                  rw [joinRealPathFrom, found]
                  cases node with
                  | dir _ => cases noDir
                  | symlink _ => cases last rfl
                  | file _ _ | chardev _ _ => rfl
              | @link _ _ _ target _ k found _ later =>
                  have parts : ∃ cost p k₂, Reaches fs.get true (linkStart cwd target) target cost p ∧
                      fs.isDirAt (linkStart cwd target) = true ∧ cost + k₂ ≤ k ∧
                      joinRealPathFrom fs.get active (fun link start target =>
                        joinRealPath fs.get depth (link :: active) start target) p rest =
                          (q, true) := by
                    have origin := fs.grounded.linkStart start target
                    by_cases more : rest = []
                    · subst more
                      rw [List.append_nil] at later
                      exact ⟨k, q, 0, later, origin, Nat.le_refl k, rfl⟩
                    · obtain ⟨cost, p, k₂, one, isDir, two, rfl⟩ :=
                        later.split fs.grounded more origin
                      refine ⟨cost, p, k₂, one, origin, Nat.le_refl _, ?_⟩
                      refine outer k₂ (by omega) isDir two room distinct fun link member => ?_
                      obtain ⟨target', cost', p', found', reaches', bound⟩ := pending link member
                      exact ⟨target', cost', p', found', reaches', by omega⟩
                  obtain ⟨cost, p, k₂, one, origin, bound, after⟩ := parts
                  have fresh : n :: cwd ∉ active := by
                    intro member
                    obtain ⟨target', cost', p', found', reaches', bound'⟩ := pending _ member
                    cases found.symm.trans found'
                    obtain ⟨same, _⟩ := one.unique reaches'
                    omega
                  have inner : joinRealPath fs.get depth ((n :: cwd) :: active)
                      (linkStart cwd target) target = (p, true) := by
                    refine outer cost (by omega) origin one ?_ (List.nodup_cons.mpr ⟨fresh, distinct⟩)
                      fun link member => ?_
                    · rw [List.length_cons]
                      omega
                    · rcases List.mem_cons.mp member with rfl | inside
                      · exact ⟨target, cost, p, found, one, Nat.le_refl cost⟩
                      · obtain ⟨target', cost', p', found', reaches', bound'⟩ := pending link inside
                        exact ⟨target', cost', p', found', reaches', by omega⟩
                  rw [joinRealPathFrom, found]
                  simp only [fresh, ↓reduceIte, inner]
                  exact after

/-- `realpath` finds what the system finds. -/
theorem FileSystem.realpath_of_reaches (fs : FileSystem α) {k : Nat} {q : Path α}
    {text : PathText α} (reaches : Reaches fs.get true [] text k q) : fs.realpath text = q := by
  rw [FileSystem.realpath, joinRealPath_of_reaches fs fs.isDirAt_root reaches (by simp)
    List.nodup_nil (fun link member => nomatch member)]

/-! ## The directory part -/

omit [DecidableEq α] in
theorem reaches_empties {look : Tree α} [DecidableEq α] {follow : Bool} {cwd q : Path α}
    {text : PathText α} {k : Nat} (empties : ∀ piece ∈ text, piece = .empty) :
    Reaches look follow cwd text k q ↔ k = 0 ∧ q = cwd := by
  induction text with
  | nil =>
      constructor
      · intro reaches
        cases reaches
        exact ⟨rfl, rfl⟩
      · rintro ⟨rfl, rfl⟩
        exact .done
  | cons piece rest ih =>
      have later := ih fun other inside => empties other (List.mem_cons_of_mem _ inside)
      rw [empties piece List.mem_cons_self, ← later]
      constructor
      · intro reaches
        cases reaches with
        | empty reaches => exact reaches
      · exact .empty

/-- The directory part, up to slashes at its end, is all but the last piece. -/
theorem dirname_cases (text : PathText α) :
    ((∀ piece ∈ text.dropLast, piece = .empty) ∧ ∀ piece ∈ dirname text, piece = .empty) ∨
      ∃ slashes, (∀ piece ∈ slashes, piece = .empty) ∧ text.dropLast = dirname text ++ slashes := by
  rw [dirname]
  split
  · rename_i all
    have empties : ∀ piece ∈ text.dropLast, piece = .empty := by simpa using all
    refine Or.inl ⟨empties, fun piece member => ?_⟩
    rcases List.mem_append.mp member with inside | last
    · exact empties piece inside
    · exact List.mem_singleton.mp last
  · right
    refine ⟨(text.dropLast.reverse.takeWhile (· = .empty)).reverse, fun piece member => ?_, ?_⟩
    · simpa using List.mem_takeWhile_imp (List.mem_reverse.mp member)
    · rw [← List.reverse_append, List.takeWhile_append_dropWhile, List.reverse_reverse]

theorem reaches_dirname_iff {look : Tree α} (grounded : Grounded look) {text : PathText α}
    {k : Nat} {d : Path α} (isDir : (look d).any Node.isDir = true) :
    Reaches look true [] (dirname text) k d ↔ Reaches look true [] text.dropLast k d := by
  rcases dirname_cases text with ⟨first, second⟩ | ⟨slashes, empties, split⟩
  · rw [reaches_empties first, reaches_empties second]
  · rw [split]
    constructor
    · intro reaches
      exact reaches.append isDir ((reaches_empties empties).mpr ⟨rfl, rfl⟩)
    · intro reaches
      by_cases none' : slashes = []
      · rwa [none', List.append_nil] at reaches
      · obtain ⟨k₁, p, k₂, one, _, two, rfl⟩ := reaches.split grounded none' grounded.root
        obtain ⟨rfl, rfl⟩ := (reaches_empties empties).mp two
        exact one

/-- `realpath` reads on from where the first part of a text has led, or stays unresolved. -/
theorem joinRealPathFrom_append {look : Tree α} {active : List (Path α)}
    {resolve : Path α → Path α → PathText α → Path α × Bool} {cwd p : Path α} {first : PathText α}
    {resolved : Bool} (read : joinRealPathFrom look active resolve cwd first = (p, resolved))
    (rest : PathText α) : joinRealPathFrom look active resolve cwd (first ++ rest) =
      if resolved then joinRealPathFrom look active resolve p rest else (normFrom p rest, false) := by
  induction first generalizing cwd with
  | nil =>
      cases read
      rfl
  | cons piece first ih =>
      cases piece with
      | empty | cur | up => exact ih read
      | name n =>
          rw [joinRealPathFrom] at read
          rw [List.cons_append, joinRealPathFrom]
          cases found : look (n :: cwd) with
          | none =>
              rw [found] at read
              exact ih read
          | some node =>
              rw [found] at read
              cases node with
              | dir _ | file _ _ | chardev _ _ => exact ih read
              | symlink target =>
                  dsimp only at read ⊢
                  split at read
                  · rename_i loop
                    cases read
                    rw [if_pos loop, normFrom, List.foldl_append]
                    rfl
                  · rename_i fresh
                    rw [if_neg fresh]
                    generalize resolve (n :: cwd) (linkStart cwd target) target = outcome at read ⊢
                    obtain ⟨p', resolved'⟩ := outcome
                    cases resolved' with
                    | true => exact ih read
                    | false =>
                        cases read
                        change (normFrom p' (first ++ rest), false) = (normFrom _ rest, false)
                        rw [normFrom, List.foldl_append]
                        rfl

/-- Slashes at the end change nothing. -/
theorem joinRealPathFrom_empties (look : Tree α) (active : List (Path α))
    (resolve : Path α → Path α → PathText α → Path α × Bool) {cwd : Path α} {text : PathText α}
    (empties : ∀ piece ∈ text, piece = .empty) :
    joinRealPathFrom look active resolve cwd text = (cwd, true) ∧ normFrom cwd text = cwd := by
  induction text with
  | nil => exact ⟨rfl, rfl⟩
  | cons piece rest ih =>
      rw [empties piece List.mem_cons_self]
      exact ih fun other inside => empties other (List.mem_cons_of_mem _ inside)

theorem joinRealPathFrom_dirname (look : Tree α) (active : List (Path α))
    (resolve : Path α → Path α → PathText α → Path α × Bool) (text : PathText α) :
    joinRealPathFrom look active resolve [] (dirname text) =
      joinRealPathFrom look active resolve [] text.dropLast := by
  rcases dirname_cases text with ⟨first, second⟩ | ⟨slashes, empties, split⟩
  · rw [(joinRealPathFrom_empties look active resolve first).1,
      (joinRealPathFrom_empties look active resolve second).1]
  · rw [split]
    cases read : joinRealPathFrom look active resolve [] (dirname text) with
    | mk p resolved =>
        rw [joinRealPathFrom_append read]
        cases resolved with
        | true => exact (joinRealPathFrom_empties look active resolve empties).1.symm
        | false =>
            change (p, false) = (normFrom p slashes, false)
            rw [(joinRealPathFrom_empties look active resolve empties).2]

/-- Where no link is at the end, `realpath` appends the last piece to the directory. -/
theorem FileSystem.realpath_of_not_link (fs : FileSystem α) {text : PathText α}
    (noLink : ∀ target, fs.get (lexical (fs.realpath (dirname text)) (basename text)) ≠
      some (.symlink target)) :
    fs.realpath text = lexical (fs.realpath (dirname text)) (basename text) := by
  rcases List.eq_nil_or_concat text with rfl | ⟨init, piece, rfl⟩
  · rfl
  · rw [List.concat_eq_append] at noLink ⊢
    have last : basename (init ++ [piece]) = piece := by simp [basename]
    rw [last] at noLink ⊢
    have unfolded : ∀ text, fs.realpath text = (joinRealPathFrom fs.get [] (fun link start target =>
        joinRealPath fs.get fs.entries.length [link] start target) [] text).1 := fun _ => rfl
    rw [unfolded (dirname _), joinRealPathFrom_dirname, List.dropLast_concat] at noLink ⊢
    rw [unfolded]
    cases read : joinRealPathFrom fs.get [] (fun link start target =>
        joinRealPath fs.get fs.entries.length [link] start target) [] init with
    | mk p resolved =>
        rw [read] at noLink
        rw [joinRealPathFrom_append read]
        cases resolved with
        | false => rfl
        | true =>
            cases piece with
            | empty | cur | up => rfl
            | name n =>
                rw [if_pos rfl, joinRealPathFrom]
                cases found : fs.get (n :: p) with
                | none => rfl
                | some node =>
                    cases node with
                    | symlink target => exact absurd found (noLink target)
                    | dir _ | file _ _ | chardev _ _ => rfl

/-- Something that gets smaller from a text to its directory part. -/
def weight (text : PathText α) : Nat := text.length + text.countP fun piece => piece ≠ Piece.empty

theorem weight_dirname_lt {text : PathText α} (proper : ∃ piece ∈ text, piece ≠ .empty) :
    weight (dirname text) < weight text := by
  obtain ⟨piece, member, notEmpty⟩ := proper
  have positive : 0 < text.length := List.length_pos_of_mem member
  have size : text.dropLast.length = text.length - 1 := List.length_dropLast
  rw [weight, weight, dirname]
  split
  · rename_i all
    have empties : ∀ other ∈ text.dropLast, other = .empty := by simpa using all
    have nothing : (text.dropLast ++ [Piece.empty]).countP (fun other => other ≠ Piece.empty) = 0 := by
      rw [List.countP_eq_zero]
      intro other inside
      rcases List.mem_append.mp inside with first | last
      · simp [empties other first]
      · simp [List.mem_singleton.mp last]
    have something : 0 < text.countP (fun other => other ≠ Piece.empty) :=
      List.countP_pos_iff.mpr ⟨piece, member, by simpa using notEmpty⟩
    rw [nothing, List.length_append, List.length_singleton]
    omega
  · have part : (text.dropLast.reverse.dropWhile (· = .empty)).reverse.Sublist text.dropLast := by
      have reversed := (List.dropWhile_sublist (l := text.dropLast.reverse) fun other => decide (other = Piece.empty)).reverse
      rwa [List.reverse_reverse] at reversed
    have fewer := (part.trans (List.dropLast_sublist text)).countP_le (p := fun other => other ≠ Piece.empty)
    have shorter := part.length_le
    omega

end GnomeBuildMeta.Posix
