import GnomeBuildMeta.Posix.NormPath

/-!
# Behind the last `..`

A relative link text made absolute by `normpath` leads where the link does if
both are in the same directory behind the last `..` of the text.  If they are
not, only a link among the names that follow can bring them together again.
-/

namespace GnomeBuildMeta.Posix

variable {α : Type} [DecidableEq α]

/-! ## Texts without links -/

omit [DecidableEq α] in
theorem exists_last_up {text : PathText α} (member : Piece.up ∈ text) :
    ∃ first rest, text = first ++ .up :: rest ∧ Piece.up ∉ rest := by
  obtain ⟨after, before, whole, absent⟩ := List.eq_append_cons_of_mem (List.mem_reverse.mpr member)
  refine ⟨before.reverse, after.reverse, ?_, fun inside => absent (List.mem_reverse.mp inside)⟩
  rw [← List.reverse_reverse text, whole]
  simp

omit [DecidableEq α] in
theorem normFrom_append (cwd : Path α) (first rest : PathText α) :
    normFrom cwd (first ++ rest) = normFrom (normFrom cwd first) rest :=
  List.foldl_append

omit [DecidableEq α] in
/-- Names lead from different directories to different entries. -/
theorem eq_of_normFrom_eq {text : PathText α} (noUp : Piece.up ∉ text) {c d : Path α}
    (same : normFrom c text = normFrom d text) : c = d := by
  induction text generalizing c d with
  | nil => exact same
  | cons piece rest ih =>
      rw [List.mem_cons, not_or] at noUp
      have next := ih noUp.2 same
      cases piece with
      | empty | cur => exact next
      | up => exact absurd rfl noUp.1
      | name n => exact (List.cons.inj next).2

variable {look : Tree α} {cwd q : Path α} {text : PathText α} {k : Nat}

/-- Without links a text leads where it does lexically. -/
theorem Reaches.eq_normFrom {follow : Bool} (reaches : Reaches look follow cwd text 0 q) : q = normFrom cwd text := by
  generalize none' : 0 = k at reaches
  induction reaches with
  | done => rfl
  | empty _ ih | cur _ ih | up _ ih | dir _ _ ih => exact ih none'
  | leaf _ _ _ => rfl
  | link _ _ _ _ => cases none'

omit [DecidableEq α] in
theorem up_not_mem_namesOf (text : PathText α) : Piece.up ∉ namesOf text := by
  induction text with
  | nil => exact List.not_mem_nil
  | cons piece rest ih =>
      cases piece with
      | empty | cur | up => exact ih
      | name n =>
          rw [namesOf, List.mem_cons, not_or]
          exact ⟨fun same => (by cases same), ih⟩

/-- What is read up to a `..` is a directory. -/
theorem Reaches.isDir_of_up (grounded : Grounded look) (start : (look cwd).any Node.isDir = true)
    {first : PathText α} (reaches : Reaches look true cwd (first ++ [.up]) k q) :
    (look q).any Node.isDir = true := by
  obtain ⟨_, p, _, _, isDir, last, _⟩ := reaches.split grounded (List.cons_ne_nil _ _) start
  cases last with
  | up later =>
      cases later
      exact grounded.tail isDir

theorem Reaches.split_up_iff (grounded : Grounded look) (start : (look cwd).any Node.isDir = true)
    {first rest : PathText α} : Reaches look true cwd (first ++ .up :: rest) k q ↔
      ∃ k₁ c k₂, Reaches look true cwd (first ++ [.up]) k₁ c ∧ Reaches look true c rest k₂ q ∧ k = k₁ + k₂ := by
  rw [List.append_cons]
  constructor
  · intro reaches
    by_cases last : rest = []
    · rw [last, List.append_nil] at reaches
      exact ⟨k, q, 0, reaches, last ▸ .done, rfl⟩
    · obtain ⟨k₁, c, k₂, one, _, two, sum⟩ := reaches.split grounded last start
      exact ⟨k₁, c, k₂, one, two, sum⟩
  · rintro ⟨k₁, c, k₂, one, two, rfl⟩
    exact one.append (one.isDir_of_up grounded start) two

namespace FileSystem

variable {fs : FileSystem α} {dir : Path α}

/-- Where a relative text leads from a directory, the absolute text made of it leads, too. -/
def Leads (fs : FileSystem α) (dir : Path α) (text : PathText α) : Prop :=
  ∀ k q, k ≤ maxSymlinks → Reaches fs.get true dir text k q →
    ∃ k', k' ≤ maxSymlinks ∧ Reaches fs.get true [] (absText (normFrom dir text)) k' q

/--
Behind the last `..` the text and the absolute one are in the same directory; or
they are in two, from which the rest leads over a link to the same entry.
-/
def Meets (fs : FileSystem α) (dir : Path α) (text : PathText α) : Prop :=
  ∀ first rest, text = first ++ .up :: rest → Piece.up ∉ rest →
    ∀ k₁ c k₂ q, Reaches fs.get true dir (first ++ [.up]) k₁ c → Reaches fs.get true c rest k₂ q →
      k₁ + k₂ ≤ maxSymlinks →
        ∃ k₃ d, Reaches fs.get true [] (textOf (normFrom dir (first ++ [.up]))) k₃ d ∧
          (d = c ∧ k₃ + k₂ ≤ maxSymlinks ∨
            d ≠ c ∧ fs.isDirAt d = true ∧ ∃ k₄, 0 < k₂ + k₄ ∧ k₃ + k₄ ≤ maxSymlinks ∧
              Reaches fs.get true d (namesOf rest) k₄ q)

theorem reaches_normalised_iff {first rest : PathText α} (noUp : Piece.up ∉ rest) {k : Nat} {q : Path α} :
    Reaches fs.get true [] (absText (normFrom dir (first ++ .up :: rest))) k q ↔
      Reaches fs.get true [] (textOf (normFrom dir (first ++ [.up])) ++ namesOf rest) k q := by
  rw [reaches_absText_iff, List.append_cons, normFrom_append, textOf_normFrom (List.forall_mem_ne'.mpr noUp)]

theorem leads_of_meets (isDir : fs.isDirAt dir = true) (meets : fs.Meets dir text) : fs.Leads dir text := by
  intro k q enough reaches
  by_cases member : Piece.up ∈ text
  · obtain ⟨first, rest, rfl, noUp⟩ := exists_last_up member
    obtain ⟨k₁, c, k₂, one, two, rfl⟩ := (Reaches.split_up_iff fs.grounded isDir).mp reaches
    have isDirC := one.isDir_of_up fs.grounded isDir
    have pieces : ∀ piece ∈ rest, piece ≠ Piece.up := List.forall_mem_ne'.mpr noUp
    obtain ⟨k₃, d, front, ⟨rfl, bound⟩ | ⟨_, isDirD, k₄, _, bound, later⟩⟩ :=
      meets first rest rfl noUp k₁ c k₂ q one two enough
    · refine ⟨k₃ + k₂, bound, (reaches_normalised_iff noUp).mpr ?_⟩
      exact front.append isDirC (two.namesOf fs.grounded isDirC pieces)
    · exact ⟨k₃ + k₄, bound, (reaches_normalised_iff noUp).mpr (front.append isDirD later)⟩
  · have pieces : ∀ piece ∈ text, piece ≠ Piece.up := List.forall_mem_ne'.mpr member
    refine ⟨k, enough, ?_⟩
    rw [reaches_absText_iff, textOf_normFrom pieces, Reaches.textOf_append_iff fs.grounded isDir]
    exact reaches.namesOf fs.grounded isDir pieces

/-- Where the normalised text leads is cut behind the front, too. -/
theorem meets_of_leads (isDir : fs.isDirAt dir = true) (leads : fs.Leads dir text) : fs.Meets dir text := by
  rintro first rest rfl noUp k₁ c k₂ q one two enough
  have whole := (Reaches.split_up_iff fs.grounded isDir).mpr ⟨k₁, c, k₂, one, two, rfl⟩
  obtain ⟨k, bound, reaches⟩ := leads (k₁ + k₂) q enough whole
  rw [reaches_normalised_iff noUp] at reaches
  have isDirC := one.isDir_of_up fs.grounded isDir
  have pieces : ∀ piece ∈ rest, piece ≠ Piece.up := List.forall_mem_ne'.mpr noUp
  have names := two.namesOf fs.grounded isDirC pieces
  by_cases none' : namesOf rest = []
  · rw [none'] at names reaches
    rw [List.append_nil] at reaches
    cases names
    exact ⟨k, c, reaches, Or.inl ⟨rfl, bound⟩⟩
  · obtain ⟨k₃, d, k₄, front, isDirD, later, rfl⟩ := reaches.split fs.grounded none' fs.isDirAt_root
    refine ⟨k₃, d, front, ?_⟩
    by_cases same : d = c
    · subst same
      obtain ⟨rfl, _⟩ := later.unique names
      exact Or.inl ⟨rfl, bound⟩
    · refine Or.inr ⟨same, isDirD, k₄, Nat.pos_of_ne_zero fun noLinks => same ?_, bound, later⟩
      -- Without links the two readings would differ as the directories do.
      obtain ⟨rfl, rfl⟩ := Nat.add_eq_zero_iff.mp noLinks
      exact eq_of_normFrom_eq (up_not_mem_namesOf rest) (later.eq_normFrom.symm.trans names.eq_normFrom)

theorem leads_iff_meets (isDir : fs.isDirAt dir = true) : fs.Leads dir text ↔ fs.Meets dir text :=
  ⟨meets_of_leads isDir, leads_of_meets isDir⟩

end FileSystem

end GnomeBuildMeta.Posix
