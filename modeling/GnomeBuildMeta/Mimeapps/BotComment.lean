import GnomeBuildMeta.Mimeapps.Generate
import GnomeBuildMeta.Words.Occurrence

/-!
# ci-bot-comment-mimeapps.py

The bot keeps one note on a merge request up to date with what the merge request
does to the associations.  It goes through the threads in their order and stops
at the first of its notes that is current or unresolved, so that it does not
look at those behind.
-/

namespace GnomeBuildMeta.Mimeapps

/-- The two files that a run is given. -/
structure Diff where
  primary : Text
  override : Text

/-- The first note of a thread. -/
structure Note where
  body : Text
  resolved : Bool
  deriving DecidableEq

inductive Write where
  | save (body : Text)
  | create (body : Text)

def botMarker : Text := "<!-- mimeapps-bot".toList

def overrideOpening : Text :=
  "There are also some mime type associations that would have changed, had the\n".toList ++
    "mime type not been overridden in `files/gnome-mimeapps/quirks.toml`. Please\n".toList ++
    "review these changes to ensure that the manual overrides are not out of date.\n".toList ++
    "\n```patch\n".toList

def overrideComment (diff : Diff) : Text :=
  if 0 < (strip diff.override).length then
    overrideOpening ++ strip diff.override ++ "\n```\n".toList
  else []

def opening : Text :=
  "This merge request changed the contents of GNOME's\n".toList ++
    "[default mimeapps.list](https://gitlab.gnome.org/GNOME/gnome-session/".toList ++
    "-/blob/main/data/gnome-mimeapps.list)!\n".toList ++
    "Please review the following changes to ensure that they make sense.\n\n```patch\n".toList

def closing : Text :=
  "\n\nOnce this MR is merged, the CI pipeline will automatically open an MR against\n".toList ++
    "gnome-session to propagate these changes there\n".toList

def commentText (diff : Diff) : Text :=
  opening ++ strip diff.primary ++ "\n```\n\n".toList ++ overrideComment diff ++ closing

section Bot

-- `hashlib.sha256(text.encode()).hexdigest()`
variable (hexdigest : Text → Text)

def fingerprint (diff : Diff) : Text := hexdigest (commentText diff)

def stamp (diff : Diff) : Text :=
  botMarker ++ [' '] ++ fingerprint hexdigest diff ++ " -->".toList

def botComment (diff : Diff) : Text := stamp hexdigest diff ++ "\n\n".toList ++ commentText diff

/-- The loop over the threads, if it exits the script. -/
def visit (diff : Diff) : List Note → Option (List Note × List Write)
  | [] => none
  | note :: rest =>
      if botMarker <:+: note.body then
        if stamp hexdigest diff <:+: note.body then some (note :: rest, [])
        else if !note.resolved then
          some (⟨botComment hexdigest diff, note.resolved⟩ :: rest, [.save (botComment hexdigest diff)])
        else (visit diff rest).map fun exited => (note :: exited.1, exited.2)
      else (visit diff rest).map fun exited => (note :: exited.1, exited.2)

/-- A run of the bot: the threads that it leaves, and what it has written. -/
def botRun (diff : Diff) (notes : List Note) : List Note × List Write :=
  match visit hexdigest diff notes with
  | some exited => exited
  | none => (notes ++ [⟨botComment hexdigest diff, false⟩], [.create (botComment hexdigest diff)])

/-- What other people begin a thread with. -/
structure Remark where
  body : Text
  plain : ¬ botMarker <:+: body

/-- What happens to the threads of a merge request. -/
inductive Event where
  | run (diff : Diff)
  | resolve (thread : Nat)
  | reopen (thread : Nat)
  | discuss (remark : Remark)

def setResolved (notes : List Note) (thread : Nat) (resolved : Bool) : List Note :=
  notes.modify thread fun note => { note with resolved := resolved }

def happen (notes : List Note) : Event → List Note
  | .run diff => (botRun hexdigest diff notes).1
  | .resolve thread => setResolved notes thread true
  | .reopen thread => setResolved notes thread false
  | .discuss remark => notes ++ [⟨remark.body, false⟩]

/-- The threads of a merge request after what has happened since it was opened. -/
def threadsAfter (events : List Event) : List Note := events.foldl (happen hexdigest) []

/-! ## What a run is to bring about -/

abbrev IsBot (note : Note) : Prop := botMarker <:+: note.body

abbrev Carries (note : Note) (diff : Diff) : Prop := stamp hexdigest diff <:+: note.body

/-- An unresolved note of the bot with the fingerprint of another diff. -/
structure Foreign (diff : Diff) (note : Note) : Prop where
  isBot : IsBot note
  unresolved : note.resolved = false
  another : ∃ other, Carries hexdigest note other ∧
    fingerprint hexdigest other ≠ fingerprint hexdigest diff

structure Settled (diff : Diff) (notes : List Note) : Prop where
  current : ∃ note ∈ notes, IsBot note ∧ Carries hexdigest note diff
  noOther : ∀ note ∈ notes, ¬ Foreign hexdigest diff note

/-- A run settles the threads with at most one write, and leaves settled threads alone. -/
structure Settles (diff : Diff) (notes : List Note) : Prop where
  settled : Settled hexdigest diff (botRun hexdigest diff notes).1
  oneWrite : (botRun hexdigest diff notes).2.length ≤ 1
  noWrite : Settled hexdigest diff notes → (botRun hexdigest diff notes).2 = []

/-! ## Where a run stops -/

/-- The loop exits at a note of the bot that is current or unresolved. -/
def Stops (diff : Diff) (note : Note) : Prop :=
  IsBot note ∧ (Carries hexdigest note diff ∨ note.resolved = false)

structure StopsAt (diff : Diff) (notes front : List Note) (note : Note) (rest : List Note) : Prop where
  split : notes = front ++ note :: rest
  passed : ∀ earlier ∈ front, ¬ Stops hexdigest diff earlier
  stops : Stops hexdigest diff note

/-- The text for a diff carries no other fingerprint than its own. -/
def SelfMarked (diff : Diff) : Prop :=
  ∀ other, stamp hexdigest other <:+: botComment hexdigest diff →
    fingerprint hexdigest other = fingerprint hexdigest diff

/-- No note escapes the run behind the one at which it stops. -/
structure Undisturbed (diff : Diff) (notes : List Note) : Prop where
  behind : ∀ {front note rest}, StopsAt hexdigest diff notes front note rest →
    ∀ later ∈ rest, ¬ Foreign hexdigest diff later
  kept : ∀ {front note rest}, StopsAt hexdigest diff notes front note rest →
    Carries hexdigest note diff → ¬ Foreign hexdigest diff note
  saved : ∀ {front note rest}, StopsAt hexdigest diff notes front note rest →
    ¬ Carries hexdigest note diff → SelfMarked hexdigest diff
  created : (∀ note ∈ notes, ¬ Stops hexdigest diff note) → SelfMarked hexdigest diff

end Bot

variable {hexdigest : Text → Text} {given : Diff → Prop} {diff : Diff}
  {notes front rest : List Note} {note : Note}

theorem stamp_infix_comment (diff : Diff) :
    stamp hexdigest diff <:+: botComment hexdigest diff :=
  ⟨[], "\n\n".toList ++ commentText diff, (List.append_assoc _ _ _).symm⟩

theorem marker_infix_stamp (diff : Diff) : botMarker <:+: stamp hexdigest diff := by
  refine ⟨[], [' '] ++ fingerprint hexdigest diff ++ " -->".toList, ?_⟩
  rw [stamp]
  simp only [List.append_assoc, List.nil_append]

theorem isBot_of_carries (carries : Carries hexdigest note diff) : IsBot note :=
  (marker_infix_stamp diff).trans carries

theorem carries_comment (diff : Diff) (resolved : Bool) :
    Carries hexdigest ⟨botComment hexdigest diff, resolved⟩ diff := stamp_infix_comment diff

theorem foreign_comment_iff :
    Foreign hexdigest diff ⟨botComment hexdigest diff, false⟩ ↔ ¬ SelfMarked hexdigest diff := by
  constructor
  · rintro ⟨_, _, other, carries, differs⟩ selfMarked
    exact differs (selfMarked other carries)
  · intro mixed
    rw [SelfMarked, not_forall] at mixed
    obtain ⟨other, mixed⟩ := mixed
    rw [Classical.not_imp] at mixed
    exact ⟨isBot_of_carries (carries_comment diff false), rfl, other, mixed⟩

/-- A foreign note stops the loop. -/
theorem not_foreign_of_passed (passed : ¬ Stops hexdigest diff note) :
    ¬ Foreign hexdigest diff note :=
  fun foreign => passed ⟨foreign.isBot, Or.inr foreign.unresolved⟩

theorem stopsAt_or_passed (hexdigest : Text → Text) (diff : Diff) (notes : List Note) :
    (∃ front note rest, StopsAt hexdigest diff notes front note rest) ∨
      ∀ note ∈ notes, ¬ Stops hexdigest diff note := by
  induction notes with
  | nil => exact Or.inr (List.forall_mem_nil _)
  | cons first later ih =>
      by_cases stops : Stops hexdigest diff first
      · exact Or.inl ⟨[], first, later, rfl, List.forall_mem_nil _, stops⟩
      · rcases ih with ⟨front, note, rest, rfl, passed, found⟩ | passed
        · exact Or.inl ⟨first :: front, note, rest, rfl, List.forall_mem_cons.mpr ⟨stops, passed⟩, found⟩
        · exact Or.inr (List.forall_mem_cons.mpr ⟨stops, passed⟩)

theorem visit_cons_of_not_stops (passed : ¬ Stops hexdigest diff note) (rest : List Note) :
    visit hexdigest diff (note :: rest) =
      (visit hexdigest diff rest).map fun exited => (note :: exited.1, exited.2) := by
  rw [visit]
  split
  · next isBot =>
    have old : ¬ stamp hexdigest diff <:+: note.body := fun carries => passed ⟨isBot, Or.inl carries⟩
    rw [if_neg old]
    cases resolved : note.resolved with
    | true => rfl
    | false => exact absurd ⟨isBot, Or.inr resolved⟩ passed
  · rfl

theorem visit_of_passed (passed : ∀ note ∈ notes, ¬ Stops hexdigest diff note) :
    visit hexdigest diff notes = none := by
  induction notes with
  | nil => rfl
  | cons first later ih =>
      obtain ⟨here, others⟩ := List.forall_mem_cons.mp passed
      rw [visit_cons_of_not_stops here, ih others]
      rfl

theorem visit_append (passed : ∀ earlier ∈ front, ¬ Stops hexdigest diff earlier) (rest : List Note) :
    visit hexdigest diff (front ++ rest) =
      (visit hexdigest diff rest).map fun exited => (front ++ exited.1, exited.2) := by
  induction front with
  | nil => simp
  | cons first front ih =>
      obtain ⟨here, others⟩ := List.forall_mem_cons.mp passed
      rw [List.cons_append, visit_cons_of_not_stops here, ih others, Option.map_map]
      rfl

theorem botRun_of_passed (passed : ∀ note ∈ notes, ¬ Stops hexdigest diff note) :
    botRun hexdigest diff notes = (notes ++ [⟨botComment hexdigest diff, false⟩],
      [.create (botComment hexdigest diff)]) := by
  rw [botRun, visit_of_passed passed]

theorem StopsAt.botRun_of_carries (at' : StopsAt hexdigest diff notes front note rest)
    (current : Carries hexdigest note diff) : botRun hexdigest diff notes = (notes, []) := by
  have exits : visit hexdigest diff (note :: rest) = some (note :: rest, []) := by
    rw [visit, if_pos (isBot_of_carries current), if_pos current]
  rw [botRun, at'.split, visit_append at'.passed, exits]
  rfl

theorem StopsAt.botRun_of_not_carries (at' : StopsAt hexdigest diff notes front note rest)
    (old : ¬ Carries hexdigest note diff) :
    botRun hexdigest diff notes = (front ++ ⟨botComment hexdigest diff, false⟩ :: rest,
      [.save (botComment hexdigest diff)]) := by
  have unresolved : note.resolved = false := at'.stops.2.resolve_left old
  have exits : visit hexdigest diff (note :: rest) =
      some (⟨botComment hexdigest diff, false⟩ :: rest, [.save (botComment hexdigest diff)]) := by
    rw [visit, if_pos at'.stops.1, if_neg (show ¬ stamp hexdigest diff <:+: note.body from old), unresolved]
    rfl
  rw [botRun, at'.split, visit_append at'.passed, exits]
  rfl

/-- What a run does: nothing, or it updates the note at which it stops, or it creates one. -/
theorem botRun_cases (hexdigest : Text → Text) (diff : Diff) (notes : List Note) :
    (∃ front note rest, StopsAt hexdigest diff notes front note rest ∧ Carries hexdigest note diff ∧
        botRun hexdigest diff notes = (notes, [])) ∨
      (∃ front note rest, StopsAt hexdigest diff notes front note rest ∧
        ¬ Carries hexdigest note diff ∧ botRun hexdigest diff notes =
          (front ++ ⟨botComment hexdigest diff, false⟩ :: rest, [.save (botComment hexdigest diff)])) ∨
      (∀ note ∈ notes, ¬ Stops hexdigest diff note) ∧
        botRun hexdigest diff notes = (notes ++ [⟨botComment hexdigest diff, false⟩],
          [.create (botComment hexdigest diff)]) := by
  rcases stopsAt_or_passed hexdigest diff notes with ⟨front, note, rest, at'⟩ | passed
  · by_cases current : Carries hexdigest note diff
    · exact Or.inl ⟨front, note, rest, at', current, at'.botRun_of_carries current⟩
    · exact Or.inr (Or.inl ⟨front, note, rest, at', current, at'.botRun_of_not_carries current⟩)
  · exact Or.inr (Or.inr ⟨passed, botRun_of_passed passed⟩)

/-! ## A single run -/

theorem botRun_writes (diff : Diff) (notes : List Note) : (botRun hexdigest diff notes).2.length ≤ 1 := by
  rcases botRun_cases hexdigest diff notes with
    ⟨_, _, _, _, _, ran⟩ | ⟨_, _, _, _, _, ran⟩ | ⟨_, ran⟩
  · rw [ran]
    exact Nat.zero_le 1
  · rw [ran]
    exact Nat.le_refl 1
  · rw [ran]
    exact Nat.le_refl 1

theorem botRun_current (diff : Diff) (notes : List Note) :
    ∃ note ∈ (botRun hexdigest diff notes).1, IsBot note ∧ Carries hexdigest note diff := by
  have written : Carries hexdigest ⟨botComment hexdigest diff, false⟩ diff := carries_comment diff false
  rcases botRun_cases hexdigest diff notes with
    ⟨front, note, rest, at', current, ran⟩ | ⟨front, note, rest, at', _, ran⟩ | ⟨_, ran⟩
  · rw [ran, at'.split]
    exact ⟨note, by simp, isBot_of_carries current, current⟩
  · rw [ran]
    exact ⟨_, by simp, isBot_of_carries written, written⟩
  · rw [ran]
    exact ⟨_, by simp, isBot_of_carries written, written⟩

/-- All the notes with the marker are the bot's own, for diffs that it has been given. -/
def Authored (hexdigest : Text → Text) (given : Diff → Prop) (notes : List Note) : Prop :=
  ∀ note ∈ notes, IsBot note → ∃ diff, given diff ∧ note.body = botComment hexdigest diff

theorem stamp_eq_of_fingerprint {diff other : Diff}
    (same : fingerprint hexdigest diff = fingerprint hexdigest other) :
    stamp hexdigest diff = stamp hexdigest other := by
  rw [stamp, stamp, same]

/-- A note of the bot is current, resolved or foreign. -/
theorem Authored.foreign (authored : Authored hexdigest given notes) (inside : note ∈ notes)
    (isBot : IsBot note) (unresolved : note.resolved = false) (old : ¬ Carries hexdigest note diff) :
    Foreign hexdigest diff note := by
  obtain ⟨other, _, body⟩ := authored note inside isBot
  have carries : Carries hexdigest note other := by
    rw [Carries, body]
    exact stamp_infix_comment other
  refine ⟨isBot, unresolved, other, carries, fun same => old ?_⟩
  rw [Carries, ← stamp_eq_of_fingerprint same]
  exact carries

/-- The note that stops the loop among settled threads is current. -/
theorem Authored.botRun_of_settled (authored : Authored hexdigest given notes)
    (settled : Settled hexdigest diff notes) : botRun hexdigest diff notes = (notes, []) := by
  rcases botRun_cases hexdigest diff notes with
    ⟨_, _, _, _, _, ran⟩ | ⟨front, note, rest, at', old, _⟩ | ⟨passed, _⟩
  · exact ran
  · have inside : note ∈ notes := by
      rw [at'.split]
      simp
    exact absurd (authored.foreign inside at'.stops.1 (at'.stops.2.resolve_left old) old)
      (settled.noOther note inside)
  · obtain ⟨note, inside, isBot, current⟩ := settled.current
    exact absurd ⟨isBot, Or.inl current⟩ (passed note inside)

theorem Undisturbed.noOther (undisturbed : Undisturbed hexdigest diff notes) :
    ∀ note ∈ (botRun hexdigest diff notes).1, ¬ Foreign hexdigest diff note := by
  have before : ∀ {front : List Note}, (∀ earlier ∈ front, ¬ Stops hexdigest diff earlier) →
      ∀ earlier ∈ front, ¬ Foreign hexdigest diff earlier := fun passed earlier inside =>
    not_foreign_of_passed (passed earlier inside)
  rcases botRun_cases hexdigest diff notes with
    ⟨front, note, rest, at', current, ran⟩ | ⟨front, note, rest, at', old, ran⟩ | ⟨passed, ran⟩
  · rw [ran, at'.split]
    exact List.forall_mem_append.mpr ⟨before at'.passed,
      List.forall_mem_cons.mpr ⟨undisturbed.kept at' current, undisturbed.behind at'⟩⟩
  · have written := foreign_comment_iff.not_left.mpr (undisturbed.saved at' old)
    rw [ran]
    exact List.forall_mem_append.mpr ⟨before at'.passed,
      List.forall_mem_cons.mpr ⟨written, undisturbed.behind at'⟩⟩
  · have written := foreign_comment_iff.not_left.mpr (undisturbed.created passed)
    rw [ran]
    exact List.forall_mem_append.mpr ⟨before passed, List.forall_mem_singleton.mpr written⟩

theorem undisturbed_of_noOther
    (noOther : ∀ note ∈ (botRun hexdigest diff notes).1, ¬ Foreign hexdigest diff note) :
    Undisturbed hexdigest diff notes where
  behind := by
    intro front note rest at' later inside
    refine noOther later ?_
    by_cases current : Carries hexdigest note diff
    · rw [at'.botRun_of_carries current, at'.split]
      simp [inside]
    · rw [at'.botRun_of_not_carries current]
      simp [inside]
  kept := by
    intro front note rest at' current
    refine noOther note ?_
    rw [at'.botRun_of_carries current, at'.split]
    simp
  saved := by
    intro front note rest at' old
    refine foreign_comment_iff.not_left.mp (noOther _ ?_)
    rw [at'.botRun_of_not_carries old]
    simp
  created := by
    intro passed
    refine foreign_comment_iff.not_left.mp (noOther _ ?_)
    rw [botRun_of_passed passed]
    simp

theorem Authored.settles_iff (authored : Authored hexdigest given notes) :
    Settles hexdigest diff notes ↔ Undisturbed hexdigest diff notes := by
  constructor
  · exact fun settles => undisturbed_of_noOther settles.settled.noOther
  · intro undisturbed
    refine ⟨⟨botRun_current diff notes, undisturbed.noOther⟩, botRun_writes diff notes, fun settled => ?_⟩
    rw [authored.botRun_of_settled settled]

/-! ## The marker in a text -/

/-- What the digest of a text looks like. -/
structure IsHexdigest (hexdigest : Text → Text) : Prop where
  length : ∀ text, (hexdigest text).length = 64
  digits : ∀ text, hexdigest text ⊆ "0123456789abcdef".toList

/-- The marker is not quoted in what has changed. -/
structure Diff.Plain (diff : Diff) : Prop where
  primary : ¬ botMarker <:+: strip diff.primary
  override : ¬ botMarker <:+: strip diff.override

theorem not_marker_append {before after : Text} (first : '<' ∉ before)
    (second : ¬ botMarker <:+: after) : ¬ botMarker <:+: before ++ after := fun occurs =>
  second (Words.infix_of_infix_append first occurs)

theorem not_marker_append_line {before after : Text} (first : ¬ botMarker <:+: before)
    (second : ¬ botMarker <:+: after) : ¬ botMarker <:+: before ++ '\n' :: after := by
  intro occurs
  rcases Words.infix_append_cons (by decide) occurs with early | late
  · exact first early
  · exact second late

theorem not_marker_closing : ¬ botMarker <:+: closing := by
  have plain : '<' ∉ closing := by decide +kernel
  exact fun occurs => plain (occurs.subset List.mem_cons_self)

theorem Diff.Plain.commentText {diff : Diff} (plain : diff.Plain) :
    ¬ botMarker <:+: commentText diff := by
  have tail : ¬ botMarker <:+: overrideComment diff ++ closing := by
    rw [overrideComment]
    split
    · have text : overrideOpening ++ strip diff.override ++ "\n```\n".toList ++ closing =
          overrideOpening ++ (strip diff.override ++ '\n' :: ("```\n".toList ++ closing)) := by
        rw [show "\n```\n".toList = '\n' :: "```\n".toList from rfl]
        simp only [List.append_assoc, List.cons_append]
      rw [text]
      refine not_marker_append (by decide +kernel) (not_marker_append_line plain.override ?_)
      exact not_marker_append (by decide) not_marker_closing
    · exact not_marker_closing
  have text : Mimeapps.commentText diff = opening ++ (strip diff.primary ++
      '\n' :: ("```\n\n".toList ++ (overrideComment diff ++ closing))) := by
    rw [Mimeapps.commentText, show "\n```\n\n".toList = '\n' :: "```\n\n".toList from rfl]
    simp only [List.append_assoc, List.cons_append]
  rw [text]
  refine not_marker_append (by decide +kernel) (not_marker_append_line plain.primary ?_)
  exact not_marker_append (by decide) tail

theorem selfMarked_of_plain (shape : IsHexdigest hexdigest) (plain : diff.Plain) :
    SelfMarked hexdigest diff := by
  intro other occurs
  have oneLine : '\n' ∉ stamp hexdigest other := by
    have digest : '\n' ∉ fingerprint hexdigest other := fun inside =>
      absurd (shape.digits _ inside) (by decide)
    simp only [stamp, List.mem_append, not_or]
    exact ⟨⟨⟨by decide, by decide⟩, digest⟩, by decide⟩
  rcases Words.infix_append_cons oneLine
      (show stamp hexdigest other <:+: stamp hexdigest diff ++ '\n' :: ('\n' :: commentText diff) from
        occurs.trans (by simp [botComment])) with
    inStamp | behind
  · have same : stamp hexdigest other = stamp hexdigest diff := by
      refine inStamp.eq_of_length ?_
      simp only [stamp, fingerprint, List.length_append, shape.length]
    exact List.append_cancel_left (List.append_cancel_right same)
  · change stamp hexdigest other <:+: [] ++ '\n' :: commentText diff at behind
    rcases Words.infix_append_cons oneLine behind with empty | inText
    · have marked := (marker_infix_stamp other).trans empty
      exact absurd (List.infix_nil.mp marked) (by decide)
    · exact absurd ((marker_infix_stamp other).trans inText) plain.commentText

/-! ## What happens on a merge request -/

theorem setResolved_split (notes : List Note) (thread : Nat) (resolved : Bool) :
    setResolved notes thread resolved = notes ∨ ∃ front note rest, notes = front ++ note :: rest ∧
      setResolved notes thread resolved = front ++ { note with resolved := resolved } :: rest := by
  by_cases inside : thread < notes.length
  · obtain ⟨front, note, rest, split, _, modified⟩ :=
      List.exists_of_modify (fun note : Note => { note with resolved := resolved }) inside
    exact Or.inr ⟨front, note, rest, split, modified⟩
  · exact Or.inl (List.modify_eq_self (Nat.le_of_not_lt inside))

theorem Authored.setResolved (authored : Authored hexdigest given notes) (thread : Nat) (resolved : Bool) :
    Authored hexdigest given (setResolved notes thread resolved) := by
  rcases setResolved_split notes thread resolved with same | ⟨front, note, rest, split, changed⟩
  · rw [same]
    exact authored
  · rw [changed]
    rw [split] at authored
    obtain ⟨before, others⟩ := List.forall_mem_append.mp authored
    obtain ⟨here, behind⟩ := List.forall_mem_cons.mp others
    exact List.forall_mem_append.mpr ⟨before, List.forall_mem_cons.mpr ⟨here, behind⟩⟩

theorem Authored.botRun (authored : Authored hexdigest given notes) (now : given diff) :
    Authored hexdigest given (botRun hexdigest diff notes).1 := by
  have written : IsBot ⟨botComment hexdigest diff, false⟩ →
      ∃ other, given other ∧ botComment hexdigest diff = botComment hexdigest other :=
    fun _ => ⟨diff, now, rfl⟩
  rcases botRun_cases hexdigest diff notes with
    ⟨_, _, _, _, _, ran⟩ | ⟨front, note, rest, at', _, ran⟩ | ⟨_, ran⟩
  · rw [ran]
    exact authored
  · rw [ran]
    rw [at'.split] at authored
    obtain ⟨before, others⟩ := List.forall_mem_append.mp authored
    exact List.forall_mem_append.mpr ⟨before,
      List.forall_mem_cons.mpr ⟨written, (List.forall_mem_cons.mp others).2⟩⟩
  · rw [ran]
    exact List.forall_mem_append.mpr ⟨authored, List.forall_mem_singleton.mpr written⟩

theorem Authored.happen (authored : Authored hexdigest given notes) {event : Event}
    (now : ∀ diff, event = .run diff → given diff) :
    Authored hexdigest given (happen hexdigest notes event) := by
  cases event with
  | run diff => exact authored.botRun (now diff rfl)
  | resolve thread => exact authored.setResolved thread true
  | reopen thread => exact authored.setResolved thread false
  | discuss remark =>
      exact List.forall_mem_append.mpr ⟨authored,
        List.forall_mem_singleton.mpr fun isBot => absurd isBot remark.plain⟩

theorem threadsAfter_concat (hexdigest : Text → Text) (events : List Event) (event : Event) :
    threadsAfter hexdigest (events ++ [event]) = happen hexdigest (threadsAfter hexdigest events) event := by
  rw [threadsAfter, List.foldl_append]
  rfl

theorem threadsAfter_run (hexdigest : Text → Text) (events : List Event) (diff : Diff) :
    threadsAfter hexdigest (events ++ [.run diff]) =
      (botRun hexdigest diff (threadsAfter hexdigest events)).1 :=
  threadsAfter_concat hexdigest events (.run diff)

theorem threadsAfter_authored {events : List Event} (runs : ∀ diff, .run diff ∈ events → given diff) :
    Authored hexdigest given (threadsAfter hexdigest events) := by
  induction events using List.reverseRecOn with
  | nil => exact List.forall_mem_nil _
  | append_singleton events event ih =>
      rw [threadsAfter_concat]
      have before := ih fun diff inside => runs diff (List.mem_append_left _ inside)
      exact before.happen fun diff same => runs diff (by simp [same])

/--
In the life of a merge request the bot keeps its notes as they should be if and
only if none of its runs stops in front of an open note with another fingerprint.
-/
theorem runs_settle_iff (hexdigest : Text → Text) (events : List Event) :
    (∀ before diff later, events = before ++ .run diff :: later →
        Settles hexdigest diff (threadsAfter hexdigest before)) ↔
      ∀ before diff later, events = before ++ .run diff :: later →
        Undisturbed hexdigest diff (threadsAfter hexdigest before) := by
  have each : ∀ before diff, Settles hexdigest diff (threadsAfter hexdigest before) ↔
      Undisturbed hexdigest diff (threadsAfter hexdigest before) := by
    intro before diff
    have authored : Authored hexdigest (fun _ => True) (threadsAfter hexdigest before) :=
      threadsAfter_authored fun _ _ => trivial
    exact authored.settles_iff
  simp only [each]

def firstDiff : Diff := ⟨"+a/b=x.desktop\n".toList, []⟩

def secondDiff : Diff := ⟨"+a/b=y.desktop\n".toList, []⟩

/-- The digests of two texts. -/
def sampleDigest (text : Text) : Text :=
  if text = commentText firstDiff then
    "203565a92dbaa668a053f30cf3d0f05ba04a62c89c26b5d1136aa8a1cb63a170".toList
  else if text = commentText secondDiff then
    "c426a4440865de27549b084f790694f05ec8d0a286b95a9080cd65845eff81b1".toList
  else List.replicate 64 '0'

/-- The first note is resolved, and the diff changes and changes back. -/
def changedBack : List Event := [.run firstDiff, .resolve 0, .run secondDiff, .run firstDiff]

theorem sampleDigest_isHexdigest : IsHexdigest sampleDigest where
  length := by
    intro text
    rw [sampleDigest]
    split
    · decide
    · split
      · decide
      · decide
  digits := by
    intro text
    rw [sampleDigest]
    split
    · decide
    · split
      · decide
      · decide

theorem fingerprint_differs :
    fingerprint sampleDigest secondDiff ≠ fingerprint sampleDigest firstDiff := by
  have texts : commentText secondDiff ≠ commentText firstDiff := by
    intro same
    unfold commentText at same
    rw [show overrideComment secondDiff = [] from rfl, show overrideComment firstDiff = [] from rfl] at same
    have whole := List.append_cancel_right (List.append_cancel_right (List.append_cancel_right same))
    exact absurd (List.append_cancel_left whole) (by decide)
  have first : fingerprint sampleDigest firstDiff =
      "203565a92dbaa668a053f30cf3d0f05ba04a62c89c26b5d1136aa8a1cb63a170".toList := by
    rw [fingerprint, sampleDigest, if_pos rfl]
  have second : fingerprint sampleDigest secondDiff =
      "c426a4440865de27549b084f790694f05ec8d0a286b95a9080cd65845eff81b1".toList := by
    rw [fingerprint, sampleDigest, if_neg texts, if_pos rfl]
  rw [first, second]
  decide

theorem firstDiff_plain : firstDiff.Plain := ⟨by decide, by decide⟩

/-- The last run stops at the resolved note and leaves the open one as it is. -/
theorem changedBack_not_settled :
    ¬ ∀ before diff later, changedBack = before ++ .run diff :: later →
      Settles sampleDigest diff (threadsAfter sampleDigest before) := by
  intro settles
  let first (resolved : Bool) : Note := ⟨botComment sampleDigest firstDiff, resolved⟩
  let second : Note := ⟨botComment sampleDigest secondDiff, false⟩
  have begun : threadsAfter sampleDigest [.run firstDiff] = [first false] := by
    refine (threadsAfter_run sampleDigest [] firstDiff).trans ?_
    rw [show threadsAfter sampleDigest [] = [] from rfl, botRun_of_passed (List.forall_mem_nil _)]
    rfl
  have resolved : threadsAfter sampleDigest [.run firstDiff, .resolve 0] = [first true] :=
    (threadsAfter_concat sampleDigest [.run firstDiff] (.resolve 0)).trans
      (congrArg (fun notes => setResolved notes 0 true) begun)
  have created : threadsAfter sampleDigest ([.run firstDiff, .resolve 0] ++ [.run secondDiff]) =
      [first true, second] := by
    have passed : ¬ Stops sampleDigest secondDiff (first true) := by
      rintro ⟨_, carries | unresolved⟩
      · have selfMarked := selfMarked_of_plain sampleDigest_isHexdigest firstDiff_plain
        exact fingerprint_differs (selfMarked secondDiff carries)
      · cases unresolved
    rw [threadsAfter_run, resolved, botRun_of_passed (List.forall_mem_singleton.mpr passed)]
    rfl
  have settled := (settles ([.run firstDiff, .resolve 0] ++ [.run secondDiff]) firstDiff [] rfl).settled
  rw [created] at settled
  have current : Carries sampleDigest (first true) firstDiff := carries_comment firstDiff true
  have stops : StopsAt sampleDigest firstDiff [first true, second] [] (first true) [second] :=
    ⟨rfl, List.forall_mem_nil _, isBot_of_carries current, Or.inl current⟩
  rw [stops.botRun_of_carries current] at settled
  have written : Carries sampleDigest second secondDiff := carries_comment secondDiff false
  exact settled.noOther second (by simp)
    ⟨isBot_of_carries written, rfl, secondDiff, written, fingerprint_differs⟩

/-! ## Nothing is reopened -/

def Open (note : Note) : Prop := IsBot note ∧ note.resolved = false

/-- The bot has one unresolved note at most. -/
def OneOpen (notes : List Note) : Prop := notes.Pairwise fun a b => ¬ (Open a ∧ Open b)

theorem not_open_of_passed (passed : ¬ Stops hexdigest diff note) : ¬ Open note :=
  fun isOpen => passed ⟨isOpen.1, Or.inr isOpen.2⟩

theorem OneOpen.botRun (one : OneOpen notes) : OneOpen (botRun hexdigest diff notes).1 := by
  rcases botRun_cases hexdigest diff notes with
    ⟨_, _, _, _, _, ran⟩ | ⟨front, note, rest, at', old, ran⟩ | ⟨passed, ran⟩
  · rw [ran]
    exact one
  · rw [ran]
    rw [at'.split] at one
    obtain ⟨before, others, _⟩ := List.pairwise_append.mp one
    obtain ⟨alone, behind⟩ := List.pairwise_cons.mp others
    have isOpen : Open note := ⟨at'.stops.1, at'.stops.2.resolve_left old⟩
    refine List.pairwise_append.mpr ⟨before, List.pairwise_cons.mpr ⟨?_, behind⟩, ?_⟩
    · exact fun later inside both => alone later inside ⟨isOpen, both.2⟩
    · exact fun earlier inside later _ both => not_open_of_passed (at'.passed earlier inside) both.1
  · rw [ran]
    refine List.pairwise_append.mpr ⟨one, List.pairwise_singleton _ _, ?_⟩
    exact fun earlier inside later _ both => not_open_of_passed (passed earlier inside) both.1

/-- A run with an unmarked diff, a thread that is resolved, or another discussion. -/
def Event.Quiet : Event → Prop
  | .run diff => diff.Plain
  | .resolve _ => True
  | .reopen _ => False
  | .discuss _ => True

theorem OneOpen.happen (one : OneOpen notes) {event : Event} (quiet : event.Quiet) :
    OneOpen (happen hexdigest notes event) := by
  cases event with
  | run diff => exact one.botRun
  | resolve thread =>
      change OneOpen (Mimeapps.setResolved notes thread true)
      rcases setResolved_split notes thread true with same | ⟨front, note, rest, split, changed⟩
      · rw [same]
        exact one
      · rw [changed]
        rw [split] at one
        obtain ⟨before, others, across⟩ := List.pairwise_append.mp one
        have closed : ¬ Open { note with resolved := true } := fun isOpen => by cases isOpen.2
        refine List.pairwise_append.mpr ⟨before, List.pairwise_cons.mpr ⟨?_, others.of_cons⟩, ?_⟩
        · exact fun later _ both => closed both.1
        · intro earlier inside later place both
          rcases List.mem_cons.mp place with rfl | behind
          · exact closed both.2
          · exact across earlier inside later (List.mem_cons_of_mem _ behind) both
  | reopen thread => exact quiet.elim
  | discuss remark =>
      refine List.pairwise_append.mpr ⟨one, List.pairwise_singleton _ _, ?_⟩
      intro earlier _ later place both
      rw [List.mem_singleton.mp place] at both
      exact remark.plain both.2.1

theorem threadsAfter_oneOpen {events : List Event} (quiet : ∀ event ∈ events, event.Quiet) :
    OneOpen (threadsAfter hexdigest events) := by
  induction events using List.reverseRecOn with
  | nil => exact List.Pairwise.nil
  | append_singleton events event ih =>
      obtain ⟨earlier, now⟩ := List.forall_mem_append.mp quiet
      rw [threadsAfter_concat]
      exact (ih earlier).happen (List.forall_mem_singleton.mp now)

/--
As long as nobody reopens a thread, a run goes wrong only for a diff whose note
has been resolved before.
-/
theorem settles_of_no_reopen (shape : IsHexdigest hexdigest) {events : List Event}
    (quiet : ∀ event ∈ events, event.Quiet) (plain : diff.Plain)
    (fresh : ∀ note ∈ threadsAfter hexdigest events, note.resolved = true →
      ¬ Carries hexdigest note diff) :
    Settles hexdigest diff (threadsAfter hexdigest events) := by
  have authored : Authored hexdigest Diff.Plain (threadsAfter hexdigest events) :=
    threadsAfter_authored fun diff inside => quiet _ inside
  have one : OneOpen (threadsAfter hexdigest events) := threadsAfter_oneOpen quiet
  have unresolved : ∀ {front note rest},
      StopsAt hexdigest diff (threadsAfter hexdigest events) front note rest → Open note := by
    intro front note rest at'
    refine ⟨at'.stops.1, Bool.eq_false_iff.mpr fun resolved => ?_⟩
    rcases at'.stops.2 with current | isOpen
    · exact fresh note (at'.split ▸ by simp) resolved current
    · rw [resolved] at isOpen
      cases isOpen
  refine authored.settles_iff.mpr ⟨?_, ?_, fun _ _ => selfMarked_of_plain shape plain,
    fun _ => selfMarked_of_plain shape plain⟩
  · intro front note rest at' later inside foreign
    rw [at'.split] at one
    obtain ⟨alone, _⟩ := List.pairwise_cons.mp (List.pairwise_append.mp one).2.1
    exact alone later inside ⟨unresolved at', foreign.isBot, foreign.unresolved⟩
  · rintro front note rest at' current ⟨_, _, other, carries, differs⟩
    obtain ⟨author, plainly, body⟩ := authored note (at'.split ▸ by simp) at'.stops.1
    have own := selfMarked_of_plain shape plainly
    rw [Carries, body] at carries current
    exact differs ((own other carries).trans (own diff current).symm)

end GnomeBuildMeta.Mimeapps
