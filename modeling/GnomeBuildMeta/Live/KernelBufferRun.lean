import GnomeBuildMeta.Control.Run
import GnomeBuildMeta.Live.Detection
import GnomeBuildMeta.Live.KernelBuffer
import Mathlib.Data.List.TakeWhile

/-!
# The buffer through a run

On a terminated string `kernel_next_arg` stays in the buffer, leaves the
arguments that the pure functions compute, and comes closer to the terminator.
Only a parameter without a value makes `parse_cmdline` crash.
-/

namespace GnomeBuildMeta.Live.InPlace

open Control

variable {b : Buffer} {p q args fuel : Nat} {before after front text : Text} {c d : Char}

/-! ## Reads and writes -/

theorem load_of_view (view : b.drop p = before ++ c :: after) (here : q = p + before.length) :
    load b q = .ok c := by
  have found : b[q]? = some c := by
    rw [here, ← List.getElem?_drop, view]
    simp
  rw [load, found]

theorem load_head (view : b.drop p = c :: after) : load b p = .ok c :=
  load_of_view (show b.drop p = [] ++ c :: after from view) rfl

theorem store_of_view (view : b.drop p = before ++ c :: after) (here : q = p + before.length) :
    store b q d = .ok (b.set q d) ∧ (b.set q d).drop p = before ++ d :: after := by
  have inside : q < b.length := by
    have lengths := congrArg List.length view
    simp only [List.length_drop, List.length_append, List.length_cons] at lengths
    omega
  refine ⟨if_pos inside, ?_⟩
  rw [List.drop_set, if_neg (by omega), view, here, Nat.add_sub_cancel_left]
  simp

/-- What `eraseQuote` makes of the characters up to the one that it looks at. -/
def erase (front : Text) : Text :=
  if front.getLast? = some '"' then front.dropLast ++ [nul] else front

@[simp]
theorem length_erase (front : Text) : (erase front).length = front.length := by
  rw [erase]
  split
  case isTrue closed =>
    have positive : front ≠ [] := by
      rintro rfl
      cases closed
    have := List.length_pos_iff.mpr positive
    rw [List.length_append, List.length_dropLast, List.length_singleton]
    omega
  case isFalse => rfl

theorem erase_append (before : Text) {front : Text} (proper : front ≠ []) :
    erase (before ++ front) = before ++ erase front := by
  rw [erase, erase, List.getLast?_append_of_ne_nil _ proper]
  split
  · rw [List.dropLast_append_of_ne_nil proper, List.append_assoc]
  · rfl

/-- A terminator in the middle stays what it is. -/
theorem erase_append_nul (before text : Text) :
    erase (before ++ nul :: text) = before ++ nul :: erase text := by
  cases text with
  | nil =>
      rw [erase, List.getLast?_concat]
      exact if_neg (by decide)
  | cons c text =>
      have proper : c :: text ≠ [] := List.cons_ne_nil c text
      have split := erase_append (before ++ [nul]) proper
      rwa [List.append_assoc, List.append_assoc] at split

theorem erase_erase (front : Text) : erase (erase front) = erase front := by
  by_cases closed : front.getLast? = some '"'
  · rw [show erase front = front.dropLast ++ [nul] from if_pos closed, erase, List.getLast?_concat]
    exact if_neg (by decide)
  · rw [show erase front = front from if_neg closed]
    exact if_neg closed

/-- Without its last quote the text is the string that is left. -/
theorem erase_dropQuote (front : Text) : ∃ rest, erase front ++ [nul] = dropQuote front ++ nul :: rest := by
  rw [erase, dropQuote]
  split
  · exact ⟨[nul], by rw [List.append_assoc]; rfl⟩
  · exact ⟨[], rfl⟩

theorem eraseQuote_of_view (view : b.drop args = front ++ after) (proper : front ≠ [])
    (here : q + 1 = args + front.length) :
    ∃ b', eraseQuote b q = .ok b' ∧ b'.drop args = erase front ++ after ∧ b'.length = b.length := by
  have whole : front.dropLast ++ [front.getLast proper] = front := List.dropLast_concat_getLast proper
  have split : b.drop args = front.dropLast ++ front.getLast proper :: after := by
    rw [view, ← List.singleton_append, ← List.append_assoc, whole]
  have here' : q = args + front.dropLast.length := by
    have := List.length_pos_iff.mpr proper
    rw [List.length_dropLast]
    omega
  have last : front.getLast? = some '"' ↔ isQuote (front.getLast proper) = true := by
    rw [List.getLast?_eq_some_getLast proper, Option.some_inj, isQuote, decide_eq_true_iff]
  have read : load b q = .ok (front.getLast proper) := load_of_view split here'
  by_cases quote : isQuote (front.getLast proper) = true
  · obtain ⟨stored, view'⟩ := store_of_view (d := nul) split here'
    refine ⟨b.set q nul, ?_, ?_, List.length_set⟩
    · simpa [eraseQuote, read, quote, bind, Except.bind] using stored
    · rw [view', erase, if_pos (last.mpr quote), List.append_assoc]
      rfl
  · refine ⟨b, ?_, ?_, rfl⟩
    · simp [eraseQuote, read, quote, bind, Except.bind, pure, Except.pure]
    · rw [view, erase, if_neg (mt last.mp quote)]

theorem pred_toNat {i : UInt32} (positive : 0 < i.toNat) : (i - 1).toNat + 1 = i.toNat := by
  have one : (1 : UInt32).toNat = 1 := rfl
  have before : 1 ≤ i := UInt32.le_iff_toNat_le.mpr (by omega)
  rw [UInt32.toNat_sub_of_le _ _ before]
  omega

theorem succ_toNat {i : UInt32} (short : i.toNat + 1 < 2 ^ 32) : (i + 1).toNat = i.toNat + 1 := by
  rw [UInt32.toNat_add, UInt32.toNat_one, Nat.mod_eq_of_lt short]

/-! ## The loops of `kernel_next_arg` -/

theorem equals_concat (seen : Text) (c : Char) : (equals (seen ++ [c])).getD 0 =
    if (equals seen).getD 0 = 0 ∧ c = '=' then seen.length else (equals seen).getD 0 := by
  cases seen with
  | nil => simp [equals]
  | cons first seen =>
      rw [List.cons_append, equals, equals, List.findIdx?_append]
      cases earlier : seen.findIdx? (· = '=') with
      | some i => simp
      | none => by_cases here : c = '=' <;> simp [List.findIdx?_cons, here]

/-- The variables of the loop, when it has seen a part of the argument. -/
structure Scanned (quoted : Bool) (text : Text) (s : Scan) (seen left : Text) : Prop where
  parts : seen ++ left = text
  index : s.i.toNat = seen.length
  equals : s.equals.toNat = (equals seen).getD 0
  same : scan quoted text = (seen ++ (scan s.inQuote left).1, (scan s.inQuote left).2)

/-- What is done for the character at the index. -/
def Scan.next (s : Scan) (c : Char) : Scan where
  i := s.i + 1
  equals := if s.equals = 0 ∧ c = '=' then s.i else s.equals
  inQuote := if isQuote c then !s.inQuote else s.inQuote

theorem scanRound_of_load {s : Scan} (here : load b (args + s.i.toNat) = .ok c) :
    scanRound b args s =
      if c = nul ∨ (isspace c && !s.inQuote) = true then .ok (.inr s) else .ok (.inl (s.next c)) := by
  by_cases isNul : c = nul
  · simp [scanRound, here, isNul, bind, Except.bind, pure, Except.pure]
  · by_cases stops : (isspace c && !s.inQuote) = true <;>
      simp [scanRound, here, isNul, stops, Scan.next, bind, Except.bind, pure, Except.pure]

theorem Scanned.next {quoted : Bool} {s : Scan} {seen left : Text}
    (scanned : Scanned quoted text s seen (c :: left)) (short : text.length < 2 ^ 32)
    (inside : ¬ (isspace c && !s.inQuote) = true) : Scanned quoted text (s.next c) (seen ++ [c]) left where
  parts := by
    rw [← scanned.parts, List.append_assoc]
    rfl
  index := by
    have whole := congrArg List.length scanned.parts
    rw [List.length_append, List.length_cons] at whole
    have index := scanned.index
    rw [Scan.next, succ_toNat (by omega), index, List.length_append, List.length_singleton]
  equals := by
    have none : s.equals = 0 ↔ s.equals.toNat = 0 := by
      rw [← UInt32.toNat_inj, UInt32.toNat_zero]
    rw [Scan.next, equals_concat, ← scanned.index, ← scanned.equals]
    simp only [none]
    split
    · rfl
    · rfl
  same := by
    have same := scanned.same
    rw [scan, if_neg inside] at same
    rw [same, Scan.next, List.append_assoc]
    rfl

theorem scan_ends (view : b.drop args = text ++ [nul]) (noNul : nul ∉ text)
    (short : text.length < 2 ^ 32) (enough : text.length < fuel) (quoted : Bool) :
    ∃ s, whileLoop .unfinished (scanRound b args) fuel ⟨0, 0, quoted⟩ = .ok s ∧
      s.i.toNat = (scan quoted text).1.length ∧
      s.equals.toNat = (equals (scan quoted text).1).getD 0 := by
  refine whileLoop_ends (I := fun s => ∃ seen left, Scanned quoted text s seen left)
    (Q := fun result => ∃ s : Scan, result = .ok s ∧ s.i.toNat = (scan quoted text).1.length ∧
      s.equals.toNat = (equals (scan quoted text).1).getD 0)
    (fun s => text.length - s.i.toNat) ?_ ⟨[], text, rfl, rfl, rfl, rfl⟩ (by simpa using enough)
  rintro s ⟨seen, left, scanned⟩
  have whole := congrArg List.length scanned.parts
  have index := scanned.index
  -- The loop stops where the rest of the argument is empty.
  have stops : (scan s.inQuote left).1 = [] →
      ∃ s' : Scan, Except.ok (ε := Fault) s = .ok s' ∧ s'.i.toNat = (scan quoted text).1.length ∧
        s'.equals.toNat = (equals (scan quoted text).1).getD 0 := by
    intro nothing
    have same := scanned.same
    rw [nothing, List.append_nil] at same
    exact ⟨s, rfl, by rw [same, index], by rw [same, scanned.equals]⟩
  cases left with
  | nil =>
      have here : load b (args + s.i.toNat) = .ok nul := by
        have split : b.drop args = seen ++ nul :: [] := by rw [view, ← scanned.parts, List.append_nil]
        exact load_of_view split (by rw [index])
      rw [scanRound_of_load here, if_pos (Or.inl rfl)]
      exact .leaves (stops rfl)
  | cons c left =>
      have here : load b (args + s.i.toNat) = .ok c := by
        have split : b.drop args = seen ++ c :: (left ++ [nul]) := by
          rw [view, ← scanned.parts, List.append_assoc]
          rfl
        exact load_of_view split (by rw [index])
      have proper : c ≠ nul := by
        rintro rfl
        exact noNul (scanned.parts ▸ List.mem_append_right _ List.mem_cons_self)
      rw [scanRound_of_load here]
      by_cases ends : (isspace c && !s.inQuote) = true
      · rw [if_pos (Or.inr ends)]
        exact .leaves (stops (by rw [scan, if_pos ends]))
      · rw [if_neg (not_or.mpr ⟨proper, ends⟩)]
        have next := scanned.next short ends
        refine .goesOn ⟨_, _, next⟩ ?_
        have index' := next.index
        simp only [List.length_append, List.length_cons, List.length_nil] at index' whole
        omega

theorem skip_ends (view : b.drop args = text ++ [nul]) (noNul : nul ∉ text)
    (enough : text.length < fuel) :
    ∃ next, whileLoop .unfinished (skipRound b) fuel args = .ok next ∧
      b.drop next = text.dropWhile isspace ++ [nul] := by
  have size := congrArg List.length view
  rw [List.length_drop, List.length_append, List.length_singleton] at size
  refine whileLoop_ends (I := fun p => ∃ left, b.drop p = left ++ [nul] ∧ nul ∉ left ∧
      left.dropWhile isspace = text.dropWhile isspace)
    (Q := fun result => ∃ next, result = .ok next ∧ b.drop next = text.dropWhile isspace ++ [nul])
    (fun p => b.length - p - 1) ?_ ⟨text, view, noNul, rfl⟩ (by omega)
  rintro p ⟨left, here, noNul, same⟩
  have size := congrArg List.length here
  rw [List.length_drop, List.length_append, List.length_singleton] at size
  cases left with
  | nil =>
      have read : load b p = .ok nul := load_head here
      rw [show skipRound b p = .ok (.inr p) by simp [skipRound, read, bind, Except.bind]; rfl]
      exact .leaves ⟨p, rfl, by rw [← same]; exact here⟩
  | cons c left =>
      have read : load b p = .ok c := load_head here
      have proper : c ≠ nul := fun isNul => noNul (isNul ▸ List.mem_cons_self)
      by_cases blank : isspace c = true
      · rw [show skipRound b p = .ok (.inl (p + 1)) by
          simp [skipRound, read, proper, blank, bind, Except.bind]; rfl]
        refine .goesOn ⟨left, ?_, fun inside => noNul (List.mem_cons_of_mem _ inside), ?_⟩ ?_
        · rw [← List.drop_drop, here]
          rfl
        · rw [← same, List.dropWhile_cons, if_pos blank]
        · rw [List.length_cons] at size
          omega
      · rw [show skipRound b p = .ok (.inr p) by
          simp [skipRound, read, blank, bind, Except.bind]; rfl]
        refine .leaves ⟨p, rfl, ?_⟩
        rw [← same, List.dropWhile_cons, if_neg blank]
        exact here

/-! ## The strings of an argument -/

/-- The argument in the buffer, after its value has been cut off. -/
def cutFront (arg : Text) : Text :=
  match equals arg with
  | none => arg
  | some i =>
      let val := arg.drop (i + 1)
      arg.take i ++ nul :: if val.head? = some '"' then erase val else val

/-- Where its value starts. -/
def valAt (arg : Text) : Option Nat :=
  (equals arg).map fun i => if (arg.drop (i + 1)).head? = some '"' then i + 2 else i + 1

theorem equals_inside {arg : Text} {i : Nat} (found : equals arg = some i) :
    0 < i ∧ i < arg.length := by
  have parts := congrArg List.length (append_of_equals found)
  simp only [List.length_append, List.length_take, List.length_cons, List.length_drop] at parts
  refine ⟨?_, by omega⟩
  cases arg with
  | nil => cases found
  | cons c arg =>
      obtain ⟨j, _, rfl⟩ := Option.map_eq_some_iff.mp found
      exact Nat.succ_pos j

theorem length_cutFront (arg : Text) : (cutFront arg).length = arg.length := by
  rw [cutFront]
  split
  · rfl
  · next i found =>
    have inside := (equals_inside found).2
    simp only [List.length_append, List.length_take, List.length_cons]
    split <;> simp only [length_erase, List.length_drop] <;> omega

/-- Behind the `=` stands a value, whose quotes are erased, or what ends the argument. -/
theorem value_of_view {s : Scan} {val : Text} (view : b.drop args = front ++ nul :: (val ++ c :: after))
    (closed : c ≠ '"') (index : s.i.toNat = front.length + 1 + val.length) :
    ∃ x b', load b (args + front.length + 1) = .ok x ∧ isQuote x = decide (val.head? = some '"') ∧
      (if isQuote x then eraseQuote b (args + (s.i - 1).toNat) else .ok b) = .ok b' ∧
        b'.drop args = front ++ nul :: ((if val.head? = some '"' then erase val else val) ++ c :: after) ∧
          b'.length = b.length := by
  have next : args + front.length + 1 = args + (front ++ [nul]).length := by
    rw [List.length_append, List.length_singleton, Nat.add_assoc]
  cases val with
  | nil =>
      have split : b.drop args = (front ++ [nul]) ++ c :: after := by simpa using view
      have noQuote : isQuote c = false := by simp [isQuote, closed]
      exact ⟨c, b, load_of_view split next, by rw [noQuote]; rfl, by rw [noQuote]; rfl, view, rfl⟩
  | cons x val =>
      have split : b.drop args = (front ++ [nul]) ++ x :: (val ++ c :: after) := by simpa using view
      have read : load b (args + front.length + 1) = .ok x := load_of_view split next
      have same : isQuote x = decide ((x :: val).head? = some '"') := by simp [isQuote]
      rw [List.length_cons] at index
      by_cases quote : (x :: val).head? = some '"'
      · have last : args + (s.i - 1).toNat + 1 = args + (front ++ nul :: x :: val).length := by
          rw [Nat.add_assoc, pred_toNat (by omega), index, List.length_append, List.length_cons,
            List.length_cons]
          omega
        have whole : b.drop args = (front ++ nul :: x :: val) ++ c :: after := by simpa using view
        obtain ⟨b', erased, view', size⟩ := eraseQuote_of_view whole (by simp) last
        rw [erase_append_nul] at view'
        refine ⟨x, b', read, same, ?_, ?_, size⟩
        · rw [same, decide_eq_true quote]
          exact erased
        · rw [view', if_pos quote, List.append_assoc]
          rfl
      · refine ⟨x, b, read, same, ?_, ?_, rfl⟩
        · rw [same, decide_eq_false quote]
          rfl
        · rw [view, if_neg quote]

theorem cutArg_of_view {s : Scan} {arg : Text} (view : b.drop args = arg ++ c :: after)
    (closed : c ≠ '"') (index : s.i.toNat = arg.length)
    (found : s.equals.toNat = (equals arg).getD 0) :
    ∃ b', cutArg b args s = .ok (b', (valAt arg).map (args + ·)) ∧
      b'.drop args = cutFront arg ++ c :: after ∧ b'.length = b.length := by
  cases isEquals : equals arg with
  | none =>
      have zero : s.equals = 0 := by
        rw [← UInt32.toNat_inj, found, isEquals]
        rfl
      exact ⟨b, by simp [cutArg, zero, valAt, isEquals, pure, Except.pure],
        by rw [cutFront, isEquals]; exact view, rfl⟩
  | some i =>
      obtain ⟨positive, inside⟩ := equals_inside isEquals
      rw [isEquals, Option.getD_some] at found
      have proper : s.equals ≠ 0 := by
        intro zero
        rw [zero, UInt32.toNat_zero] at found
        omega
      have length : (arg.take i).length = i := List.length_take_of_le inside.le
      have parts : b.drop args = arg.take i ++ '=' :: (arg.drop (i + 1) ++ c :: after) := by
        rw [view]
        conv => lhs; rw [← append_of_equals isEquals]
        rw [List.append_assoc]
        rfl
      obtain ⟨stored, view'⟩ := store_of_view (q := args + i) (d := nul) parts (by rw [length])
      have index' : s.i.toNat = (arg.take i).length + 1 + (arg.drop (i + 1)).length := by
        rw [index, length, List.length_drop]
        omega
      obtain ⟨x, b', read, same, edited, view'', size⟩ := value_of_view view' closed index'
      rw [length] at read
      refine ⟨b', ?_, ?_, size.trans List.length_set⟩
      · rw [cutArg, if_neg proper, found, stored]
        refine bind_ok_iff.mpr ⟨_, rfl, bind_ok_iff.mpr ⟨x, read, ?_⟩⟩
        rw [valAt, isEquals, Option.map_some, Option.map_some]
        by_cases quote : (arg.drop (i + 1)).head? = some '"'
        · rw [same, decide_eq_true quote, if_pos rfl] at edited ⊢
          rw [if_pos quote]
          exact bind_ok_iff.mpr ⟨b', edited, rfl⟩
        · rw [same, decide_eq_false quote, if_neg Bool.false_ne_true] at edited ⊢
          cases edited
          rw [if_neg quote]
          rfl
      · rw [view'', cutFront, isEquals, List.append_assoc]
        rfl

def StringAt (b : Buffer) (p : Nat) (text : Text) : Prop := ∃ after, b.drop p = text ++ nul :: after

/-- A pointer to a string, or a null pointer where there is none. -/
inductive Points (b : Buffer) : Option Nat → Option Text → Prop where
  | null : Points b none none
  | string {p : Nat} {text : Text} (starts : StringAt b p text) : Points b (some p) (some text)

/-- The argument in the buffer, when all of its quotes are taken away. -/
def frontOf (quoted : Bool) (arg : Text) : Text :=
  if quoted then erase (cutFront arg) else cutFront arg

/-- The characters of an argument hold the strings that it is divided into. -/
theorem divide_strings (quoted : Bool) (arg : Text) :
    StringAt (frontOf quoted arg ++ [nul]) 0 (divide quoted arg).1 ∧
      Points (frontOf quoted arg ++ [nul]) (valAt arg) (divide quoted arg).2 := by
  cases isEquals : equals arg with
  | none =>
      rw [frontOf, cutFront, divide, valAt, isEquals]
      refine ⟨?_, .null⟩
      cases quoted
      · exact ⟨[], rfl⟩
      · exact erase_dropQuote arg
  | some i =>
      have length : (arg.take i).length = i := List.length_take_of_le (equals_inside isEquals).2.le
      have shape : frontOf quoted arg = arg.take i ++ nul ::
          if (arg.drop (i + 1)).head? = some '"' ∨ quoted = true then erase (arg.drop (i + 1))
          else arg.drop (i + 1) := by
        rw [frontOf, cutFront, isEquals]
        simp only
        generalize arg.drop (i + 1) = val
        by_cases opened : val.head? = some '"' <;> cases quoted <;>
          simp [opened, erase_append_nul, erase_erase]
      rw [shape, divide, valAt, isEquals]
      refine ⟨⟨_, by rw [List.append_assoc]; rfl⟩, .string ?_⟩
      simp only
      generalize arg.drop (i + 1) = val
      have behind : ∀ rest : Text, (arg.take i ++ nul :: rest ++ [nul]).drop (i + 1) = rest ++ [nul] := by
        intro rest
        rw [List.append_assoc, ← List.drop_drop, List.drop_left' length]
        rfl
      by_cases opened : val.head? = some '"'
      · obtain ⟨rest, rfl⟩ : ∃ rest, val = '"' :: rest := ⟨val.tail, (List.cons_head?_tail opened).symm⟩
        rw [if_pos opened, if_pos (Or.inl opened), if_pos opened, StringAt,
          show i + 2 = i + 1 + 1 from rfl, ← List.drop_drop, behind]
        cases rest with
        | nil => exact ⟨[], rfl⟩
        | cons c rest =>
            rw [← List.singleton_append, erase_append _ (List.cons_ne_nil c rest)]
            exact erase_dropQuote (c :: rest)
      · rw [if_neg opened, if_neg opened, StringAt, behind]
        cases quoted
        · rw [if_neg (not_or.mpr ⟨opened, Bool.false_ne_true⟩)]
          exact ⟨[], rfl⟩
        · rw [if_pos (Or.inr rfl)]
          exact erase_dropQuote val

theorem StringAt.shift {k : Nat} (view : b.drop args = front ++ nul :: after)
    (starts : StringAt (front ++ [nul]) k text) : StringAt b (args + k) text := by
  obtain ⟨rest, here⟩ := starts
  have inside : k ≤ (front ++ [nul]).length := by
    have lengths := congrArg List.length here
    simp only [List.length_drop, List.length_append, List.length_cons] at lengths
    simp only [List.length_append, List.length_cons]
    omega
  refine ⟨rest ++ after, ?_⟩
  have split : b.drop args = front ++ [nul] ++ after := by
    rw [view, List.append_assoc]
    rfl
  rw [← List.drop_drop, split, List.drop_append_of_le_length inside, here, List.append_assoc]
  rfl

theorem Points.shift {p : Option Nat} {string : Option Text} (view : b.drop args = front ++ nul :: after)
    (points : Points (front ++ [nul]) p string) : Points b (p.map (args + ·)) string := by
  cases points with
  | null => exact .null
  | string starts => exact .string (starts.shift view)

/-- Every character of the strings is one of the argument. -/
theorem mem_divide {quoted : Bool} {arg : Text} :
    (∀ c ∈ (divide quoted arg).1, c ∈ arg) ∧
      ∀ val, (divide quoted arg).2 = some val → ∀ c ∈ val, c ∈ arg := by
  have quote : ∀ text : Text, ∀ c ∈ dropQuote text, c ∈ text := by
    intro text c member
    rw [dropQuote] at member
    split at member
    · exact (List.dropLast_sublist text).subset member
    · exact member
  rw [divide]
  split
  · refine ⟨fun c member => ?_, fun val impossible => ?_⟩
    · cases quoted
      · exact member
      · exact quote _ c member
    · cases impossible
  · next i _ =>
    refine ⟨fun c member => List.mem_of_mem_take member, fun val same c member => ?_⟩
    cases same
    apply List.mem_of_mem_drop (i := i + 1)
    split at member
    · exact List.mem_of_mem_tail (quote _ c member)
    · split at member
      · exact quote _ c member
      · exact member

/-! ## `kernel_next_arg` -/

/-- The buffer ends with the terminator of a string that starts at the place. -/
structure Terminated (b : Buffer) (p : Nat) (text : Text) : Prop where
  view : b.drop p = text ++ [nul]
  noNul : nul ∉ text

theorem Terminated.size (terminated : Terminated b p text) : p + text.length + 1 = b.length := by
  have lengths := congrArg List.length terminated.view
  rw [List.length_drop, List.length_append, List.length_singleton] at lengths
  omega

/-- The call has the strings and the rest that the pure function computes. -/
structure Computes (b : Buffer) (next : Next) (arg : Arg) : Prop where
  param : StringAt next.buffer next.param arg.param
  val : Points next.buffer next.val arg.val
  rest : Terminated next.buffer next.args arg.rest
  size : next.buffer.length = b.length
  noNul : nul ∉ arg.param ∧ ∀ val, arg.val = some val → nul ∉ val

theorem unquote_of_view {s : Scan} {arg : Text} (quoted : Bool) (view : b.drop args = cutFront arg ++ after)
    (index : s.i.toNat = arg.length) :
    ∃ b', unquote quoted b args s = .ok b' ∧ b'.drop args = frontOf quoted arg ++ after ∧
      b'.length = b.length := by
  have positive : 0 < s.i ↔ 0 < arg.length := by
    rw [UInt32.lt_iff_toNat_lt, UInt32.toNat_zero, index]
  by_cases erases : quoted = true ∧ 0 < s.i
  · have proper : cutFront arg ≠ [] := by
      rw [← List.length_pos_iff, length_cutFront]
      exact positive.mp erases.2
    have last : args + (s.i - 1).toNat + 1 = args + (cutFront arg).length := by
      rw [Nat.add_assoc, pred_toNat (by rw [index]; exact positive.mp erases.2), index, length_cutFront]
    rw [unquote, if_pos erases, frontOf, if_pos erases.1]
    exact eraseQuote_of_view view proper last
  · rw [unquote, if_neg erases]
    refine ⟨b, rfl, ?_, rfl⟩
    rw [view, frontOf]
    split
    · next isQuoted =>
      have nothing : arg = [] := by
        rw [← List.length_eq_zero_iff]
        have none : ¬ 0 < arg.length := fun some => erases ⟨isQuoted, positive.mpr some⟩
        omega
      rw [nothing]
      rfl
    · rfl

theorem closeArg_of_view {s : Scan} {left : Text} (view : b.drop args = front ++ (left ++ [nul]))
    (index : s.i.toNat = front.length) (short : front.length + 1 < 2 ^ 32) (noNul : nul ∉ left) :
    ∃ b' next, closeArg b args s = .ok (b', next) ∧ (∃ after, b'.drop args = front ++ nul :: after) ∧
      b'.drop next = left.tail ++ [nul] ∧ b'.length = b.length := by
  cases left with
  | nil =>
      have read : load b (args + s.i.toNat) = .ok nul := load_of_view view (by rw [index])
      refine ⟨b, _, bind_ok_iff.mpr ⟨_, read, rfl⟩, ⟨[], view⟩, ?_, rfl⟩
      rw [← List.drop_drop, view, List.drop_left' index.symm]
      rfl
  | cons c left =>
      have read : load b (args + s.i.toNat) = .ok c := load_of_view view (by rw [index])
      have proper : c ≠ nul := fun isNul => noNul (isNul ▸ List.mem_cons_self)
      obtain ⟨stored, view'⟩ := store_of_view (q := args + s.i.toNat) (d := nul) view (by rw [index])
      refine ⟨_, args + (s.i + 1).toNat, bind_ok_iff.mpr ⟨_, read, ?_⟩, ⟨_, view'⟩, ?_, List.length_set⟩
      · rw [if_pos proper]
        exact bind_ok_iff.mpr ⟨_, stored, rfl⟩
      · rw [succ_toNat (by rw [index]; exact short), ← List.drop_drop, view', ← List.drop_drop,
          List.drop_left' index.symm]
        rfl

/-- Behind an argument stands a blank. -/
theorem isspace_of_scan {quoted : Bool} {left : Text} (behind : (scan quoted text).2 = c :: left) :
    isspace c = true := by
  induction text generalizing quoted with
  | nil => cases behind
  | cons x text ih =>
      rw [scan] at behind
      split at behind
      · next stops =>
        cases behind
        exact (Bool.and_eq_true_iff.mp stops).1
      · exact ih behind

/-- All that is written once the argument is known. -/
theorem divide_of_view {s : Scan} {arg left : Text} (quoted : Bool)
    (view : b.drop args = arg ++ (left ++ [nul])) (index : s.i.toNat = arg.length)
    (found : s.equals.toNat = (equals arg).getD 0) (short : arg.length + 1 < 2 ^ 32)
    (noNul : nul ∉ left) (blank : ∀ x after, left = x :: after → isspace x = true) :
    ∃ b₁ b₂ b₃ next, cutArg b args s = .ok (b₁, (valAt arg).map (args + ·)) ∧
      unquote quoted b₁ args s = .ok b₂ ∧ closeArg b₂ args s = .ok (b₃, next) ∧
      b₃.drop next = left.tail ++ [nul] ∧ StringAt b₃ args (divide quoted arg).1 ∧
      Points b₃ ((valAt arg).map (args + ·)) (divide quoted arg).2 ∧ b₃.length = b.length := by
  obtain ⟨e, after, split, closed⟩ : ∃ e after, left ++ [nul] = e :: after ∧ e ≠ '"' := by
    cases left with
    | nil => exact ⟨nul, [], rfl, by decide⟩
    | cons x left =>
        refine ⟨x, left ++ [nul], rfl, ?_⟩
        rintro rfl
        exact absurd (blank _ _ rfl) (by decide)
  rw [split] at view
  obtain ⟨b₁, cut, view₁, size₁⟩ := cutArg_of_view view closed index found
  obtain ⟨b₂, unquoted, view₂, size₂⟩ := unquote_of_view quoted view₁ index
  have length : (frontOf quoted arg).length = arg.length := by
    rw [frontOf]
    split <;> simp [length_cutFront]
  rw [← split] at view₂
  obtain ⟨b₃, next, closing, ⟨rest, view₃⟩, behind, size₃⟩ :=
    closeArg_of_view view₂ (index.trans length.symm) (by omega) noNul
  obtain ⟨param, val⟩ := divide_strings quoted arg
  exact ⟨b₁, b₂, b₃, next, cut, unquoted, closing, behind, param.shift view₃, val.shift view₃,
    size₃.trans (size₂.trans size₁)⟩

theorem kernelNextArg_spec (terminated : Terminated b p text) (proper : text ≠ [])
    (short : text.length < 2 ^ 31) (enough : text.length < fuel) :
    ∃ next, kernelNextArg fuel b p = .ok next ∧ Computes b next (Live.kernelNextArg text) := by
  obtain ⟨c, rest, rfl⟩ := List.exists_cons_of_ne_nil proper
  have read : load b p = .ok c := load_head terminated.view
  -- The body is what the loop runs over.
  obtain ⟨body, isBody⟩ : ∃ body, body = if isQuote c then rest else c :: rest := ⟨_, rfl⟩
  have pureArg : Live.kernelNextArg (c :: rest) =
      ⟨(divide (isQuote c) (scan (isQuote c) body).1).1, (divide (isQuote c) (scan (isQuote c) body).1).2,
        (scan (isQuote c) body).2.tail.dropWhile isspace⟩ := by
    have quoted : decide ((c :: rest).head? = some '"') = isQuote c := by simp [isQuote]
    rw [Live.kernelNextArg, quoted, isBody]
    rfl
  have bodyView : b.drop (if isQuote c then p + 1 else p) = body ++ [nul] := by
    rw [isBody]
    split
    · rw [← List.drop_drop, terminated.view]
      rfl
    · exact terminated.view
  have inside : ∀ x ∈ body, x ∈ c :: rest := by
    intro x member
    rw [isBody] at member
    split at member
    · exact List.mem_cons_of_mem _ member
    · exact member
  have shorter : body.length ≤ (c :: rest).length := by
    rw [isBody]
    split
    · exact Nat.le_succ _
    · exact Nat.le_refl _
  obtain ⟨s, loop, index, found⟩ := scan_ends bodyView (fun isNul => terminated.noNul (inside _ isNul))
    (by omega) (Nat.lt_of_le_of_lt shorter enough) (isQuote c)
  have parts := scan_append (isQuote c) body
  have blank : ∀ x left, (scan (isQuote c) body).2 = x :: left → isspace x = true :=
    fun x left behind => isspace_of_scan behind
  have divided := @mem_divide (isQuote c) (scan (isQuote c) body).1
  have strings := divide_strings (isQuote c) (scan (isQuote c) body).1
  rw [pureArg]
  generalize scan (isQuote c) body = pieces at index found parts blank divided strings
  obtain ⟨arg, left⟩ := pieces
  have lengths : arg.length + left.length = body.length := by
    rw [← parts, List.length_append]
  rw [← parts, List.append_assoc] at bodyView
  have noNul : nul ∉ left := fun isNul =>
    terminated.noNul (inside _ (parts ▸ List.mem_append_right _ isNul))
  have outside : nul ∉ arg := fun isNul =>
    terminated.noNul (inside _ (parts ▸ List.mem_append_left _ isNul))
  obtain ⟨b₁, b₂, b₃, next, cut, unquoted, closing, behind, param, val, size⟩ :=
    divide_of_view (isQuote c) bodyView index found (show arg.length + 1 < 2 ^ 32 by omega) noNul blank
  have noNul' : nul ∉ left.tail := fun isNul => noNul (List.mem_of_mem_tail isNul)
  have enough' : left.tail.length < fuel := by
    rw [List.length_tail]
    omega
  obtain ⟨skipped, skip, rest⟩ := skip_ends behind noNul' enough'
  refine ⟨⟨b₃, _, _, skipped⟩, bind_ok_iff.mpr ⟨_, read, bind_ok_iff.mpr ⟨_, loop, bind_ok_iff.mpr
    ⟨_, cut, bind_ok_iff.mpr ⟨_, unquoted, bind_ok_iff.mpr ⟨_, closing,
      bind_ok_iff.mpr ⟨_, skip, rfl⟩⟩⟩⟩⟩⟩, param, val, ⟨rest, ?_⟩, size, ?_, ?_⟩
  · exact fun isNul => noNul' ((List.dropWhile_sublist _).subset isNul)
  · exact fun isNul => outside (divided.1 nul isNul)
  · exact fun val same isNul => outside (divided.2 val same nul isNul)

/-! ## `parse_cmdline` -/

/-- Where the pure functions have no result, a null pointer is compared. -/
def orNull {α : Type} : Option α → Except Fault α
  | none => .error .null
  | some a => .ok a

theorem equalFrom_of_string {wanted : Text} (starts : StringAt b p text) (noNul : nul ∉ text)
    (plain : nul ∉ wanted) : equalFrom b p wanted = .ok (decide (text = wanted)) := by
  induction wanted generalizing p text with
  | nil =>
      obtain ⟨after, view⟩ := starts
      cases text with
      | nil =>
          rw [equalFrom, load_head view]
          rfl
      | cons c text =>
          have proper : c ≠ nul := fun isNul => noNul (isNul ▸ List.mem_cons_self)
          rw [equalFrom, load_head view]
          simp [bind, Except.bind, pure, Except.pure, proper]
  | cons w wanted ih =>
      obtain ⟨after, view⟩ := starts
      cases text with
      | nil =>
          have proper : nul ≠ w := fun isNul => plain (isNul ▸ List.mem_cons_self)
          rw [equalFrom, load_head view]
          simp [bind, Except.bind, pure, Except.pure, proper]
      | cons c text =>
          have later : StringAt b (p + 1) text := ⟨after, by rw [← List.drop_drop, view]; rfl⟩
          have rest := ih later (fun isNul => noNul (List.mem_cons_of_mem _ isNul))
            (fun isNul => plain (List.mem_cons_of_mem _ isNul))
          rw [equalFrom, load_head view]
          by_cases same : c = w <;> simp [bind, Except.bind, pure, Except.pure, same, rest]

theorem setting_eq {next : Next} {arg : Arg} (computes : Computes b next arg) (name expected : Text)
    (plainName : nul ∉ name) (plain : nul ∉ expected) :
    setting next name expected = orNull (Live.setting arg.param arg.val name expected) := by
  obtain ⟨noNulParam, noNulVal⟩ := computes.noNul
  rw [setting, sameText, equalFrom_of_string computes.param noNulParam plainName, Live.setting]
  by_cases same : arg.param = name
  · rw [if_pos same, decide_eq_true same]
    change sameText next.buffer next.val expected = _
    have points := computes.val
    revert points noNulVal
    generalize next.val = pointer, arg.val = val
    intro noNulVal points
    cases points with
    | null => rfl
    | string starts => exact equalFrom_of_string starts (noNulVal _ rfl) plain
  · rw [if_neg same, decide_eq_false same]
    rfl

theorem parseRound_of_nil {s : Parsing} (terminated : Terminated s.buffer s.current []) :
    parseRound fuel s = .ok (.inr s.flags) := by
  rw [parseRound, load_head terminated.view]
  rfl

theorem parseRound_eq {s : Parsing} (terminated : Terminated s.buffer s.current text)
    (proper : text ≠ []) (short : text.length < 2 ^ 31) (enough : text.length < fuel) :
    ∃ next, kernelNextArg fuel s.buffer s.current = .ok next ∧
      Computes s.buffer next (Live.kernelNextArg text) ∧
      parseRound fuel s = orNull ((parseArg (Live.kernelNextArg text).param
        (Live.kernelNextArg text).val s.flags).map fun flags => .inl ⟨next.buffer, next.args, flags⟩) := by
  obtain ⟨next, called, computes⟩ := kernelNextArg_spec terminated proper short enough
  refine ⟨next, called, computes, ?_⟩
  obtain ⟨c, rest, rfl⟩ := List.exists_cons_of_ne_nil proper
  have notNul : c ≠ nul := fun isNul => terminated.noNul (isNul ▸ List.mem_cons_self)
  have live := setting_eq computes "root".toList "live:gnomeos".toList
    (by decide) (by decide)
  have safe := setting_eq computes "gnomeos.safe-mode".toList ['1']
    (by decide) (by decide)
  have nvidia := setting_eq computes "gnomeos.nvidia-mode".toList ['1']
    (by decide) (by decide)
  rw [parseRound, load_head terminated.view, parseArg]
  simp only [bind, Except.bind, if_neg notNul, called, live, safe, nvidia]
  cases Live.setting _ _ "root".toList "live:gnomeos".toList with
  | none => rfl
  | some live =>
      cases Live.setting _ _ "gnomeos.safe-mode".toList ['1'] with
      | none => rfl
      | some safe =>
          cases Live.setting _ _ "gnomeos.nvidia-mode".toList ['1'] with
          | none => rfl
          | some nvidia => rfl

/-- The state of the loop, with the text that is left. -/
structure Left (s : Parsing) (size : Nat) (text : Text) : Prop where
  terminated : Terminated s.buffer s.current text
  size : s.buffer.length = size

theorem Left.next {s : Parsing} {size : Nat} {next : Next} {flags : Flags} (left : Left s size text)
    (computes : Computes s.buffer next (Live.kernelNextArg text)) :
    Left ⟨next.buffer, next.args, flags⟩ size (Live.kernelNextArg text).rest :=
  ⟨computes.rest, computes.size.trans left.size⟩

/-- The loop gives what the pure one gives. -/
theorem parse_eq {s : Parsing} {size : Nat} (left : Left s size text) (short : size ≤ 2 ^ 31)
    (enough : size < fuel) :
    whileLoop .unfinished (parseRound fuel) fuel s = orNull (parseFrom text s.flags) := by
  refine whileLoop_ends (I := fun s' => ∃ text', Left s' size text' ∧
      parseFrom text' s'.flags = parseFrom text s.flags)
    (Q := fun result => result = orNull (parseFrom text s.flags)) (fun s' => size - s'.current) ?_
    ⟨text, left, rfl⟩ (by omega)
  rintro s' ⟨text', left', same⟩
  have position := left'.terminated.size
  have size' := left'.size
  by_cases empty : text' = []
  · rw [empty] at left' same
    rw [parseRound_of_nil left'.terminated]
    refine .leaves ?_
    rw [← same, parseFrom, if_pos rfl]
    rfl
  · obtain ⟨next, _, computes, round⟩ := parseRound_eq left'.terminated empty (by omega)
      (by omega : text'.length < fuel)
    rw [parseFrom, if_neg empty] at same
    simp only at same
    rw [round]
    cases parsed : parseArg (Live.kernelNextArg text').param (Live.kernelNextArg text').val s'.flags with
    | none =>
        rw [parsed] at same
        refine .fails ?_
        rw [← same]
        rfl
    | some flags =>
        rw [parsed] at same
        refine .goesOn ⟨_, left'.next computes, same⟩ ?_
        have nearer := length_rest_lt empty
        have position' := computes.rest.size
        rw [computes.size] at position'
        simp only
        omega

/-! ## Parameters without a value -/

/-- The parameters whose values are compared. -/
def comparedNames : List Text :=
  ["root".toList, "gnomeos.safe-mode".toList, "gnomeos.nvidia-mode".toList]

/-- The ways to write a parameter without a value. -/
def bare (name : Text) : List Text := [name, '"' :: name, '"' :: (name ++ ['"'])]

theorem equals_quote {name : Text} (proper : name ≠ []) (noEquals : equals name = none) :
    equals (name ++ ['"']) = none := by
  obtain ⟨c, rest, rfl⟩ := List.exists_cons_of_ne_nil proper
  rw [equals, Option.map_eq_none_iff] at noEquals
  rw [List.cons_append, equals, List.findIdx?_append, noEquals]
  rfl

theorem readArg_bare_iff {raw name : Text} (proper : name ≠ []) (noEquals : equals name = none)
    (first : name.head? ≠ some '"') (last : name.getLast? ≠ some '"') :
    readArg raw = (name, none) ↔ raw ∈ bare name := by
  have divided : ∀ quoted arg, divide quoted arg = (name, none) ↔
      equals arg = none ∧ (if quoted then dropQuote arg else arg) = name := by
    intro quoted arg
    rw [divide]
    cases equals arg <;> simp
  rw [readArg, divided, bare, List.mem_cons, List.mem_cons, List.mem_singleton]
  by_cases quoted : raw.head? = some '"'
  · obtain ⟨rest, rfl⟩ : ∃ rest, raw = '"' :: rest := ⟨raw.tail, (List.cons_head?_tail quoted).symm⟩
    rw [if_pos quoted, decide_eq_true quoted, if_pos rfl, dropQuote_eq_iff last, List.tail_cons,
      List.cons_inj_right, List.cons_inj_right]
    constructor
    · rintro ⟨_, spelling⟩
      exact Or.inr spelling
    · rintro (same | rfl | rfl)
      · exact absurd (same ▸ quoted) first
      · exact ⟨noEquals, Or.inl rfl⟩
      · exact ⟨equals_quote proper noEquals, Or.inr rfl⟩
  · rw [if_neg quoted, decide_eq_false quoted, if_neg Bool.false_ne_true]
    constructor
    · rintro ⟨_, same⟩
      exact Or.inl same
    · rintro (rfl | rfl | rfl)
      · exact ⟨noEquals, rfl⟩
      · exact absurd rfl quoted
      · exact absurd rfl quoted

theorem parseArg_eq_none_iff {param : Text} {val : Option Text} {flags : Flags} :
    parseArg param val flags = none ↔ val = none ∧ param ∈ comparedNames := by
  have compared : ∀ name expected,
      Live.setting param val name expected = none ↔ param = name ∧ val = none := by
    intro name expected
    rw [Live.setting]
    split
    · next same => simp [same]
    · next other => simp [other]
  have parts : parseArg param val flags = none ↔
      Live.setting param val "root".toList "live:gnomeos".toList = none ∨
        Live.setting param val "gnomeos.safe-mode".toList ['1'] = none ∨
          Live.setting param val "gnomeos.nvidia-mode".toList ['1'] = none := by
    rw [parseArg]
    cases Live.setting param val "root".toList "live:gnomeos".toList with
    | none => simp
    | some live =>
        cases Live.setting param val "gnomeos.safe-mode".toList ['1'] with
        | none => simp
        | some safe =>
            cases Live.setting param val "gnomeos.nvidia-mode".toList ['1'] <;> simp
  rw [parts, compared, compared, compared, comparedNames, List.mem_cons, List.mem_cons,
    List.mem_singleton, ← or_and_right, ← or_and_right, and_comm]

theorem parseRaw_eq_none_iff (flags : Flags) {raw : Text} :
    parseRaw flags raw = none ↔ ∃ name ∈ comparedNames, raw ∈ bare name := by
  have plain : ∀ name ∈ comparedNames, name ≠ [] ∧ equals name = none ∧ name.head? ≠ some '"' ∧
      name.getLast? ≠ some '"' := by decide
  rw [parseRaw, parseArg_eq_none_iff]
  constructor
  · rintro ⟨noVal, listed⟩
    obtain ⟨proper, noEquals, first, last⟩ := plain _ listed
    exact ⟨_, listed, (readArg_bare_iff proper noEquals first last).mp (Prod.ext rfl noVal)⟩
  · rintro ⟨name, listed, spelling⟩
    obtain ⟨proper, noEquals, first, last⟩ := plain _ listed
    rw [(readArg_bare_iff proper noEquals first last).mpr spelling]
    exact ⟨rfl, listed⟩

theorem foldlM_eq_none_iff (raws : List Text) (flags : Flags) :
    raws.foldlM parseRaw flags = none ↔ ∃ raw ∈ raws, ∃ name ∈ comparedNames, raw ∈ bare name := by
  induction raws generalizing flags with
  | nil => simp [pure]
  | cons raw raws ih =>
      rw [List.foldlM_cons, List.exists_mem_cons_iff, ← parseRaw_eq_none_iff flags]
      cases parsed : parseRaw flags raw with
      | none => simp
      | some flags' => simpa using ih flags'

/-! ## Whole runs -/

/-- The command line, without what stands behind a terminator in it. -/
def cmdlineOf (contents : Contents) : Text := contents.bytes.takeWhile (· ≠ nul)

theorem length_cmdlineOf (contents : Contents) : (cmdlineOf contents).length ≤ 0x7ffff000 :=
  Nat.le_trans (List.takeWhile_prefix _).length_le contents.short

theorem start_left (contents : Contents) :
    Left (.start contents) ((cmdlineOf contents).length + 1) (cmdlineOf contents) := by
  have copied : kernelCmdline contents = cmdlineOf contents ++ [nul] := by
    rw [kernelCmdline, cmdlineOf, List.takeWhile_append]
    split
    · next all =>
      rw [(List.takeWhile_prefix _).eq_of_length all, List.takeWhile_cons_of_neg (by decide),
        List.append_nil]
    · rfl
  refine ⟨⟨copied, fun isNul => ?_⟩, ?_⟩
  · have other := List.mem_takeWhile_imp isNul
    exact absurd rfl (of_decide_eq_true other)
  · rw [Parsing.start, copied, List.length_append, List.length_singleton]

/-- A round of the loop, by its call of `kernel_next_arg`. -/
def Parsing.Step (fuel : Nat) (s : Parsing) (next : Next) (s' : Parsing) : Prop :=
  kernelNextArg fuel s.buffer s.current = .ok next ∧ parseRound fuel s = .ok (.inl s')

/-- The call does not leave the buffer, and comes closer to the terminator. -/
structure Nearer (fuel size : Nat) (s : Parsing) (next : Next) : Prop where
  called : kernelNextArg fuel s.buffer s.current = .ok next
  advances : s.current < next.args
  inside : next.args ≤ size
  terminated : next.buffer[size]? = some nul

/-- Every call of `kernel_next_arg` in every run is one of these. -/
def CallsComeNearer (fuel : Nat) (contents : Contents) : Prop :=
  ∀ calls s, Run (Parsing.Step fuel) (.start contents) calls s → load s.buffer s.current ≠ .ok nul →
    ∃ next, Nearer fuel (cmdlineOf contents).length s next

/-- By induction on the run: the buffer keeps its size and its terminator. -/
theorem left_of_run {contents : Contents} {calls : List Next} {s : Parsing}
    (enough : (cmdlineOf contents).length + 1 < fuel)
    (run : Run (Parsing.Step fuel) (.start contents) calls s) :
    ∃ text, Left s ((cmdlineOf contents).length + 1) text := by
  refine run.invariant (I := fun _ s => ∃ text, Left s ((cmdlineOf contents).length + 1) text)
    ⟨_, start_left contents⟩ ?_
  rintro _ s next s' ⟨text, left⟩ ⟨_, round⟩
  have small := length_cmdlineOf contents
  have position := left.terminated.size
  have size := left.size
  by_cases empty : text = []
  · rw [empty] at left
    rw [parseRound_of_nil left.terminated] at round
    cases round
  · obtain ⟨next', _, computes, same⟩ := parseRound_eq left.terminated empty (by omega)
      (by omega : text.length < fuel)
    rw [same] at round
    cases parsed : parseArg (Live.kernelNextArg text).param (Live.kernelNextArg text).val s.flags with
    | none =>
        rw [parsed] at round
        cases round
    | some flags =>
        rw [parsed] at round
        cases round
        exact ⟨_, left.next computes⟩

theorem callsComeNearer {contents : Contents} (enough : (cmdlineOf contents).length + 1 < fuel) :
    CallsComeNearer fuel contents := by
  intro calls s run notEnd
  obtain ⟨text, left⟩ := left_of_run enough run
  have small := length_cmdlineOf contents
  have position := left.terminated.size
  have size := left.size
  have proper : text ≠ [] := by
    rintro rfl
    exact notEnd (load_head left.terminated.view)
  obtain ⟨next, called, computes⟩ := kernelNextArg_spec left.terminated proper (by omega)
    (by omega : text.length < fuel)
  have position' := computes.rest.size
  have size' := computes.size
  have shorter := length_rest_lt proper
  refine ⟨next, called, by omega, by omega, ?_⟩
  have last : (cmdlineOf contents).length = next.args + (Live.kernelNextArg text).rest.length := by omega
  rw [last, ← List.getElem?_drop, computes.rest.view, List.getElem?_concat_length]

/--
The loop comes to its end inside the buffer, and it compares a null pointer
exactly if one of the three parameters stands without a value.
-/
theorem parseCmdline_safe_iff (contents : Contents) (enough : (cmdlineOf contents).length + 1 < fuel) :
    CallsComeNearer fuel contents ∧ parseCmdline fuel (some contents) ≠ .error .outside ∧
      parseCmdline fuel (some contents) ≠ .error .unfinished ∧
      (parseCmdline fuel (some contents) ≠ .error .null ↔
        ∀ raw ∈ rawArgs (cmdlineOf contents), ∀ name ∈ comparedNames, raw ∉ bare name) := by
  have small := length_cmdlineOf contents
  have computed := parse_eq (start_left contents) (by omega) enough
  have crashes := foldlM_eq_none_iff (rawArgs (cmdlineOf contents)) ⟨false, false, false⟩
  rw [← parseFrom_eq] at crashes
  have result : parseCmdline fuel (some contents) =
      some <$> orNull (parseFrom (cmdlineOf contents) ⟨false, false, false⟩) := by
    rw [parseCmdline, computed]
    rfl
  rw [result]
  refine ⟨callsComeNearer enough, ?_⟩
  have noneOf : (∀ raw ∈ rawArgs (cmdlineOf contents), ∀ name ∈ comparedNames, raw ∉ bare name) ↔
      parseFrom (cmdlineOf contents) ⟨false, false, false⟩ ≠ none := by
    rw [Ne, crashes]
    push Not
    rfl
  rw [noneOf]
  cases parseFrom (cmdlineOf contents) ⟨false, false, false⟩ with
  | none => simp [orNull, Functor.map, Except.map]
  | some flags => simp [orNull, Functor.map, Except.map]

/-! ## A root with a value, and one without -/

theorem valued_root_safe : ∃ contents : Contents, contents.bytes = "quiet root=live:gnomeos\n".toList ∧
    CallsComeNearer 100 contents ∧ parseCmdline 100 (some contents) ≠ .error .null := by
  let contents : Contents := ⟨"quiet root=live:gnomeos\n".toList, by decide⟩
  have noBare : ∀ raw ∈ rawArgs (cmdlineOf contents), ∀ name ∈ comparedNames, raw ∉ bare name := by
    decide +kernel
  have enough : (cmdlineOf contents).length + 1 < 100 := by decide
  obtain ⟨nearer, _, _, safe⟩ := parseCmdline_safe_iff contents enough
  exact ⟨contents, rfl, nearer, safe.mpr noBare⟩

/-- The value of a bare `root` is a null pointer, and `strcmp` gets it. -/
theorem bare_root_crashes : ∃ contents : Contents, contents.bytes = "quiet root\n".toList ∧
    ∀ fuel, 12 < fuel → parseCmdline fuel (some contents) = .error .null := by
  let contents : Contents := ⟨"quiet root\n".toList, by decide⟩
  have crashes : parseFrom (cmdlineOf contents) ⟨false, false, false⟩ = none := by
    rw [parseFrom_eq]
    decide
  have length : (cmdlineOf contents).length + 1 = 12 := by decide
  refine ⟨contents, rfl, fun fuel enough => ?_⟩
  have room : (cmdlineOf contents).length + 1 < fuel := by
    rw [length]
    exact enough
  have computed := parse_eq (start_left contents) (by rw [length]; decide) room
  rw [parseCmdline, computed]
  change some <$> orNull (parseFrom (cmdlineOf contents) ⟨false, false, false⟩) = _
  rw [crashes]
  rfl

end GnomeBuildMeta.Live.InPlace
