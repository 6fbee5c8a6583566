import GnomeBuildMeta.Live.KernelBufferRun

/-!
# Parameters written on the command line

A parameter is written in one of three ways, and blanks stand between the
parameters.  Cutting the line gives back every one of them, so the flags say
which pairs are in the list.
-/

namespace GnomeBuildMeta.Live

open Words

inductive Parameter where
  | bare (word : Text)
  | pair (name val : Text)
  deriving DecidableEq

structure IsName (name : Text) : Prop where
  proper : name ≠ []
  noBlank : ∀ c ∈ name, isspace c = false
  noQuote : '"' ∉ name
  noEquals : '=' ∉ name

/-- The spellings of a parameter; those of the compared names have a value. -/
inductive Writes : Parameter → Text → Prop where
  | bare {word : Text} (isName : IsName word) (other : word ∉ InPlace.comparedNames) :
      Writes (.bare word) word
  | plain {name val : Text} (isName : IsName name) (noQuote : '"' ∉ val)
      (noBlank : ∀ c ∈ val, isspace c = false) : Writes (.pair name val) (name ++ '=' :: val)
  | quotedValue {name val : Text} (isName : IsName name) (noQuote : '"' ∉ val) :
      Writes (.pair name val) (name ++ '=' :: '"' :: (val ++ ['"']))
  | quoted {name val : Text} (isName : IsName name) (noQuote : '"' ∉ val) :
      Writes (.pair name val) ('"' :: (name ++ '=' :: (val ++ ['"'])))

def Blank (gap : Text) : Prop := ∀ c ∈ gap, isspace c = true

/-- The parameters from the first one on; the last one may end the line. -/
inductive Joined : List Parameter → Text → Prop where
  | nil : Joined [] []
  | last {p : Parameter} {text : Text} (writes : Writes p text) : Joined [p] text
  | cons {p : Parameter} {ps : List Parameter} {text gap line : Text} (writes : Writes p text)
      (proper : gap ≠ []) (blank : Blank gap) (rest : Joined ps line) :
      Joined (p :: ps) (text ++ (gap ++ line))

/-- A command line with these parameters. -/
def Rendered (ps : List Parameter) (line : Text) : Prop :=
  ∃ lead body, Blank lead ∧ Joined ps body ∧ line = lead ++ body

variable {name val word text line : Text} {p : Parameter} {ps : List Parameter}

/-! ## Cutting the line -/

theorem isQuote_eq_false {c : Char} (other : c ≠ '"') : isQuote c = false := decide_eq_false other

/-- Characters that neither end the argument nor open or close a quotation. -/
theorem argumentsFrom_plain {inQuote : Bool} {front : Text} (noQuote : '"' ∉ front)
    (inside : inQuote = true ∨ ∀ c ∈ front, isspace c = false) (rest : Text) :
    argumentsFrom isspace isQuote inQuote (front ++ rest) =
      (argumentsFrom isspace isQuote inQuote rest).modifyHead (front ++ ·) := by
  induction front with
  | nil => exact (List.modifyHead_id ▸ rfl)
  | cons c front ih =>
      have plain : isQuote c = false := isQuote_eq_false fun same => noQuote (same ▸ List.mem_cons_self)
      have goesOn : ¬ (isspace c && !inQuote) = true := by
        rcases inside with rfl | noBlank
        · simp
        · simp [noBlank c List.mem_cons_self]
      have later := ih (fun member => noQuote (List.mem_cons_of_mem _ member))
        (inside.imp_right fun noBlank x member => noBlank x (List.mem_cons_of_mem _ member))
      rw [List.cons_append, argumentsFrom, if_neg goesOn, plain, Bool.xor_false, later,
        List.modifyHead_modifyHead]
      rfl

theorem argumentsFrom_quote (inQuote : Bool) (rest : Text) :
    argumentsFrom isspace isQuote inQuote ('"' :: rest) =
      (argumentsFrom isspace isQuote (!inQuote) rest).modifyHead ('"' :: ·) := by
  cases inQuote <;> rfl

/-- A quotation is closed again, whatever blanks are in it. -/
theorem argumentsFrom_quotation {inner : Text} (noQuote : '"' ∉ inner) (rest : Text) :
    argumentsFrom isspace isQuote false ('"' :: (inner ++ '"' :: rest)) =
      (argumentsFrom isspace isQuote false rest).modifyHead (('"' :: (inner ++ ['"'])) ++ ·) := by
  rw [argumentsFrom_quote, Bool.not_false, argumentsFrom_plain noQuote (Or.inl rfl),
    argumentsFrom_quote, Bool.not_true, List.modifyHead_modifyHead, List.modifyHead_modifyHead]
  congr 1
  funext first
  simp

/-- A spelling of a parameter is not cut, and it closes its quotations. -/
theorem Writes.argumentsFrom (writes : Writes p text) (rest : Text) :
    Words.argumentsFrom isspace isQuote false (text ++ rest) =
      (Words.argumentsFrom isspace isQuote false rest).modifyHead (text ++ ·) := by
  cases writes with
  | bare isName other => exact argumentsFrom_plain isName.noQuote (Or.inr isName.noBlank) rest
  | plain isName noQuote noBlank =>
      refine argumentsFrom_plain ?_ (Or.inr ?_) rest
      · simpa using ⟨isName.noQuote, noQuote⟩
      · intro c member
        rcases List.mem_append.mp member with inName | inVal
        · exact isName.noBlank c inName
        · rcases List.mem_cons.mp inVal with rfl | inVal
          · decide
          · exact noBlank c inVal
  | @quotedValue name val isName noQuote =>
      have front : '"' ∉ name ++ ['='] := by simpa using isName.noQuote
      have noBlank : ∀ c ∈ name ++ ['='], isspace c = false := by
        intro c member
        rcases List.mem_append.mp member with inName | equals
        · exact isName.noBlank c inName
        · rw [List.mem_singleton.mp equals]
          decide
      have cut := @argumentsFrom_plain false _ front (Or.inr noBlank) ('"' :: (val ++ '"' :: rest))
      rw [argumentsFrom_quotation noQuote, List.modifyHead_modifyHead] at cut
      simpa [Function.comp_def] using cut
  | @quoted name val isName noQuote =>
      have inner : '"' ∉ name ++ '=' :: val := by simpa using ⟨isName.noQuote, noQuote⟩
      simpa using argumentsFrom_quotation inner rest

theorem rawArgs_blank {c : Char} (blank : isspace c = true) (rest : Text) :
    rawArgs (c :: rest) = [] :: rawArgs rest := by
  rw [rawArgs, arguments, argumentsFrom, if_pos (by simpa using blank)]
  rfl

theorem foldlM_blank {gap : Text} (blank : Blank gap) (rest : Text) (flags : Flags) :
    (rawArgs (gap ++ rest)).foldlM parseRaw flags = (rawArgs rest).foldlM parseRaw flags := by
  induction gap with
  | nil => rfl
  | cons c gap ih =>
      rw [List.cons_append, rawArgs_blank (blank c List.mem_cons_self), List.foldlM_cons, parseRaw_nil]
      exact ih fun x member => blank x (List.mem_cons_of_mem _ member)

theorem Writes.foldlM_last (writes : Writes p text) (flags : Flags) :
    (rawArgs text).foldlM parseRaw flags = parseRaw flags text := by
  have cut := writes.argumentsFrom []
  rw [List.append_nil, Words.argumentsFrom, List.modifyHead_cons, List.append_nil] at cut
  rw [show rawArgs text = [text] from cut, List.foldlM_cons]
  exact bind_pure _

theorem Writes.foldlM_cons (writes : Writes p text) {gap : Text} (proper : gap ≠ [])
    (blank : Blank gap) (rest : Text) (flags : Flags) :
    (rawArgs (text ++ (gap ++ rest))).foldlM parseRaw flags =
      (parseRaw flags text).bind fun flags => (rawArgs rest).foldlM parseRaw flags := by
  obtain ⟨c, gap, rfl⟩ := List.exists_cons_of_ne_nil proper
  have cut := writes.argumentsFrom (c :: (gap ++ rest))
  have behind := rawArgs_blank (blank c List.mem_cons_self) (gap ++ rest)
  rw [show Words.argumentsFrom isspace isQuote false (c :: (gap ++ rest)) = [] :: rawArgs (gap ++ rest)
    from behind, List.modifyHead_cons, List.append_nil] at cut
  rw [show rawArgs (text ++ (c :: gap ++ rest)) = text :: rawArgs (gap ++ rest) from cut,
    List.foldlM_cons]
  congr 1
  funext flags
  exact foldlM_blank (fun x member => blank x (List.mem_cons_of_mem _ member)) rest flags

/-! ## Reading a spelling -/

theorem equals_name (isName : IsName name) (rest : Text) :
    equals (name ++ '=' :: rest) = some name.length := by
  obtain ⟨c, tail, rfl⟩ := List.exists_cons_of_ne_nil isName.proper
  have noEquals : ∀ x ∈ tail, ¬ decide (x = '=') = true := fun x member same =>
    isName.noEquals (of_decide_eq_true same ▸ List.mem_cons_of_mem c member)
  have before : tail.findIdx? (· = '=') = none := by
    rw [List.findIdx?_eq_none_iff]
    exact fun x member => Bool.eq_false_iff.mpr (noEquals x member)
  rw [List.cons_append, equals, List.findIdx?_append, before,
    List.findIdx?_cons]
  simp

theorem divide_name (isName : IsName name) (isQuoted : Bool) (rest : Text) :
    divide isQuoted (name ++ '=' :: rest) = (name, some (if rest.head? = some '"' then dropQuote rest.tail
      else if isQuoted then dropQuote rest else rest)) := by
  have behind : (name ++ '=' :: rest).drop (name.length + 1) = rest := by
    rw [← List.drop_drop, List.drop_left]
    rfl
  rw [divide, equals_name isName]
  simp only [behind, List.take_left]

theorem dropQuote_concat (val : Text) : dropQuote (val ++ ['"']) = val := by
  rw [dropQuote, List.getLast?_concat, if_pos rfl, List.dropLast_concat]

theorem head?_of_noQuote (noQuote : '"' ∉ val) : val.head? ≠ some '"' :=
  fun first => noQuote (List.mem_of_mem_head? first)

theorem IsName.equals_eq_none (isName : IsName word) : equals word = none := by
  obtain ⟨c, tail, rfl⟩ := List.exists_cons_of_ne_nil isName.proper
  rw [equals, Option.map_eq_none_iff, List.findIdx?_eq_none_iff]
  exact fun x member => decide_eq_false fun same =>
    isName.noEquals (same ▸ List.mem_cons_of_mem c member)

theorem IsName.head?_append (isName : IsName name) (rest : Text) : (name ++ rest).head? ≠ some '"' := by
  obtain ⟨c, tail, rfl⟩ := List.exists_cons_of_ne_nil isName.proper
  intro first
  exact isName.noQuote (Option.some.inj first ▸ List.mem_cons_self)

/-- The value that is read, and whether there is one. -/
def Parameter.read : Parameter → Text × Option Text
  | .bare word => (word, none)
  | .pair name val => (name, some val)

theorem Writes.readArg (writes : Writes p text) : readArg text = p.read := by
  cases writes with
  | bare isName other =>
      have first : text.head? ≠ some '"' := by simpa using isName.head?_append []
      rw [Live.readArg, if_neg first, decide_eq_false first, divide, isName.equals_eq_none]
      rfl
  | @plain name val isName noQuote noBlank =>
      have first := isName.head?_append ('=' :: val)
      rw [Live.readArg, if_neg first, decide_eq_false first, divide_name isName,
        if_neg (head?_of_noQuote noQuote)]
      rfl
  | @quotedValue name val isName noQuote =>
      have first := isName.head?_append ('=' :: '"' :: (val ++ ['"']))
      rw [Live.readArg, if_neg first, decide_eq_false first, divide_name isName]
      simp only [List.head?_cons, if_true, List.tail_cons, dropQuote_concat]
      rfl
  | @quoted name val isName noQuote =>
      rw [Live.readArg]
      simp only [List.head?_cons, if_true, decide_true, List.tail_cons, divide_name isName]
      cases val with
      | nil => rfl
      | cons c val =>
          have first : (c :: val ++ ['"']).head? ≠ some '"' :=
            (head?_of_noQuote noQuote : (c :: val).head? ≠ some '"')
          rw [if_neg first, dropQuote_concat]
          rfl

/-! ## The flags -/

def liveParameter : Parameter := .pair "root".toList "live:gnomeos".toList

def safeParameter : Parameter := .pair "gnomeos.safe-mode".toList ['1']

def nvidiaParameter : Parameter := .pair "gnomeos.nvidia-mode".toList ['1']

/-- The flags that a list of parameters sets. -/
def flagsOf (ps : List Parameter) : Flags :=
  ⟨decide (liveParameter ∈ ps), decide (safeParameter ∈ ps), decide (nvidiaParameter ∈ ps)⟩

def Flags.or (first second : Flags) : Flags :=
  ⟨first.isLive || second.isLive, first.isSafe || second.isSafe, first.isNvidia || second.isNvidia⟩

theorem flagsOf_cons (p : Parameter) (ps : List Parameter) :
    flagsOf (p :: ps) = (flagsOf [p]).or (flagsOf ps) := by
  simp [flagsOf, Flags.or, List.mem_cons, Bool.decide_or]

theorem Flags.or_assoc (first second third : Flags) :
    (first.or second).or third = first.or (second.or third) := by
  simp [Flags.or, Bool.or_assoc]

/-- A comparison sees the one pair that it is about. -/
theorem setting_read {name expected : Text} (other : ∀ word, p = .bare word → word ≠ name) :
    setting p.read.1 p.read.2 name expected = some (decide (Parameter.pair name expected ∈ [p])) := by
  cases p with
  | bare word => simp [Parameter.read, setting, other word rfl]
  | pair found val =>
      by_cases same : found = name
      · rw [Parameter.read, setting, if_pos same, same]
        simp [@eq_comm _ val]
      · rw [Parameter.read, setting, if_neg same]
        simp [@eq_comm _ name, same]

theorem Writes.parseRaw (writes : Writes p text) (flags : Flags) :
    parseRaw flags text = some (flags.or (flagsOf [p])) := by
  have other : ∀ name ∈ InPlace.comparedNames, ∀ word, p = .bare word → word ≠ name := by
    intro name compared word isBare same
    cases writes with
    | bare isName other =>
        cases isBare
        exact other (same ▸ compared)
    | plain | quotedValue | quoted => cases isBare
  rw [Live.parseRaw, writes.readArg, parseArg, setting_read (other _ (by decide)),
    setting_read (other _ (by decide)), setting_read (other _ (by decide))]
  rfl

/-- By induction on the list: the flags become those of its parameters. -/
theorem Joined.foldlM (joined : Joined ps line) (flags : Flags) :
    (rawArgs line).foldlM Live.parseRaw flags = some (flags.or (flagsOf ps)) := by
  induction joined generalizing flags with
  | nil =>
      have unchanged : flags.or (flagsOf []) = flags := by simp [flagsOf, Flags.or]
      rw [unchanged, show rawArgs [] = [[]] from rfl, List.foldlM_cons, parseRaw_nil]
      rfl
  | last writes => rw [writes.foldlM_last, writes.parseRaw]
  | @cons p ps text gap line writes proper blank rest ih =>
      rw [writes.foldlM_cons proper blank, writes.parseRaw, flagsOf_cons p ps, ← Flags.or_assoc]
      exact ih (flags.or (flagsOf [p]))

theorem parseCmdline_rendered (rendered : Rendered ps line) : parseCmdline line = some (flagsOf ps) := by
  obtain ⟨lead, body, blank, joined, rfl⟩ := rendered
  rw [parseCmdline, parseFrom_eq, foldlM_blank blank, joined.foldlM]
  simp [Flags.or]

/-! ## The output pointers -/

namespace InPlace

open Control

/-- The flags, where there is a pointer for them. -/
def Outputs.shown (outputs : Outputs) (flags : Flags) : Outputs :=
  ⟨assign outputs.isLive flags.isLive, assign outputs.isSafe flags.isSafe,
    assign outputs.isNvidia flags.isNvidia⟩

theorem raised_assign (target : Option Bool) (v set : Bool) :
    raised (assign target v) set = assign target (v || set) := by
  cases target <;> cases v <;> cases set <;> rfl

/-- The loop with its flags as it is seen through the pointers. -/
def Parsing.shown (outputs : Outputs) (s : Parsing) : OutParsing :=
  ⟨s.buffer, s.current, outputs.shown s.flags⟩

theorem outRound_shown (outputs : Outputs) (fuel : Nat) (s : Parsing) :
    outRound fuel (s.shown outputs) =
      (parseRound fuel s).map (Sum.map (Parsing.shown outputs) outputs.shown) := by
  rw [outRound, parseRound]
  simp only [Parsing.shown, Outputs.shown, raised_assign, bind, Except.bind, pure, Except.pure]
  cases load s.buffer s.current with
  | error e => rfl
  | ok c =>
      by_cases ends : c = nul
      · simp only [if_pos ends]
        rfl
      · simp only [if_neg ends]
        cases kernelNextArg fuel s.buffer s.current with
        | error e => rfl
        | ok next =>
            dsimp only
            cases setting next "root".toList "live:gnomeos".toList with
            | error e => rfl
            | ok live =>
                cases setting next "gnomeos.safe-mode".toList ['1'] with
                | error e => rfl
                | ok safe =>
                    cases setting next "gnomeos.nvidia-mode".toList ['1'] with
                    | error e => rfl
                    | ok nvidia => rfl

/-- What the pointers get does not depend on which others are null. -/
theorem parseCmdlineTo_eq (fuel : Nat) (contents : Contents) (outputs : Outputs) :
    parseCmdlineTo fuel (some contents) outputs =
      (whileLoop .unfinished (parseRound fuel) fuel (.start contents)).map
        fun flags => (true, outputs.shown flags) := by
  have same := @whileLoop_map _ _ _ Fault.unfinished _ _ _ _ _ outputs.shown
    (outRound_shown outputs fuel) fuel (.start contents)
  rw [parseCmdlineTo]
  change (whileLoop _ _ _ _ >>= fun outputs => pure (true, outputs)) = _
  rw [show (⟨kernelCmdline contents, 0, ⟨assign outputs.isLive false, assign outputs.isSafe false,
    assign outputs.isNvidia false⟩⟩ : OutParsing) = (Parsing.start contents).shown outputs from rfl, same]
  cases whileLoop .unfinished (parseRound fuel) fuel (.start contents) <;> rfl

/--
The three outputs say which of the three pairs are in the list, however the
parameters are written and whatever stands between them.
-/
theorem parseCmdlineTo_rendered {ps : List Parameter} {contents : Contents} {fuel : Nat}
    (rendered : Rendered ps (cmdlineOf contents)) (enough : (cmdlineOf contents).length + 1 < fuel)
    (outputs : Outputs) : parseCmdlineTo fuel (some contents) outputs = .ok (true,
      ⟨assign outputs.isLive (decide (.pair "root".toList "live:gnomeos".toList ∈ ps)),
        assign outputs.isSafe (decide (.pair "gnomeos.safe-mode".toList ['1'] ∈ ps)),
        assign outputs.isNvidia (decide (.pair "gnomeos.nvidia-mode".toList ['1'] ∈ ps))⟩) := by
  have small := length_cmdlineOf contents
  have computed := parse_eq (start_left contents) (by omega) enough
  have flags := parseCmdline_rendered rendered
  rw [Live.parseCmdline] at flags
  rw [parseCmdlineTo_eq, computed, show (Parsing.start contents).flags = ⟨false, false, false⟩ from rfl,
    flags]
  rfl

theorem noSpace_of_any (absent : text.any isspace = false) : ∀ c ∈ text, isspace c = false :=
  fun c inside => Bool.eq_false_iff.mpr (List.any_eq_false.mp absent c inside)

/-- A live root in quotes between a bare word and a pair with a blank in it, and one null pointer. -/
theorem quoted_line_parsed : ∃ contents : Contents,
    contents.bytes = " quiet \t\"root=live:gnomeos\" dyndbg=\"a b\"\n".toList ∧
      parseCmdlineTo 100 (some contents) ⟨some false, none, some true⟩ =
        .ok (true, ⟨some true, none, some false⟩) := by
  let contents : Contents := ⟨" quiet \t\"root=live:gnomeos\" dyndbg=\"a b\"\n".toList, by decide⟩
  let ps : List Parameter := [.bare "quiet".toList, .pair "root".toList "live:gnomeos".toList,
    .pair "dyndbg".toList "a b".toList]
  have word : Writes (.bare "quiet".toList) "quiet".toList :=
    .bare ⟨by decide, noSpace_of_any (by decide), by decide, by decide⟩ (by decide)
  have root : Writes (.pair "root".toList "live:gnomeos".toList) "\"root=live:gnomeos\"".toList :=
    .quoted ⟨by decide, noSpace_of_any (by decide), by decide, by decide⟩ (by decide)
  have debug : Writes (.pair "dyndbg".toList "a b".toList) "dyndbg=\"a b\"".toList :=
    .quotedValue ⟨by decide, noSpace_of_any (by decide), by decide, by decide⟩ (by decide)
  have last : Joined [_] ("dyndbg=\"a b\"".toList ++ (['\n'] ++ [])) :=
    .cons debug (by decide) (List.all_eq_true.mp (by decide)) .nil
  have later : Joined [_, _] ("\"root=live:gnomeos\"".toList ++ ([' '] ++ _)) :=
    .cons root (by decide) (List.all_eq_true.mp (by decide)) last
  have whole : Joined ps ("quiet".toList ++ ([' ', '\t'] ++ _)) :=
    .cons word (by decide) (List.all_eq_true.mp (by decide)) later
  have rendered : Rendered ps (cmdlineOf contents) := ⟨[' '], _, List.forall_mem_singleton.mpr rfl, whole, by decide⟩
  exact ⟨contents, rfl, parseCmdlineTo_rendered rendered (by decide) _⟩

end InPlace

end GnomeBuildMeta.Live
