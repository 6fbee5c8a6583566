import GnomeBuildMeta.Live.KernelCmdline
import GnomeBuildMeta.Zswap.Generator

/-!
# Live mode in the two generators

The C generator takes quotes away before it compares, the zswap generator
compares raw words.  They differ where the live root is quoted, and where it is
a word inside another argument.
-/

namespace GnomeBuildMeta.Live

open Words

/-- The arguments of a command line with their quotes. -/
def rawArgs (cmdline : Text) : List Text := arguments isspace isQuote cmdline

/-- The argument that names the live root. -/
def liveRoot : Text := "root=live:gnomeos".toList

/-- The other spellings that `kernel_next_arg` reads as it; quotes may be left open at the end. -/
def quotedLiveRoots : List Text :=
  ["root=\"live:gnomeos\"".toList, "root=\"live:gnomeos".toList, "\"root=live:gnomeos\"".toList,
    "\"root=live:gnomeos".toList, "\"root=\"live:gnomeos\"".toList, "\"root=\"live:gnomeos".toList]

/-! ## One argument -/

/-- The parameter and the value of an argument with its quotes. -/
def readArg (raw : Text) : Text × Option Text :=
  divide (raw.head? = some '"') (if raw.head? = some '"' then raw.tail else raw)

theorem dropQuote_eq_iff {text wanted : Text} (open' : wanted.getLast? ≠ some '"') :
    dropQuote text = wanted ↔ text = wanted ∨ text = wanted ++ ['"'] := by
  rw [dropQuote]
  split
  case isTrue closed =>
    have whole : text.dropLast ++ ['"'] = text := List.dropLast_append_getLast? _ closed
    constructor
    · intro same
      exact Or.inr (by rw [← same, whole])
    · rintro (rfl | rfl)
      · exact absurd closed open'
      · exact List.dropLast_concat
  case isFalse notClosed =>
    constructor
    · exact Or.inl
    · rintro (same | rfl)
      · exact same
      · exact absurd (by simp) notClosed

theorem append_of_equals {arg : Text} {i : Nat} (found : equals arg = some i) :
    arg.take i ++ '=' :: arg.drop (i + 1) = arg := by
  cases arg with
  | nil => cases found
  | cons c arg =>
      obtain ⟨j, index, rfl⟩ := Option.map_eq_some_iff.mp found
      obtain ⟨inside, isEquals, _⟩ := List.findIdx?_eq_some_iff_getElem.mp index
      have here : arg[j] = '=' := by simpa using isEquals
      have parts : arg.take j ++ arg[j] :: arg.drop (j + 1) = arg := by
        rw [← List.drop_eq_getElem_cons inside, List.take_append_drop]
      rw [here] at parts
      exact congrArg (c :: ·) parts

/-- What stands behind the `=` of an argument that names the live root. -/
theorem divide_live {quoted : Bool} {arg : Text}
    (live : divide quoted arg = ("root".toList, some "live:gnomeos".toList)) :
    ∃ val, arg = "root=".toList ++ val ∧
      (if val.head? = some '"' then dropQuote val.tail
        else if quoted then dropQuote val else val) = "live:gnomeos".toList := by
  rw [divide] at live
  split at live
  case h_1 => cases (Prod.mk.inj live).2
  case h_2 i found =>
    obtain ⟨param, val⟩ := Prod.mk.inj live
    refine ⟨arg.drop (i + 1), ?_, Option.some.inj val⟩
    have parts := append_of_equals found
    rw [param] at parts
    exact parts.symm

/-- The seven spellings. -/
theorem readArg_live_iff {raw : Text} :
    readArg raw = ("root".toList, some "live:gnomeos".toList) ↔
      raw = liveRoot ∨ raw ∈ quotedLiveRoots := by
  constructor
  · intro read
    obtain ⟨val, whole, live⟩ := divide_live read
    -- An inner value is followed by one quote at most.
    have inner : ∀ {text}, dropQuote text = "live:gnomeos".toList →
        text = "live:gnomeos".toList ∨ text = "live:gnomeos\"".toList :=
      fun same => (dropQuote_eq_iff (by decide)).mp same
    have opened : val.head? = some '"' → val = '"' :: val.tail :=
      fun first => (List.cons_head?_tail first).symm
    by_cases quoted : raw.head? = some '"'
    · have rawWhole : raw = '"' :: ("root=".toList ++ val) := by
        rw [if_pos quoted] at whole
        rw [← whole, List.cons_head?_tail quoted]
      rw [rawWhole]
      split at live
      case isTrue first =>
        rw [opened first]
        rcases inner live with same | same <;> rw [same] <;> decide
      case isFalse =>
        rw [decide_eq_true quoted, if_pos rfl] at live
        rcases inner live with same | same <;> rw [same] <;> decide
    · rw [if_neg quoted] at whole
      rw [whole]
      split at live
      case isTrue first =>
        rw [opened first]
        rcases inner live with same | same <;> rw [same] <;> decide
      case isFalse =>
        rw [decide_eq_false quoted] at live
        rw [show val = "live:gnomeos".toList from live]
        decide
  · have spelled : ∀ raw ∈ liveRoot :: quotedLiveRoots,
        readArg raw = ("root".toList, some "live:gnomeos".toList) := by decide
    intro spelling
    exact spelled raw (List.mem_cons.mpr spelling)

/-! ## The loop over the command line -/

theorem argumentsFrom_eq_scan (inQuote : Bool) (cmdline : Text) :
    argumentsFrom isspace isQuote inQuote cmdline = (scan inQuote cmdline).1 ::
      match (scan inQuote cmdline).2 with
      | [] => []
      | _ :: rest => argumentsFrom isspace isQuote false rest := by
  induction cmdline generalizing inQuote with
  | nil => rfl
  | cons c cmdline ih =>
      rw [argumentsFrom, scan]
      split
      · rfl
      · have toggled : (inQuote ^^ isQuote c) = if isQuote c then !inQuote else inQuote := by
          cases inQuote <;> cases isQuote c <;> rfl
        rw [toggled, ih]
        rfl

/-- What one argument does to the flags. -/
def parseRaw (flags : Flags) (raw : Text) : Option Flags :=
  parseArg (readArg raw).1 (readArg raw).2 flags

theorem parseRaw_nil (flags : Flags) : parseRaw flags [] = some flags := by
  obtain ⟨live, safe, nvidia⟩ := flags
  simp [parseRaw, readArg, divide, equals, parseArg, setting]

/-- Blanks in front give empty arguments, which change nothing. -/
theorem foldlM_dropWhile (flags : Flags) (cmdline : Text) :
    (rawArgs (cmdline.dropWhile isspace)).foldlM parseRaw flags =
      (rawArgs cmdline).foldlM parseRaw flags := by
  induction cmdline with
  | nil => rfl
  | cons c cmdline ih =>
      rw [List.dropWhile_cons]
      split
      case isFalse => rfl
      case isTrue blank =>
        rw [ih]
        change _ = (argumentsFrom isspace isQuote false (c :: cmdline)).foldlM parseRaw flags
        rw [argumentsFrom, if_pos (by simpa using blank), List.foldlM_cons, parseRaw_nil]
        rfl

/-- `kernel_next_arg` reads the first argument and goes on behind it. -/
theorem kernelNextArg_eq (args : Text) :
    kernelNextArg args = ⟨(readArg (scan false args).1).1, (readArg (scan false args).1).2,
      (scan false args).2.tail.dropWhile isspace⟩ := by
  rw [kernelNextArg]
  by_cases quoted : args.head? = some '"'
  · obtain ⟨rest, rfl⟩ : ∃ rest, args = '"' :: rest := ⟨args.tail, (List.cons_head?_tail quoted).symm⟩
    have first : scan false ('"' :: rest) = ('"' :: (scan true rest).1, (scan true rest).2) := rfl
    rw [first]
    rfl
  · have first : (scan false args).1.head? ≠ some '"' := by
      cases args with
      | nil => decide
      | cons c args =>
          rw [scan]
          split
          · simp
          · simpa using quoted
    simp only [readArg, if_neg first, decide_eq_false quoted, decide_eq_false first]
    rfl

/-- The loop treats one argument after the other. -/
theorem parseFrom_eq (cmdline : Text) (flags : Flags) :
    parseFrom cmdline flags = (rawArgs cmdline).foldlM parseRaw flags := by
  induction cmdline, flags using parseFrom.induct with
  | case1 flags =>
      rw [parseFrom, if_pos rfl, rawArgs, arguments, argumentsFrom, List.foldlM_cons, parseRaw_nil]
      rfl
  | case2 current flags proper arg ih =>
      have later : (fun flags => parseFrom arg.rest flags) = fun flags =>
          (rawArgs (scan false current).2.tail).foldlM parseRaw flags := by
        funext flags
        rw [ih, show arg = _ from kernelNextArg_eq current, foldlM_dropWhile]
      have first : parseArg arg.param arg.val flags = parseRaw flags (scan false current).1 := by
        rw [show arg = _ from kernelNextArg_eq current]
        rfl
      rw [parseFrom, if_neg proper, rawArgs, arguments, argumentsFrom_eq_scan, List.foldlM_cons]
      change (parseArg arg.param arg.val flags).bind (fun flags => parseFrom arg.rest flags) = _
      rw [first, later]
      congr 1
      funext flags
      cases (scan false current).2 with
      | nil =>
          change (rawArgs []).foldlM parseRaw flags = some flags
          rw [rawArgs, arguments, argumentsFrom, List.foldlM_cons, parseRaw_nil]
          rfl
      | cons c rest => rfl

theorem parseRaw_isLive {flags flags' : Flags} {raw : Text}
    (parsed : parseRaw flags raw = some flags') :
    flags'.isLive = true ↔ flags.isLive = true ∨ raw = liveRoot ∨ raw ∈ quotedLiveRoots := by
  rw [← readArg_live_iff]
  simp only [parseRaw, parseArg, Option.bind_eq_bind, Option.bind_eq_some_iff] at parsed
  obtain ⟨live, isRoot, _, _, _, _, same⟩ := parsed
  cases same
  have compared : live = true ↔
      (readArg raw).1 = "root".toList ∧ (readArg raw).2 = some "live:gnomeos".toList := by
    rw [setting] at isRoot
    split at isRoot
    case isTrue named =>
      obtain ⟨val, found, rfl⟩ := Option.map_eq_some_iff.mp isRoot
      rw [decide_eq_true_iff, found, Option.some_inj]
      exact ⟨fun same => ⟨named, same⟩, And.right⟩
    case isFalse other =>
      cases isRoot
      exact ⟨fun impossible => (nomatch impossible), fun same => absurd same.1 other⟩
  rw [Bool.or_eq_true, Prod.ext_iff, compared]

theorem foldlM_isLive {raws : List Text} {flags flags' : Flags}
    (parsed : raws.foldlM parseRaw flags = some flags') :
    flags'.isLive = true ↔
      flags.isLive = true ∨ ∃ raw ∈ raws, raw = liveRoot ∨ raw ∈ quotedLiveRoots := by
  induction raws generalizing flags with
  | nil =>
      cases parsed
      simp
  | cons raw raws ih =>
      rw [List.foldlM_cons, Option.bind_eq_bind, Option.bind_eq_some_iff] at parsed
      obtain ⟨middle, one, later⟩ := parsed
      rw [ih later, parseRaw_isLive one, List.exists_mem_cons_iff, or_assoc]

/-- The C generator sees a live root in every spelling. -/
theorem parseCmdline_isLive {cmdline : Text} {flags : Flags}
    (returns : parseCmdline cmdline = some flags) :
    flags.isLive = true ↔ ∃ raw ∈ rawArgs cmdline, raw = liveRoot ∨ raw ∈ quotedLiveRoots := by
  rw [parseCmdline, parseFrom_eq] at returns
  simpa using foldlM_isLive returns

/-! ## The two generators -/

/-- `procfs::cmdline` -/
def procfsCmdline (cmdline : Text) : List Text := words isspace cmdline

/-- An argument that has the live root only as a word inside its quotes. -/
def HidesLiveRoot (raw : Text) : Prop := raw ≠ liveRoot ∧ liveRoot ∈ words isspace raw

/-- The zswap generator sees it as a word, wherever quotes stand. -/
theorem zswap_isLive {cmdline : Text} : Zswap.isLive (procfsCmdline cmdline) = true ↔
    liveRoot ∈ rawArgs cmdline ∨ ∃ raw ∈ rawArgs cmdline, HidesLiveRoot raw := by
  have asWord : liveRoot ∈ words isspace liveRoot := by decide
  rw [Zswap.isLive, List.any_eq_true]
  have scans : (∃ arg ∈ procfsCmdline cmdline, decide (arg = liveRoot) = true) ↔
      liveRoot ∈ words isspace cmdline := by simp [procfsCmdline]
  refine scans.trans ((mem_words_iff isQuote).trans ?_)
  constructor
  · rintro ⟨raw, listed, inside⟩
    by_cases plain : raw = liveRoot
    · exact Or.inl (plain ▸ listed)
    · exact Or.inr ⟨raw, listed, plain, inside⟩
  · rintro (listed | ⟨raw, listed, _, inside⟩)
    · exact ⟨liveRoot, listed, asWord⟩
    · exact ⟨raw, listed, inside⟩

/-- The live root stands alone, or is both quoted and hidden, or neither. -/
def Unambiguous (cmdline : Text) : Prop :=
  liveRoot ∈ rawArgs cmdline ∨
    ((∃ raw ∈ rawArgs cmdline, raw ∈ quotedLiveRoots) ↔ ∃ raw ∈ rawArgs cmdline, HidesLiveRoot raw)

/-- When the two generators agree about live mode. -/
theorem isLive_agrees_iff {cmdline : Text} {flags : Flags}
    (returns : parseCmdline cmdline = some flags) :
    (flags.isLive = true ↔ Zswap.isLive (procfsCmdline cmdline) = true) ↔ Unambiguous cmdline := by
  have spelled : (∃ raw ∈ rawArgs cmdline, raw = liveRoot ∨ raw ∈ quotedLiveRoots) ↔
      liveRoot ∈ rawArgs cmdline ∨ ∃ raw ∈ rawArgs cmdline, raw ∈ quotedLiveRoots := by
    simp only [and_or_left, exists_or, exists_eq_right]
  rw [parseCmdline_isLive returns, zswap_isLive, spelled, Unambiguous]
  by_cases alone : liveRoot ∈ rawArgs cmdline <;> simp [alone]

/-- A live root without quotes is seen by both. -/
theorem plain_root_seen : ∃ flags, parseCmdline "quiet root=live:gnomeos\n".toList = some flags ∧
    (flags.isLive = true ↔ Zswap.isLive (procfsCmdline "quiet root=live:gnomeos\n".toList) = true) := by
  have returns : parseCmdline "quiet root=live:gnomeos\n".toList = some ⟨true, false, false⟩ := by
    rw [parseCmdline, parseFrom_eq]
    decide
  exact ⟨_, returns, (isLive_agrees_iff returns).mpr (Or.inl (by decide))⟩

/-- A quoted one is not. -/
theorem quoted_root_missed : ∃ flags,
    parseCmdline "quiet root=\"live:gnomeos\"\n".toList = some flags ∧ flags.isLive = true ∧
      Zswap.isLive (procfsCmdline "quiet root=\"live:gnomeos\"\n".toList) = false := by
  refine ⟨⟨true, false, false⟩, ?_, rfl, by decide⟩
  rw [parseCmdline, parseFrom_eq]
  decide

/-- Without quotes there is nothing to disagree about. -/
theorem unambiguous_of_no_quote {cmdline : Text} (noQuote : '"' ∉ cmdline) :
    Unambiguous cmdline := by
  have split : rawArgs cmdline = cmdline.splitOnP isspace :=
    arguments_of_no_quote fun c member => decide_eq_false fun same => noQuote (same ▸ member)
  have plain : ∀ raw ∈ rawArgs cmdline, (∀ c ∈ raw, isspace c = false) ∧ '"' ∉ raw := by
    intro raw listed
    rw [split] at listed
    exact ⟨fun c member => not_break_of_mem_splitOnP listed member,
      fun quote => noQuote (mem_of_mem_splitOnP listed quote)⟩
  refine Or.inr (iff_of_false ?_ ?_)
  · rintro ⟨raw, listed, spelling⟩
    have quoted : ∀ raw ∈ quotedLiveRoots, '"' ∈ raw := by decide
    exact (plain raw listed).2 (quoted raw spelling)
  · rintro ⟨raw, listed, other, inside⟩
    have proper : raw ≠ [] := by
      rintro rfl
      rw [words_nil] at inside
      cases inside
    rw [words_of_no_break proper (plain raw listed).1, List.mem_singleton] at inside
    exact other inside.symm

end GnomeBuildMeta.Live
