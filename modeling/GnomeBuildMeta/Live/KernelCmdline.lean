import GnomeBuildMeta.Words.Cut

/-!
# kernel-cmdline.c

`kernel_next_arg` cuts an argument off the command line and takes its quotes
away in place.  An argument without a value gets a null pointer, and comparing
through it crashes.
-/

namespace GnomeBuildMeta.Live

abbrev Text := List Char

/-- `isspace` of the C locale. -/
def isspace (c : Char) : Bool := c = ' ' || ('\t' ≤ c && c ≤ '\r')

def isQuote (c : Char) : Bool := c = '"'

/-- The loop over the characters: the argument, and what is left behind it. -/
def scan : Bool → Text → Text × Text
  | _, [] => ([], [])
  | inQuote, c :: args =>
      if isspace c && !inQuote then ([], c :: args)
      else
        let next := scan (if isQuote c then !inQuote else inQuote) args
        (c :: next.1, next.2)

/-- The index of the first `=`, which does not count in front. -/
def equals : Text → Option Nat
  | [] => none
  | _ :: arg => (arg.findIdx? (· = '=')).map (· + 1)

/-- `args[i-1] = '\0'` where a quote is. -/
def dropQuote (text : Text) : Text :=
  if text.getLast? = some '"' then text.dropLast else text

/-- The parameter and the value, once the end of the argument is known. -/
def divide (quoted : Bool) (arg : Text) : Text × Option Text :=
  match equals arg with
  | none => (if quoted then dropQuote arg else arg, none)
  | some i =>
      let val := arg.drop (i + 1)
      (arg.take i,
        some (if val.head? = some '"' then dropQuote val.tail
          else if quoted then dropQuote val else val))

structure Arg where
  param : Text
  val : Option Text
  /-- Where the next argument starts. -/
  rest : Text

def kernelNextArg (args : Text) : Arg :=
  let quoted := decide (args.head? = some '"')
  let found := scan quoted (if quoted then args.tail else args)
  let divided := divide quoted found.1
  ⟨divided.1, divided.2, found.2.tail.dropWhile isspace⟩

structure Flags where
  isLive : Bool
  isSafe : Bool
  isNvidia : Bool
  deriving DecidableEq

/-- The two comparisons for one flag; there is no result when `val` is null. -/
def setting (param : Text) (val : Option Text) (name expected : Text) : Option Bool :=
  if param = name then val.map fun val => decide (val = expected) else some false

def parseArg (param : Text) (val : Option Text) (flags : Flags) : Option Flags := do
  let live ← setting param val "root".toList "live:gnomeos".toList
  let safe ← setting param val "gnomeos.safe-mode".toList ['1']
  let nvidia ← setting param val "gnomeos.nvidia-mode".toList ['1']
  return ⟨flags.isLive || live, flags.isSafe || safe, flags.isNvidia || nvidia⟩

theorem scan_append (inQuote : Bool) (args : Text) :
    (scan inQuote args).1 ++ (scan inQuote args).2 = args := by
  induction args generalizing inQuote with
  | nil => rfl
  | cons c args ih =>
      rw [scan]
      split
      · rfl
      · exact congrArg (c :: ·) (ih _)

theorem length_rest_lt {args : Text} (proper : args ≠ []) :
    (kernelNextArg args).rest.length < args.length := by
  have positive : 0 < args.length := List.length_pos_iff.mpr proper
  have skipped := (List.dropWhile_suffix (l := (scan (args.head? = some '"')
    (if args.head? = some '"' then args.tail else args)).2.tail) isspace).length_le
  have parts := congrArg List.length (scan_append (args.head? = some '"')
    (if args.head? = some '"' then args.tail else args))
  have shorter : (if args.head? = some '"' then args.tail else args).length ≤ args.length := by
    split
    · exact (List.tail_suffix args).length_le
    · exact Nat.le_refl _
  simp only [List.length_append, List.length_tail] at parts skipped
  simp only [kernelNextArg, decide_eq_true_eq]
  omega

/-- The loop of `parse_cmdline`; there is no result when it crashes. -/
def parseFrom (current : Text) (flags : Flags) : Option Flags :=
  if current = [] then some flags
  else
    let arg := kernelNextArg current
    (parseArg arg.param arg.val flags).bind (parseFrom arg.rest)
termination_by current.length
decreasing_by exact length_rest_lt ‹_›

def parseCmdline (cmdline : Text) : Option Flags := parseFrom cmdline ⟨false, false, false⟩

end GnomeBuildMeta.Live
