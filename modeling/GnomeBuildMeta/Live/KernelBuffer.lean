import GnomeBuildMeta.Control.Except
import GnomeBuildMeta.Control.While
import GnomeBuildMeta.Live.KernelCmdline

/-!
# kernel-cmdline.c on its buffer

The same functions with the memory that they work on: indexes into the buffer,
the terminators that are written into it, and pointers that may be null.
-/

namespace GnomeBuildMeta.Live.InPlace

open Control

abbrev Buffer := List Char

inductive Fault where
  /-- A read or a write that is not in the buffer. -/
  | outside
  /-- `strcmp` of a null pointer. -/
  | null
  /-- A loop that has not come to its end. -/
  | unfinished
  deriving DecidableEq

def nul : Char := '\x00'

def load (b : Buffer) (p : Nat) : Except Fault Char :=
  match b[p]? with
  | some c => .ok c
  | none => .error .outside

def store (b : Buffer) (p : Nat) (c : Char) : Except Fault Buffer :=
  if p < b.length then .ok (b.set p c) else .error .outside

/-! ## `kernel_next_arg` -/

/-- The variables of the `for` loop. -/
structure Scan where
  i : UInt32
  equals : UInt32
  inQuote : Bool

def scanRound (b : Buffer) (args : Nat) (s : Scan) : Except Fault (Scan ⊕ Scan) := do
  let c ← load b (args + s.i.toNat)
  if c = nul then return .inr s
  if isspace c && !s.inQuote then return .inr s
  return .inl {
    i := s.i + 1
    equals := if s.equals = 0 ∧ c = '=' then s.i else s.equals
    inQuote := if isQuote c then !s.inQuote else s.inQuote }

/-- `while (*args && isspace(*args)) args++;` -/
def skipRound (b : Buffer) (args : Nat) : Except Fault (Nat ⊕ Nat) := do
  let c ← load b args
  if c ≠ nul ∧ isspace c then return .inl (args + 1) else return .inr args

/-- `if (*p == '"') *p = '\0';` -/
def eraseQuote (b : Buffer) (p : Nat) : Except Fault Buffer := do
  if isQuote (← load b p) then store b p nul else return b

/-- The parameter ends at the `=`, and the value starts behind it. -/
def cutArg (b : Buffer) (args : Nat) (s : Scan) : Except Fault (Buffer × Option Nat) := do
  if s.equals = 0 then return (b, none)
  let b ← store b (args + s.equals.toNat) nul
  let val := args + s.equals.toNat + 1
  if isQuote (← load b val) then
    return (← eraseQuote b (args + (s.i - 1).toNat), some (val + 1))
  else return (b, some val)

/-- `if (quoted && i > 0 && args[i-1] == '"') args[i-1] = '\0';` -/
def unquote (quoted : Bool) (b : Buffer) (args : Nat) (s : Scan) : Except Fault Buffer :=
  if quoted ∧ 0 < s.i then eraseQuote b (args + (s.i - 1).toNat) else return b

/-- The argument is terminated, unless it is the last one. -/
def closeArg (b : Buffer) (args : Nat) (s : Scan) : Except Fault (Buffer × Nat) := do
  if (← load b (args + s.i.toNat)) ≠ nul then
    return (← store b (args + s.i.toNat) nul, args + (s.i + 1).toNat)
  else return (b, args + s.i.toNat)

/-- What `kernel_next_arg` returns and leaves behind. -/
structure Next where
  buffer : Buffer
  param : Nat
  val : Option Nat
  args : Nat

def kernelNextArg (fuel : Nat) (b : Buffer) (start : Nat) : Except Fault Next := do
  let quoted := isQuote (← load b start)
  let args := if quoted then start + 1 else start
  let s ← whileLoop .unfinished (scanRound b args) fuel ⟨0, 0, quoted⟩
  let (b, val) ← cutArg b args s
  let b ← unquote quoted b args s
  let (b, next) ← closeArg b args s
  let next ← whileLoop .unfinished (skipRound b) fuel next
  return ⟨b, args, val, next⟩

/-! ## `parse_cmdline` -/

/-- Whether the string at `p` is the given one; the comparison ends at the first difference. -/
def equalFrom (b : Buffer) (p : Nat) : Text → Except Fault Bool
  | [] => return (← load b p) = nul
  | c :: text => do
      if (← load b p) = c then equalFrom b (p + 1) text else return false

/-- `strcmp(p, text) == 0` -/
def sameText (b : Buffer) (p : Option Nat) (text : Text) : Except Fault Bool :=
  match p with
  | none => .error .null
  | some p => equalFrom b p text

/-- The two comparisons for one flag. -/
def setting (next : Next) (name expected : Text) : Except Fault Bool := do
  if ← sameText next.buffer (some next.param) name then sameText next.buffer next.val expected
  else return false

structure Parsing where
  buffer : Buffer
  current : Nat
  flags : Flags

def parseRound (fuel : Nat) (s : Parsing) : Except Fault (Parsing ⊕ Flags) := do
  if (← load s.buffer s.current) = nul then return .inr s.flags
  let next ← kernelNextArg fuel s.buffer s.current
  let live ← setting next "root".toList "live:gnomeos".toList
  let safe ← setting next "gnomeos.safe-mode".toList ['1']
  let nvidia ← setting next "gnomeos.nvidia-mode".toList ['1']
  return .inl ⟨next.buffer, next.args,
    ⟨s.flags.isLive || live, s.flags.isSafe || safe, s.flags.isNvidia || nvidia⟩⟩

/-- What `read` gives of `/proc/cmdline`; it never gives more. -/
structure Contents where
  bytes : List Char
  short : bytes.length ≤ 0x7ffff000

/-- The copy that `strdup` makes. -/
def kernelCmdline (contents : Contents) : Buffer :=
  (contents.bytes ++ [nul]).takeWhile (· ≠ nul) ++ [nul]

def Parsing.start (contents : Contents) : Parsing :=
  ⟨kernelCmdline contents, 0, ⟨false, false, false⟩⟩

/-- Without the contents of `/proc/cmdline` it returns false. -/
def parseCmdline (fuel : Nat) (contents : Option Contents) : Except Fault (Option Flags) :=
  match contents with
  | none => return none
  | some contents => some <$> whileLoop .unfinished (parseRound fuel) fuel (.start contents)

/-! ## The output pointers -/

/-- What the three pointers point to, where they are not null. -/
structure Outputs where
  isLive : Option Bool
  isSafe : Option Bool
  isNvidia : Option Bool
  deriving DecidableEq

/-- `if (p) *p = v;` -/
def assign (target : Option Bool) (v : Bool) : Option Bool := target.map fun _ => v

/-- The assignment behind the two comparisons. -/
def raised (target : Option Bool) (set : Bool) : Option Bool :=
  if set then assign target true else target

structure OutParsing where
  buffer : Buffer
  current : Nat
  outputs : Outputs

/-- A round of the loop as it writes through the pointers. -/
def outRound (fuel : Nat) (s : OutParsing) : Except Fault (OutParsing ⊕ Outputs) := do
  if (← load s.buffer s.current) = nul then return .inr s.outputs
  let next ← kernelNextArg fuel s.buffer s.current
  let live ← setting next "root".toList "live:gnomeos".toList
  let safe ← setting next "gnomeos.safe-mode".toList ['1']
  let nvidia ← setting next "gnomeos.nvidia-mode".toList ['1']
  return .inl ⟨next.buffer, next.args, ⟨raised s.outputs.isLive live,
    raised s.outputs.isSafe safe, raised s.outputs.isNvidia nvidia⟩⟩

/-- The returned value, and what the outputs hold afterwards. -/
def parseCmdlineTo (fuel : Nat) (contents : Option Contents) (outputs : Outputs) :
    Except Fault (Bool × Outputs) :=
  match contents with
  | none => return (false, outputs)
  | some contents => do
      let cleared : Outputs := ⟨assign outputs.isLive false, assign outputs.isSafe false,
        assign outputs.isNvidia false⟩
      return (true, ← whileLoop .unfinished (outRound fuel) fuel
        ⟨kernelCmdline contents, 0, cleared⟩)

end GnomeBuildMeta.Live.InPlace
