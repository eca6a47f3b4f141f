import RowTyping.Check.Module
import RowTyping.Check.Trace
import RowTyping.Json.Printer
import RowTyping.Syntax.Load

/-!
# The command line

Checks one module file. Signatures go to standard output if they are asked for; traces, diagnostics
and the closing line of a failed check go to standard error.
-/

namespace RowTyping.CommandLine

/-- What a call looks like. -/
def usage : String :=
  "usage:\n  sable [--check] [--show-types] [--trace] [--jobs N] <module.json>"

/-- Why arguments cannot be understood. -/
inductive UsageError where
  /-- The number of workers is missing. -/
  | missingJobs
  /-- The number of workers is not a positive number. -/
  | invalidJobs (value : String)
  /-- An option that does not exist. -/
  | unknownArgument (flag : String)
  /-- A second file. -/
  | unexpectedArgument (path : String)
  /-- No file. -/
  | missingInput
deriving DecidableEq, Repr, Inhabited

/-- The wording of an error in the arguments. -/
def UsageError.message : UsageError → String
  | .missingJobs => "missing value for --jobs"
  | .invalidJobs value => s!"invalid value for --jobs: `{value}`"
  | .unknownArgument flag => s!"unknown argument `{flag}`\n{usage}"
  | .unexpectedArgument path => s!"unexpected argument `{path}`\n{usage}"
  | .missingInput => usage

/-- What is to be shown of a check. -/
structure Settings where
  /-- Whether to show signatures. -/
  showTypes : Bool := false
  /-- Whether to show traces. -/
  trace : Bool := false
deriving DecidableEq, Repr, Inhabited

/-- What is to be done. -/
inductive Command where
  /-- Show how a call looks. -/
  | help
  /-- Check a file. -/
  | check (path : String) (settings : Settings)
deriving DecidableEq, Repr, Inhabited

/-- Whether a text is a positive number of at most 64 bits: digits, possibly after a plus sign. -/
def isJobCount (value : String) : Bool :=
  let digits := match value.toList with
    | '+' :: digits => digits
    | digits => digits
  let number := digits.foldl (fun n c => 10 * n + (c.toNat - '0'.toNat)) 0
  !digits.isEmpty && digits.all Char.isDigit && 0 < number && number < Nat.pow 2 64

/-- Read arguments from left to right. The number of workers is only looked at for its form, since
the report does not depend on it. -/
def parseFrom (settings : Settings) (path : Option String) :
    List String → Except UsageError Command
  | [] =>
    match path with
    | some path => .ok (.check path settings)
    | none => .error .missingInput
  | arg :: args =>
    if arg = "-h" || arg = "--help" then .ok .help
    else if arg = "--check" then parseFrom settings path args
    else if arg = "--show-types" then parseFrom { settings with showTypes := true } path args
    else if arg = "--trace" then parseFrom { settings with trace := true } path args
    else if arg = "-j" || arg = "--jobs" then
      match args with
      | [] => .error .missingJobs
      | value :: args =>
        if isJobCount value then parseFrom settings path args else .error (.invalidJobs value)
    else if arg.toList.head? = some '-' then .error (.unknownArgument arg)
    else if path.isSome then .error (.unexpectedArgument arg)
    else parseFrom settings (some arg) args

/-- Read the arguments of a call. -/
def parse (args : List String) : Except UsageError Command :=
  parseFrom {} none args

/-- The result of a call. -/
structure Exit where
  /-- The exit code, zero for success. -/
  code : UInt32 := 0
  /-- The text on standard output. -/
  out : String := ""
  /-- The text on standard error. -/
  err : String := ""
deriving DecidableEq, Repr, Inhabited

/-- A text as lines. -/
def line (text : String) : String :=
  text ++ "\n"

/-- The result of a call that fails with a message. -/
def Exit.failure (message : String) : Exit :=
  { code := 1, err := line message }

/-- What is said about a report. -/
def ofReport (settings : Settings) (r : Report) : Exit :=
  let traces := r.traces.map fun t => line t.toJson.render
  let diagnostics := r.diagnostics.map fun d => line d.render
  let failed := r.errorCount > 0
  let plural := if r.errorCount = 1 then "" else "s"
  let closing := if failed then line s!"check failed: {r.errorCount} error{plural}" else ""
  { code := if failed then 1 else 0
    out := if settings.showTypes then r.render else ""
    err := String.join traces ++ String.join diagnostics ++ closing }

/-- Check the text of a file. -/
def checkSource (settings : Settings) (path source : String) : Exit :=
  match Module.load? source with
  | none => .failure s!"failed to load `{path}`: invalid module: not the JSON form of a module"
  | some m => ofReport settings (m.check settings.trace)

/-- Carry out a call. `read` gives the text of a file or tells why it cannot be read. -/
def run {m : Type → Type} [Monad m] (read : String → m (Except String String))
    (args : List String) : m Exit :=
  match parse args with
  | .error e => pure (.failure e.message)
  | .ok .help => pure { out := line usage }
  | .ok (.check path settings) => do
    match ← read path with
    | .error why => pure (.failure s!"failed to read `{path}`: {why}")
    | .ok source => pure (checkSource settings path source)

end RowTyping.CommandLine
