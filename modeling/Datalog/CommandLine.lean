import Datalog.Evaluation.Engine
import Datalog.Function.Builtin
import Datalog.Json.Printer
import Datalog.Source.Decode
import Datalog.Source.Elaborate

/-!
# The command line

The arguments name a program file and settings.  The program is evaluated, and its relations or the
answer to its query are printed.
-/

namespace Datalog
namespace CommandLine

/-- What a command line asks for. -/
structure Options where
  path : String
  config : Config := {}
  queryOnly : Bool := false
  stats : Bool := false

inductive Command where
  | help
  | evaluate (options : Options)

/-- What is wrong with a command line. -/
inductive OptionError where
  | numberExpected (flag : String)
  | unknownLevel (level : Nat)
  | namesExpected (flag : String)
  | unknownOption (option : String)
  deriving DecidableEq

def OptionError.message : OptionError → String
  | .numberExpected flag => flag ++ " expects a number"
  | .unknownLevel level => "unknown optimization level " ++ toString level
  | .namesExpected flag => flag ++ " expects relation names"
  | .unknownOption option => "unknown option `" ++ option ++ "`"

/-- Why a program file cannot be read. -/
inductive ReadError where
  | notFound
  | isDirectory
  | notDirectory
  | permissionDenied
  | nameTooLong
  | notText
  | other (reason : String)
  deriving DecidableEq

def ReadError.message : ReadError → String
  | .notFound => "No such file or directory (os error 2)"
  | .isDirectory => "Is a directory (os error 21)"
  | .notDirectory => "Not a directory (os error 20)"
  | .permissionDenied => "Permission denied (os error 13)"
  | .nameTooLong => "File name too long (os error 36)"
  | .notText => "stream did not contain valid UTF-8"
  | .other reason => reason

/-- What a command leaves behind. -/
structure Outcome where
  code : UInt8 := 0
  stdout : String := ""
  stderr : String := ""
  deriving DecidableEq

/-- The outcome of a command that fails. -/
def failure (text : String) : Outcome where
  code := 1
  stderr := "error: " ++ text ++ "\n"

/-! ## Arguments -/

/-- The decimal number that some digits write; a plus sign may come before them. -/
def number? (text : String) : Option Nat :=
  let digits :=
    match text.toList with
    | '+' :: digits => digits
    | digits => digits
  if !digits.isEmpty && digits.all Json.isDigit then some (Json.decimal digits) else none

/-- The argument of an option that takes a number below a limit. -/
def numberArg (flag : String) (limit : Nat) : Option String → Except OptionError Nat
  | none => .error (.numberExpected flag)
  | some text =>
      match number? text with
      | some number => if number < limit then .ok number else .error (.numberExpected flag)
      | none => .error (.numberExpected flag)

def splitCommas : List Char → List (List Char)
  | [] => [[]]
  | ',' :: text => [] :: splitCommas text
  | c :: text =>
      match splitCommas text with
      | [] => [[c]]
      | part :: parts => (c :: part) :: parts

/-- The names between commas; empty ones do not count. -/
def names (text : String) : List String :=
  ((splitCommas text.toList).filter fun part => !part.isEmpty).map String.ofList

def readOptions (options : Options) : List String → Except OptionError Options
  | [] => .ok options
  | "--sequential" :: args =>
      readOptions { options with config := { options.config with sequential := true } } args
  | "--eager" :: args =>
      readOptions { options with config := { options.config with eager := true } } args
  | "--query-only" :: args => readOptions { options with queryOnly := true } args
  | "--stats" :: args => readOptions { options with stats := true } args
  | ["--parallelism"] => .error (.numberExpected "--parallelism")
  | "--parallelism" :: arg :: args => do
      let number ← numberArg "--parallelism" UInt64.size arg
      readOptions { options with config := options.config.withParallelism (.ofNat number) } args
  | ["--task-size"] => .error (.numberExpected "--task-size")
  | "--task-size" :: arg :: args => do
      let number ← numberArg "--task-size" UInt64.size arg
      readOptions { options with config := options.config.withTaskSize (.ofNat number) } args
  | ["--optimize"] => .error (.numberExpected "--optimize")
  | "--optimize" :: arg :: args => do
      let level ← numberArg "--optimize" UInt8.size arg
      match Optimization.ofLevel? level with
      | none => .error (.unknownLevel level)
      | some optimization =>
          readOptions { options with config := { options.config with optimization } } args
  | ["--track"] => .error (.namesExpected "--track")
  | "--track" :: arg :: args =>
      readOptions { options with config := { options.config with tracked := names arg } } args
  | other :: _ => .error (.unknownOption other)

/-- The command of an argument list.  The first argument is the program file. -/
def command : List String → Except OptionError Command
  | [] | "-h" :: _ | "--help" :: _ => .ok .help
  | path :: args => (readOptions { path } args).map .evaluate

def usage : String :=
  "deduce: parallel semi-naive Datalog evaluator\n\n"
    ++ "Usage: deduce <program.json> [options]\n\n"
    ++ "  --parallelism N   Number of worker threads (default 4)\n"
    ++ "  --sequential      Run every task on the main thread\n"
    ++ "  --eager           Eager semi-naive evaluation instead of rounds\n"
    ++ "  --optimize N      Join-ordering heuristic, 0-4 (default 0)\n"
    ++ "  --task-size N     Tuples per task (default 128)\n"
    ++ "  --track a,b       Log the tuples of these relations after each stratum\n"
    ++ "  --query-only      Print only the answer to the program's query\n"
    ++ "  --stats           Print evaluation statistics as JSON\n"

/-! ## Output -/

/-- A relation with its tuples, one on each line. -/
def renderTuples (name : String) (tuples : List String) : String :=
  name ++ " (" ++ toString tuples.length ++ " tuple" ++ (if tuples.length = 1 then "" else "s")
    ++ "):\n" ++ String.join (tuples.map ("  " ++ · ++ "\n"))

/-- The relations that hold tuples, in increasing order. -/
def renderRelations (evaluation : Evaluation) : String :=
  let symbols := RelationSymbol.sortDistinct evaluation.relations
  let groups := (symbols.map fun symbol => (symbol.name, evaluation.rendered symbol)).filter
    fun group => !group.2.isEmpty
  Text.join "\n" (groups.map fun group => renderTuples group.1 group.2)

def countToJson (number : Nat) : Json := .int number

def stratumStatsToJson (stats : StratumStats) : Json :=
  .obj
    [ ("rank", countToJson stats.rank),
      ("round_deltas", .arr (stats.roundDeltas.map countToJson)),
      ("sweeps", countToJson stats.sweeps),
      ("derived", countToJson stats.derived) ]

def relationStatsToJson (store : FactStore) (symbol : RelationSymbol) : Json :=
  .obj
    [ ("distinct", countToJson (store.countDistinct symbol)),
      ("duplicates", countToJson (store.countEntries symbol)),
      ("indices", countToJson (store.countIndices symbol)) ]

def statsToJson (evaluation : Evaluation) (stats : List StratumStats) : Json :=
  let symbols := RelationSymbol.sortDistinct evaluation.relations
  .obj
    [ ("strata", .arr (stats.map stratumStatsToJson)),
      ("relations",
        .obj (symbols.map fun symbol => (symbol.name, relationStatsToJson evaluation.db symbol))) ]

/-- The statistics after the other output, if they are asked for. -/
def renderStats (options : Options) (evaluation : Evaluation) (stats : List StratumStats) :
    String :=
  if options.stats then
    "\n" ++ (statsToJson evaluation stats).renderLines 0 ++ "\n"
  else
    ""

/-! ## Evaluation -/

/-- The program that a text describes, or the text of what is wrong with it. -/
def program (text : String) : Except String Program :=
  match Source.ProgramSource.ofString text with
  | .error fault =>
      let reason :=
        match fault with
        | .malformed => "malformed JSON"
        | .misshapen => "unexpected shape"
        | .ended => "unexpected end of input"
      .error ("invalid program source: " ++ reason)
  | .ok source => source.toProgram.mapError ProgramError.message

/-- What is printed about an evaluation that has been run. -/
def report (options : Options) (evaluation : Evaluation) (stats : List StratumStats) : Outcome :=
  if options.queryOnly then
    match evaluation.query, evaluation.queryAnswer with
    | some query, some (.ok answer, evaluation) =>
        { stdout := renderTuples query.symbol.name (evaluation.renderSorted answer)
            ++ renderStats options evaluation stats }
    | some _, some (.error error, _) => failure error.message
    | _, _ => failure "program has no query"
  else
    { stdout := renderRelations evaluation ++ renderStats options evaluation stats }

/-- Evaluate a program and print what is asked for. -/
def evaluate (fuel : Nat) (options : Options) (contents : Except ReadError String) : Outcome :=
  match contents with
  | .error error => failure ("cannot read " ++ options.path ++ ": " ++ error.message)
  | .ok text =>
      match program text with
      | .error reason => failure ("invalid program " ++ options.path ++ ": " ++ reason)
      | .ok program =>
          match Evaluation.ofProgram program .builtins options.config .firstInFirstOut with
          | .error error => failure error.message
          | .ok evaluation =>
              match evaluation.run fuel with
              | .ok stats evaluation => report options evaluation stats
              | .error (.failed error) _ => failure (RunError.evaluation error).message
              | .error .outOfFuel _ => failure "the evaluation takes too many steps"

end CommandLine

end Datalog
