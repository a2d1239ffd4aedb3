import ApexComments.Command.Options
import ApexComments.Command.Settings

/-!
# Arguments

What the command line asks for, on top of what the environment sets.
-/
namespace ApexComments

open Text

/-- The options of the command. -/
inductive Switch where
  | help
  | logLevel
  | logFile
  | out
  | parallelFiles
  | addressOnly
  | everyParam
  | noProgress
  deriving DecidableEq, Repr

/-- What is asked of the log. -/
structure LogArguments where
  level : Supplied Text
  file : Option (Supplied Text)
  deriving DecidableEq, Repr

/-- What the command line asks for. -/
structure Arguments where
  path : Text
  out : Option (Supplied Text)
  parallelFiles : Supplied Int
  addressOnly : Bool
  everyParam : Bool
  noProgress : Bool
  log : LogArguments
  deriving DecidableEq, Repr

namespace LogArguments

/-- The options that every command has. -/
def options : List (OptionSpec Switch) :=
  [⟨.help, ["-h", "--help"], .help⟩, ⟨.logLevel, ["--log-level"], .text⟩,
    ⟨.logFile, ["--log-file"], .text⟩]

/-- Takes an option over. -/
def set (arguments : LogArguments) : Switch × GivenValue → LogArguments
  | (.logLevel, .text value) => { arguments with level := value }
  | (.logFile, .text value) => { arguments with file := some value }
  | _ => arguments

/-- Reads a command line with the options that every command has and no others. -/
def parse (defaultLevel : Text) (words : List Text) : Except Refusal LogArguments :=
  (Given.parse ⟨options, none⟩ words).map fun given => given.options.foldl set ⟨.value defaultLevel, none⟩

end LogArguments

namespace Arguments

/-- The options and the operand of the command. -/
def usage : Usage Switch where
  options := LogArguments.options ++
    [⟨.out, ["--out"], .text⟩, ⟨.parallelFiles, ["--parallel-files"], .integer⟩,
      ⟨.addressOnly, ["--address-only"], .flag⟩, ⟨.everyParam, ["--multi-param"], .flag⟩,
      ⟨.noProgress, ["--no-progress"], .flag⟩]
  operand := some "path"

/-- What is asked for where only the path is given. -/
def ofSettings (settings : Settings) (path : Text) : Arguments where
  path := path
  out := none
  parallelFiles := .value settings.parallelFiles
  addressOnly := false
  everyParam := settings.everyParam
  noProgress := false
  log := ⟨.value settings.logLevel, none⟩

/-- Takes an option over. -/
def set (arguments : Arguments) : Switch × GivenValue → Arguments
  | (.out, .text value) => { arguments with out := some value }
  | (.parallelFiles, .integer value) => { arguments with parallelFiles := value }
  | (.addressOnly, .flag) => { arguments with addressOnly := true }
  | (.everyParam, .flag) => { arguments with everyParam := true }
  | (.noProgress, .flag) => { arguments with noProgress := true }
  | given => { arguments with log := arguments.log.set given }

/-- Reads the command line. -/
def parse (settings : Settings) (words : List Text) : Except Refusal Arguments :=
  (Given.parse usage words).map fun given =>
    given.options.foldl set (ofSettings settings (given.operand.getD []))

end Arguments

end ApexComments
