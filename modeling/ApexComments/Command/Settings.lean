import ApexComments.Command.EnvFile
import ApexComments.File.Tree
import ApexComments.Text.Keyword
import ApexComments.Text.Numeral
import ApexComments.Text.Utf8

/-!
# Settings

The settings come from the environment. A variable file in the working directory, or in the nearest
directory above it that has one, adds variables that the environment does not hold. Values that make
no sense count as absent.
-/
namespace ApexComments

open Text

/-- The variables of the environment. -/
abbrev Variables := List (Text × Text)

namespace Variables

/-- The value of a variable; empty where it is not set. -/
def value (vars : Variables) (name : Text) : Text := (vars.lookup name).getD []

/-- The variables with those of a file that are not set yet. -/
def withFile (vars : Variables) (bindings : List (Text × Text)) : Variables :=
  vars ++ bindings.filter fun binding => (vars.lookup binding.1).isNone

/-- The nearest variable file at or above a place; `reversed` holds the names that lead to the place, last first.
One that cannot be looked up counts as absent. -/
def nearestFile? (disk : Disk) : List Text → Option Path
  | [] => fileIn? []
  | name :: above => match fileIn? (name :: above).reverse with
    | some path => some path
    | none => nearestFile? disk above
where
  /-- The variable file in a directory. -/
  fileIn? (directory : List Text) : Option Path :=
    let path : Path := ⟨true, directory ++ [(".env" : Text)]⟩
    match disk.isFile path with
    | .ok true => some path
    | _ => none

/-- Why the variables are not known. -/
inductive LoadError where
  /-- The variable file cannot be read. -/
  | file (fault : FileError)
  /-- The variable file is ill-formed. -/
  | encoding (error : Utf8Error)
  deriving DecidableEq, Repr

/-- The words for variables that are not known. -/
def LoadError.message : LoadError → Text
  | file fault => fault.label
  | encoding error => error.message

/-- The variables of the environment and of the nearest variable file. -/
def load (vars : Variables) (disk : Disk) : Except LoadError Variables :=
  match nearestFile? disk disk.workingDirectory.reverse with
  | none => .ok vars
  | some path => match disk.read path with
    | .error fault => .error (.file fault)
    | .ok contents => match decodeStrict contents.toList with
      | .error error => .error (.encoding error)
      | .ok source => .ok (vars.withFile (EnvFile.parse source))

end Variables

/-- What the environment sets. -/
structure Settings where
  everyParam : Bool
  parallelFiles : Int
  logLevel : Text
  deriving DecidableEq, Repr

namespace Settings

/-- The words that switch something on. -/
def onWords : List Text := ["1", "true", "yes", "on"]

/-- The log level where none is set. -/
def defaultLogLevel : Text := "INFO"

/-- The number of files worked on at once where none is set. -/
def defaultParallelFiles : Int := 8

/-- The positive number that a value writes. -/
def positive? (value : Text) : Option Int := (integer? (trim value)).filter (0 < ·)

/-- The settings of an environment. -/
def ofVariables (vars : Variables) : Settings where
  everyParam := onWords.contains (trim (lowered (vars.value "APEXDOC_MULTI_PARAM")))
  parallelFiles := (positive? (vars.value "APEXDOC_PARALLEL_FILES")).getD defaultParallelFiles
  logLevel :=
    let level := trim (vars.value "APEXDOC_LOG_LEVEL")
    if level.isEmpty then defaultLogLevel else level

end Settings

end ApexComments
