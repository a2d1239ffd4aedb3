import ApexComments.File.Tree
import ApexComments.Log
import ApexComments.Text.Keyword
import ApexComments.Text.Utf8

/-!
# The log

Messages from a level on are written to the console and, if one is named, to a log file, which is
added to. A log file whose directory cannot be made is done without.
-/
namespace ApexComments

open Text

/-- The level asked for, by name or by number; or that none is named. -/
inductive LevelChoice where
  | named (name : Text)
  | numbered (level : Int)
  | withheld
  deriving DecidableEq, Repr

/-- Why the log cannot be set up. -/
inductive LogError where
  /-- The log file cannot be opened. -/
  | file (fault : FileError)
  /-- The name asked for is that of the line format. -/
  | formatForLevel
  /-- The name asked for is that of the table of line formats. -/
  | stylesForLevel
  /-- No level is named. -/
  | levelWithheld
  deriving DecidableEq, Repr

namespace LogLevel

/-- The level of messages of common interest. -/
def info : Int := 20

/-- The names of the levels. -/
def names : List (Text × Int) :=
  [("NOTSET", 0), ("DEBUG", 10), ("INFO", 20), ("WARN", 30),
    ("WARNING", 30), ("ERROR", 40), ("FATAL", 50), ("CRITICAL", 50)]

/-- The names that are taken and mean no level. -/
def reservedNames : List (Text × LogError) :=
  [("BASIC_FORMAT", .formatForLevel), ("_STYLES", .stylesForLevel)]

/-- The level that is meant: names are read in capitals, and one that means nothing is the level of
common interest. -/
def ofChoice : LevelChoice → Except LogError Int
  | .numbered level => .ok level
  | .withheld => .error .levelWithheld
  | .named name =>
    let name := raised name
    match reservedNames.lookup name with
    | some fault => .error fault
    | none => .ok ((names.lookup name).getD info)

/-- What a level is called before a message. -/
def label (level : Int) : Text :=
  if level = 0 then "NOTSET"
  else if level = 10 then "DEBUG"
  else if level = 20 then "INFO"
  else if level = 30 then "WARNING"
  else if level = 40 then "ERROR"
  else if level = 50 then "CRITICAL"
  else "Level " ++ ofInt level

end LogLevel

/-- The words for a log that cannot be set up; an unopened file speaks for itself. -/
def LogError.message : LogError → Text
  | file fault => fault.label
  | formatForLevel => "Unknown level: '%(levelname)s:%(name)s:%(message)s'"
  | stylesForLevel =>
    "Level not an integer or a valid string: \x7b'%': (<class 'logging.PercentStyle'>, " ++
      "'%(levelname)s:%(name)s:%(message)s'), '\x7b': (<class 'logging.StrFormatStyle'>, " ++
      "'\x7blevelname\x7d:\x7bname\x7d:\x7bmessage\x7d'), '$': " ++
      "(<class 'logging.StringTemplateStyle'>, '$\x7blevelname\x7d:$\x7bname\x7d:$\x7bmessage\x7d')\x7d"
  | levelWithheld => "'list' object has no attribute 'upper'"

/-- A log that has been set up. -/
structure LogSink where
  /-- The least level that is written. -/
  level : Int
  /-- The log file. -/
  file : Option Path
  deriving DecidableEq, Repr

namespace LogSink

/-- Opens the log file, which is made where there is none. An empty name is none; a directory that
cannot be made means none too, unless its path is not even looked up. -/
def openFile (disk : Disk) (name : Text) : Disk × Except FileError (Option Path) :=
  if name.isEmpty then (disk, .ok none)
  else
    let path := Path.ofText name
    match disk.ensureDirectory path.parent with
    | (disk, .error fault) => (disk, if fault.number?.isNone then .error fault else .ok none)
    | (disk, .ok ()) => match disk.append path .empty with
      | .error fault => (disk, .error fault)
      | .ok disk => (disk, .ok (some path))

/-- Sets up the log. The file is opened before the level is looked at. -/
def setUp (disk : Disk) (choice : LevelChoice) (file : Text) : Disk × Except LogError LogSink :=
  match openFile disk file with
  | (disk, .error fault) => (disk, .error (.file fault))
  | (disk, .ok path) => (disk, (LogLevel.ofChoice choice).map fun level => ⟨level, path⟩)

/-- Whether a message of the level is written. -/
def shows (sink : LogSink) (level : Int) : Bool := 0 < level && sink.level ≤ level

end LogSink

/-- What has been written to the console's error channel, the last line first, with the files as they
are now. -/
structure Console where
  disk : Disk
  reversed : List Text

namespace Console

/-- The console before anything is written to it. -/
def fresh (disk : Disk) : Console := ⟨disk, []⟩

/-- What has been written to the error channel. -/
def stderr (console : Console) : Text := console.reversed.reverse.flatten

/-- The line of a message; the stamp stands before it. -/
def line (stamp : Text) (level : Int) (message : Text) : Text :=
  stamp ++ "[" ++ LogLevel.label level ++ "] " ++ message ++ "\n"

/-- The files after a line is added to the log file; one that has no bytes, or that cannot be added, is left out. -/
def added (disk : Disk) (sink : LogSink) (written : Text) : Disk :=
  match sink.file, encodeStrict written with
  | some path, .ok bytes => (disk.append path ⟨bytes.toArray⟩).toOption.getD disk
  | _, _ => disk

/-- Writes a message to the console and to the log file. -/
def emit (sink : LogSink) (stamp : Text) (console : Console) (level : Int) (message : Text) : Console :=
  if sink.shows level then
    let written := line stamp level message
    ⟨added console.disk sink written, written :: console.reversed⟩
  else console

/-- Writes the rows of a log in order. -/
def emitRows (sink : LogSink) (stamp : Text) (console : Console) (rows : List LogRow) : Console :=
  rows.foldl (fun console row => console.emit sink stamp row.severity.level row.message) console

end Console

end ApexComments
