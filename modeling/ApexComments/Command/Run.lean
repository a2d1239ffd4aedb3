import ApexComments.Command.Arguments
import ApexComments.Command.Logging
import ApexComments.Report

/-!
# The command

The command lists the sources at a path, extracts their comments and reports them. It is a function
from the files and the environment that it finds to the files and the output that it leaves. It has
two parts: extracting, and reporting what was extracted and how long that took.
-/
namespace ApexComments

open Text

/-- What a command finds. -/
structure Surroundings where
  disk : Disk
  vars : Variables
  /-- Whether the error channel is a terminal. -/
  terminal : Bool
  parser : Parser
  /-- The number of directories that can be gone through one inside the other. -/
  room : Nat
  /-- What stands before a line of the log. -/
  stamp : Text
  /-- The order in which the jobs of some paths come to an end. -/
  doneOrder : List Path → List Path := id

/-- Why a command breaks off. -/
inductive CommandError where
  /-- The settings are not known. -/
  | environment (error : Variables.LoadError)
  | refused (refusal : Refusal)
  | log (fault : LogError)
  /-- The path asked for cannot be looked up, or what lies under it not be listed. -/
  | input (fault : ListingError)
  /-- The number of files to work on at once is held back. -/
  | workersWithheld
  | batch (fault : BatchError)
  | output (fault : Report.WriteFailure)

/-- The words for a command that breaks off. -/
def CommandError.message : CommandError → Text
  | environment error => error.message
  | refused refusal => refusal.message
  | log fault => fault.message
  | input fault => fault.message
  | workersWithheld => "'>' not supported between instances of 'list' and 'int'"
  | batch fault => fault.message
  | output fault => fault.message

/-- What a command leaves. -/
structure CommandResult where
  code : Nat
  stdout : Text
  console : Console
  bar : List BarEvent

/-- A command under way: its arguments, its log, and what it has written so far. -/
structure Session where
  arguments : Arguments
  sink : LogSink
  stamp : Text
  console : Console

namespace Session

/-- Writes rows to the log. -/
def log (session : Session) (rows : List LogRow) : Session :=
  { session with console := session.console.emitRows session.sink session.stamp rows }

/-- Writes to the log how many sources were found. -/
def logFound (session : Session) (listed : List Path) : Session :=
  session.log [⟨.info, "Found " ++ Text.ofNat listed.length ++ " Apex files to process"⟩]

/-- The path whose sources are asked for. -/
def root (session : Session) : Path := .ofText session.arguments.path

/-- Ends the session. -/
def finish (session : Session) (code : Nat) (stdout : Text) (bar : List BarEvent) : CommandResult :=
  ⟨code, stdout, session.console, bar⟩

/-- The log level that the arguments ask for. -/
def levelChoice (arguments : Arguments) : LevelChoice :=
  match arguments.log.level with
  | .value name => .named name
  | .withheld => .withheld

/-- The name of a file that may be held back; none is empty. -/
def fileName (name : Option (Supplied Text)) : Text := (name.bind Supplied.get?).getD []

/-- Reads the command line and sets the log up. -/
def start (found : Surroundings) (vars : Variables) (words : List Text) :
    Except CommandError Session :=
  match Arguments.parse (Settings.ofVariables vars) words with
  | .error refusal => .error (.refused refusal)
  | .ok arguments =>
    match LogSink.setUp found.disk (levelChoice arguments) (fileName arguments.log.file) with
    | (_, .error fault) => .error (.log fault)
    | (disk, .ok sink) => .ok ⟨arguments, sink, found.stamp, .fresh disk⟩

end Session

/-- A command that has extracted what it was asked for, or found that there is nothing at the path. -/
inductive Extracted where
  | absent (result : CommandResult)
  | payloads (session : Session) (payloads : List FilePayload) (bar : List BarEvent)

namespace Command

/-- Extracts the comments of the listed sources, at most `workers` at once. -/
def extractListed (found : Surroundings) (vars : Variables) (session : Session) (workers : Int)
    (listed : List Path) : Except CommandError Extracted :=
  let arguments := session.arguments
  let shown := Bar.isShown (if arguments.noProgress then some true else none)
    (vars.value "APEXDOC_PROGRESS") found.terminal
  match Batch.extractAs ⟨arguments.addressOnly, arguments.everyParam⟩ found.parser
      session.console.disk session.root (max 1 workers) shown listed (found.doneOrder listed) with
  | .error fault => .error (.batch fault)
  | .ok (payloads, bar) => .ok (.payloads (session.log payloads.rows) payloads.value bar)

/-- Extracts the comments of the sources at the path that the session asks for, which is there. -/
def extractAll (found : Surroundings) (vars : Variables) (session : Session) :
    Except CommandError Extracted :=
  let answer := Listing.sources found.room session.console.disk session.root
  let session := session.log answer.rows
  match answer.value with
  | .error fault => .error (.input fault)
  | .ok listed =>
    let session := session.logFound listed
    match session.arguments.parallelFiles with
    | .withheld => .error .workersWithheld
    | .value workers => extractListed found vars session workers listed

/-- Extracts the comments of the sources at the path that the session asks for. -/
def extractIn (found : Surroundings) (vars : Variables) (session : Session) :
    Except CommandError Extracted :=
  match session.console.disk.has session.root with
  | .error fault => .error (.input (.file fault))
  | .ok true => extractAll found vars session
  | .ok false =>
    let session := session.log [⟨.error, "Path does not exist: " ++ session.root.text⟩]
    .ok (.absent (session.finish 2 [] []))

/-- The first part of the command. -/
def extract (found : Surroundings) (words : List Text) : Except CommandError Extracted :=
  match found.vars.load found.disk with
  | .error error => .error (.environment error)
  | .ok vars =>
    match Session.start found vars words with
    | .error fault => .error fault
    | .ok session => extractIn found vars session

/-- The sum of a number over the payloads. -/
def total (count : FilePayload → Nat) (payloads : List FilePayload) : Nat :=
  payloads.foldl (fun sum payload => sum + count payload) 0

/-- The row about what was extracted. -/
def summary (elapsed : Text) (payloads : List FilePayload) : LogRow where
  severity := .info
  message :=
    "Processed " ++ Text.ofNat payloads.length ++ " files in " ++ elapsed ++ "s: " ++
      Text.ofNat (total FilePayload.documentedCount payloads) ++ " of " ++
      Text.ofNat (total FilePayload.declarationCount payloads) ++ " declarations documented"

/-- The second part of the command: reports to the file named, or on standard output. `elapsed` are
the seconds that the first part took. -/
def report (elapsed : Text) : Extracted → Except CommandError CommandResult
  | .absent result => .ok result
  | .payloads session payloads bar =>
    let session := session.log [summary elapsed payloads]
    let document := Report.ofPayloads payloads
    let out := Session.fileName session.arguments.out
    if out.isEmpty then match Report.printed document with
      | .error fault => .error (.output (.document fault))
      | .ok printed => .ok (session.finish 0 printed bar)
    else match Report.write session.console.disk (.ofText out) document with
      | (_, .error fault) => .error (.output fault)
      | (disk, .ok ()) =>
        let session := { session with console := { session.console with disk := disk } }
        .ok ((session.log [⟨.info, "Wrote " ++ out⟩]).finish 0 [] bar)

/-- Runs the command. -/
def run (found : Surroundings) (elapsed : Text) (words : List Text) :
    Except CommandError CommandResult :=
  match extract found words with
  | .error fault => .error fault
  | .ok extracted => report elapsed extracted

end Command

end ApexComments
