import ApexComments.Command.Run
import Std.Time.Format
import Std.Time.Zoned

/-!
# The program

Reads the files and the environment, runs the command on them, and writes what it leaves. Sources are
parsed by the parser for comments, semicolons and blanks; a full grammar takes its place by giving
another parser.
-/
namespace ApexComments.Main

open Text

/-- The path of a place from the top, without the surrogates of its names. -/
def systemPath (place : List Text) : String := characters ("/" ++ joinWith "/" place)
where
  /-- The characters of a text. -/
  characters (text : Text) : String := String.ofList <| text.filterMap fun
    | .char c => some c
    | .surrogate _ => none

/-- Whether a file found in a directory is read. -/
def isWanted (name : Text) : Bool := Path.isSourceName name || name == ".env"

/-- The tree at a path of the file system, down to a depth. Of the files below the path, only those
that are wanted are read. -/
def snapshot (depth : Nat) (path : String) : IO (Option FileTree) := do
  let place := (← IO.currentDir) / path
  if ← place.isDir then
    match depth with
    | 0 => return some (.directory [])
    | depth + 1 =>
      let entries ← (← place.readDir).toList.filterMapM fun entry => do
        let name := Text.ofString entry.fileName
        let below := place / entry.fileName
        if isWanted name || (← below.isDir) then
          return (← snapshot depth below.toString).map (name, ·)
        else return some (name, .file .empty)
      return some (.directory entries)
  else if ← place.pathExists then
    return some (.file (← IO.FS.readBinFile place))
  else return none

/-- Puts what is at a place into a tree, with the directories that lead to it. What the tree holds
there stays unless more than the place itself is asked for. -/
def addPlace (depth : Nat) (tree : FileTree) (place : List Text) : IO FileTree := do
  if depth = 0 && (tree.at? place).isSome then return tree
  match ← snapshot depth (systemPath place) with
  | none => return tree
  | some found => return tree.putAt found place

/-- The place that components lead to where every directory on the way is there. -/
def settled (components : List Text) : List Text :=
  components.foldl (fun place c => if c = (".." : Text) then place.dropLast else place ++ [c]) []

/-- The components from the top of what words may name, whole or after an equals sign. -/
def named (directory : List Text) (words : List Text) : List (List Text) :=
  let names := words ++ words.filterMap fun word => (Usage.splitAtEquals word).2
  names.map fun name =>
    let path := Path.ofText name
    if path.rooted then path.components else directory ++ path.components

/-- The directories that are gone through one inside the other. -/
def room : Nat := 990

/-- The part of the file system that a command may look at: the variable files at and above the
working directory, and what its words name with all on the way there. -/
def loadDisk (words : List Text) : IO Disk := do
  let directory := (Path.ofText (Text.ofString (← IO.currentDir).toString)).components
  let starts (components : List Text) :=
    (List.range (components.length + 1)).map fun n => components.take n
  let places := named directory words
  let tree := (FileTree.directory []).putAt (.directory []) directory
  let tree ← (places.map settled).foldlM (addPlace room) tree
  let tree ← ((places.flatMap starts).map settled).foldlM (addPlace 0) tree
  let tree ← ((starts directory).map (· ++ [(".env" : Text)])).foldlM (addPlace 0) tree
  return .free tree directory

/-- Writes the files that differ from those found. -/
def store (before after : FileTree) : IO Unit :=
  for (place, contents) in after.files do
    let same := match before.at? place with
      | some (.file old) => old.data == contents.data
      | _ => false
    if !same then
      let path := (← IO.currentDir) / systemPath place
      if let some directory := path.parent then IO.FS.createDirAll directory
      IO.FS.writeBinFile path contents

/-- The variables that the command knows. -/
def loadVariables : IO Variables :=
  ["APEXDOC_MULTI_PARAM", "APEXDOC_PARALLEL_FILES", "APEXDOC_LOG_LEVEL", "APEXDOC_PROGRESS"].filterMapM
    fun name => do return (← IO.getEnv name).map fun value => (Text.ofString name, Text.ofString value)

/-- Writes a text, in which a surrogate stands for a byte as in the name of a file. -/
def put (stream : IO.FS.Stream) (text : Text) : IO Unit := stream.write ⟨(nameBytes text).toArray⟩

/-- Seconds with two places. -/
def seconds (milliseconds : Nat) : Text :=
  let hundredths := (milliseconds + 5) / 10
  ofNat (hundredths / 100) ++ "." ++ ofNat (hundredths / 10 % 10) ++ ofNat (hundredths % 10)

/-- Says why the command breaks off. -/
def complain (fault : CommandError) : IO UInt32 := do
  put (← IO.getStderr) ("error: " ++ fault.message ++ "\n")
  match fault with
  | .refused .helpWanted => return 0
  | .refused _ => return 2
  | _ => return 1

end ApexComments.Main

open ApexComments ApexComments.Main in
/-- Runs the command on the words of the command line. -/
def main (arguments : List String) : IO UInt32 := do
  let words := arguments.map Text.ofString
  let disk ← loadDisk words
  let now ← Std.Time.PlainDateTime.now
  let found : Surroundings :=
    { disk := disk
      vars := ← loadVariables
      terminal := ← (← IO.getStderr).isTty
      parser := Trivia.parse
      room := room
      stamp := Text.ofString (now.format "uuuu-MM-dd HH:mm:ss,SSS ") }
  let started ← IO.monoMsNow
  match Command.extract found words with
  | .error fault => complain fault
  | .ok extracted =>
    match Command.report (seconds ((← IO.monoMsNow) - started)) extracted with
    | .error fault => complain fault
    | .ok result =>
      store disk.root result.console.disk.root
      put (← IO.getStderr) result.console.stderr
      put (← IO.getStdout) result.stdout
      return result.code.toUInt32
