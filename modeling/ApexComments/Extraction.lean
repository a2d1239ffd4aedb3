import ApexComments.Declaration
import ApexComments.File.Listing
import ApexComments.Progress

/-!
# Extraction

The comments of a file are the rows of its payload: one for each documented declaration. A file that
cannot be read or parsed has a payload without rows. Many files are worked on at once; their payloads
come out in the order in which the files were given, whichever is done first.
-/
namespace ApexComments

open Text

/-- What is asked of an extraction. -/
structure Extraction where
  /-- Only the places of comments, without what they say. -/
  addressOnly : Bool
  /-- Every parameter line of a comment instead of the last one. -/
  everyParam : Bool
  deriving DecidableEq, Repr

/-- A documented declaration of a file. -/
structure DeclarationRow where
  file : Text
  kind : DeclarationKind
  name : Option Text
  line : Int
  anchorIndex : Nat
  location : Location
  doc : Option DocComment
  deriving DecidableEq

/-- What was found in a file. -/
structure FilePayload where
  path : Text
  totalLines : Nat
  declarationCount : Nat
  documentedCount : Nat
  docs : List DeclarationRow
  deriving DecidableEq

namespace FilePayload

/-- The payload of a file of which nothing is known. -/
def minimal (path : Text) : FilePayload := ⟨path, 0, 0, 0, []⟩

/-- The language of the sources. -/
def language : Text := "apex"

end FilePayload

/-- Why a file has no payload. -/
inductive ExtractionError where
  /-- The file does not lie under the root. -/
  | outsideRoot (fault : OutsideRoot)
  /-- A path cannot be looked up. -/
  | path (fault : FileError)
  deriving DecidableEq, Repr

/-- The words for a file without a payload. -/
def ExtractionError.message : ExtractionError → Text
  | outsideRoot fault => fault.message
  | path fault => fault.label

namespace Extraction

/-- A path with slashes for backslashes. -/
def slashed (path : Path) : Text := path.text.map fun c => if c = CodePoint.char '\\' then CodePoint.char '/' else c

/-- The path of a file in its payload: its path under the root with slashes for backslashes, or its
name where the root is a file itself. -/
def payloadPath (disk : Disk) (root file : Path) : Except ExtractionError Text :=
  match disk.isFile root with
  | .error fault => .error (.path fault)
  | .ok true => .ok file.name
  | .ok false => match file.relativeTo root with
    | .error fault => .error (.outsideRoot fault)
    | .ok path => .ok (slashed path)

/-- The text of a source file: ill-formed bytes are dropped and newlines unified. -/
def sourceText (contents : ByteArray) : Text := unifyNewlines (decode contents.toList)

/-- Where the comment of an anchor stands and, unless only that is asked for, the comment. -/
def lookUp (task : Extraction) (stream : TokenStream) (anchor : Anchor) :
    Logged (Option (Location × Option DocComment)) :=
  if task.addressOnly then
    (stream.hiddenTokens.docSpan anchor.index).map (·.map fun location => (location, none))
  else
    (stream.hiddenTokens.docComment task.everyParam anchor.index).map
      (·.map fun doc => (doc.location, some doc))

/-- The row of an anchor, if it is documented. -/
def row (task : Extraction) (file : Text) (stream : TokenStream) (anchor : Anchor) :
    Logged (Option DeclarationRow) :=
  (task.lookUp stream anchor).map (·.map fun (location, doc) =>
    ⟨file, anchor.kind, anchor.name, anchor.line, anchor.index, location, doc⟩)

/-- The payload of a scanned source. -/
def ofScan (task : Extraction) (file source : Text) (scan : Scan) : Logged FilePayload :=
  (Logged.all (scan.anchors.map (task.row file scan.stream))).map fun rows =>
    let docs := rows.filterMap id
    ⟨file, lineCount source, scan.anchors.length, docs.length, docs⟩

/-- The payload of a source text. -/
def ofSource (task : Extraction) (parser : Parser) (file source : Text) : Logged FilePayload :=
  match Scan.ofSource parser source with
  | .error fault =>
    ⟨.minimal file, [⟨.warning, "Tokenization failed for " ++ file ++ ": " ++ fault.message⟩]⟩
  | .ok scan => scan.andThen (task.ofScan file source)

/-- The payload of what reading a file gave; `file` is its path in the payload. A path that is not
even looked up gives none. -/
def ofContents (task : Extraction) (parser : Parser) (path : Path) (file : Text) :
    Except FileError ByteArray → Except ExtractionError (Logged FilePayload)
  | .error fault =>
    if fault.number?.isNone then .error (.path fault)
    else .ok ⟨.minimal file, [⟨.error, "Error reading file " ++ path.text ++ ": " ++ fault.message path.text⟩]⟩
  | .ok contents => .ok (task.ofSource parser file (sourceText contents))

/-- The payload of a file. -/
def ofFile (task : Extraction) (parser : Parser) (disk : Disk) (root path : Path) :
    Except ExtractionError (Logged FilePayload) :=
  match payloadPath disk root path with
  | .error fault => .error fault
  | .ok file => task.ofContents parser path file (disk.read path)

end Extraction

/-- Why a batch of files has no payloads. -/
inductive BatchError where
  /-- There is no worker to do the work. -/
  | noWorkers
  /-- A file has no payload. -/
  | file (fault : ExtractionError)
  deriving DecidableEq, Repr

/-- The words for a batch that failed. -/
def BatchError.message : BatchError → Text
  | noWorkers => "max_workers must be greater than 0"
  | file fault => fault.message

namespace Batch

/-- The results of the jobs that are done, by path, as they come in. -/
def collect {α : Type} (done : List (Path × α)) : OrderedMap Path α := .ofList done

/-- The results in the order in which the paths were given. -/
def inInputOrder {α : Type} (paths : List Path) (results : OrderedMap Path α) : List α :=
  paths.filterMap results.get?

/-- Runs the jobs of all paths in order, up to the first that fails. -/
def runAll (job : Path → Except ExtractionError (Logged FilePayload)) :
    List Path → Except ExtractionError (Logged (List (Path × FilePayload)))
  | [] => .ok (.quiet [])
  | path :: rest =>
    match job path with
    | .error fault => .error fault
    | .ok payload => (runAll job rest).map fun later =>
        payload.andThen fun value => later.map ((path, value) :: ·)

/-- The payloads of many files, one for each path given, with what the progress bar shows. The results
are taken as the jobs come to an end; `done` are the paths of the jobs in that order. -/
def extractAs (task : Extraction) (parser : Parser) (disk : Disk) (root : Path) (workers : Int)
    (barShown : Bool) (paths done : List Path) :
    Except BatchError (Logged (List FilePayload) × List BarEvent) :=
  if paths.isEmpty then .ok (.quiet [], [])
  else if workers < 1 then .error .noWorkers
  else
    let (taken, bar) := Bar.take barShown ⟨some paths.length, some "Extracting ApexDoc", "file"⟩ none done
    match runAll (task.ofFile parser disk root) taken with
    | .error fault => .error (.file fault)
    | .ok results => .ok (results.map fun results => inInputOrder paths (collect results), bar)

/-- The payloads of many files whose jobs come to an end in the order given. -/
def extract (task : Extraction) (parser : Parser) (disk : Disk) (root : Path) (workers : Int)
    (barShown : Bool) (paths : List Path) : Except BatchError (Logged (List FilePayload) × List BarEvent) :=
  extractAs task parser disk root workers barShown paths paths

end Batch

end ApexComments
