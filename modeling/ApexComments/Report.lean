import ApexComments.Extraction
import ApexComments.Json.Printer
import ApexComments.Json.Reader

/-!
# Reports

The payloads of the files are reported as one JSON document: written to a file, or printed with a
line feed after it. A report is read back from the file that holds it.
-/
namespace ApexComments

open Text

/-- A span as a document. -/
def Location.toJson (location : Location) : Json :=
  .object [("start_line", .integer location.startLine),
    ("start_column", .integer location.startColumn),
    ("end_line", .integer location.endLine),
    ("end_column", .integer location.endColumn)]

/-- A map of texts as a document. -/
def textsToJson (map : OrderedMap Text Text) : Json :=
  .object (map.entries.map fun entry => (entry.1, .text entry.2))

/-- A comment as a document. -/
def DocComment.toJson (doc : DocComment) : Json :=
  .object [("location", doc.location.toJson),
    ("description", .text doc.description),
    ("params", textsToJson doc.params),
    ("return_description", .ofText? doc.returnDescription),
    ("author", .ofText? doc.author),
    ("deprecated", .ofText? doc.deprecated),
    ("tags", textsToJson doc.tags),
    ("tag_values",
      .object (doc.tagValues.entries.map fun entry => (entry.1, .array (entry.2.map .text))))]

/-- A documented declaration as a document. -/
def DeclarationRow.toJson (row : DeclarationRow) : Json :=
  .object [("file", .text row.file),
    ("kind", .text row.kind.label),
    ("name", .ofText? row.name),
    ("line", .integer row.line),
    ("anchor_index", .integer row.anchorIndex),
    ("location", row.location.toJson),
    ("doc", match row.doc with
      | none => .null
      | some doc => doc.toJson)]

/-- The payload of a file as a document. -/
def FilePayload.toJson (payload : FilePayload) : Json :=
  .object [("path", .text payload.path),
    ("language", .text FilePayload.language),
    ("total_lines", .integer payload.totalLines),
    ("declaration_count", .integer payload.declarationCount),
    ("documented_count", .integer payload.documentedCount),
    ("docs", .array (payload.docs.map DeclarationRow.toJson))]

namespace Report

/-- Why a report is not written. -/
inductive WriteFailure where
  | file (fault : FileError)
  | document (fault : Json.PrintFault)
  | encoding (error : EncodeError)
  deriving DecidableEq, Repr

/-- The words for a report that is not written. -/
def WriteFailure.message : WriteFailure → Text
  | file fault => fault.label
  | document fault => fault.message
  | encoding error => error.message

/-- Why a report cannot be read back. -/
inductive ReadFailure where
  | file (fault : FileError)
  | encoding (error : Utf8Error)
  | document (source : Text) (error : Json.ReadError)

/-- The report on some files. -/
def ofPayloads (payloads : List FilePayload) : Json := .array (payloads.map FilePayload.toJson)

/-- The printed form of a report. -/
def printed (report : Json) : Except Json.PrintFault Text := report.print.map (· ++ [CodePoint.char '\n'])

/-- Writes a report to a file; the directory of the file is made. The file is opened before the text of the report
is turned into bytes, so it is left empty where that fails. -/
def write (disk : Disk) (path : Path) (report : Json) : Disk × Except WriteFailure Unit :=
  match disk.ensureDirectory path.parent with
  | (disk, .error fault) => (disk, .error (.file fault))
  | (disk, .ok ()) =>
    match report.print with
    | .error fault => (disk, .error (.document fault))
    | .ok source =>
      let encoded := encodeStrict source
      match disk.write path ⟨(encoded.toOption.getD []).toArray⟩ with
      | .error fault => (disk, .error (.file fault))
      | .ok disk => (disk, (encoded.mapError .encoding).map fun _ => ())

/-- Reads the report from the text of a file. -/
def ofText (source : Text) : Except ReadFailure Json :=
  let source := unifyNewlines source
  match Json.parse source with
  | .error error => .error (.document source error)
  | .ok report => .ok report

/-- Reads the report in a file. -/
def read (disk : Disk) (path : Path) : Except ReadFailure Json :=
  match disk.read path with
  | .error fault => .error (.file fault)
  | .ok contents => match decodeStrict contents.toList with
    | .error error => .error (.encoding error)
    | .ok source => ofText source

end Report

end ApexComments
