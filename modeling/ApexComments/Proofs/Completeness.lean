import ApexComments.Proofs.Listings
import ApexComments.Proofs.Rows

/-!
# No documented declaration is lost

A lookup that fails reads like a declaration without a comment. Anchors stand at significant tokens, where no
lookup fails, and no step of decoding a comment does; so the rows of a payload are those of all documented
anchors, and nothing is logged but what the scan itself logs (`Extraction.ofFile_complete`).
-/
namespace ApexComments

open Text

namespace TokenStream

variable {stream : TokenStream} {i : Nat} {anchor doc : Token}

/-- The last documentation comment of the hidden run before an index. -/
def LastDoc (stream : TokenStream) (i : Int) (doc : Token) : Prop :=
  stream.RunBefore i doc ∧ Comment.isDoc doc.text = true ∧
    ∀ other, stream.RunBefore i other → Comment.isDoc other.text = true → other.index ≤ doc.index

/-- There is no documentation comment in the hidden run before an index. -/
def NoDoc (stream : TokenStream) (i : Int) : Prop :=
  ∀ token, stream.RunBefore i token → Comment.isDoc token.text = false

/-- At a significant token the lookup succeeds, with or without a comment. -/
theorem nearestDoc_of_significant (got : stream.get i = .ok anchor) (shown : anchor.isHidden = false) :
    (∃ doc, stream.hiddenTokens.nearestDoc i = .ok (some doc) ∧ stream.LastDoc i doc) ∨
      (stream.hiddenTokens.nearestDoc i = .ok none ∧ stream.NoDoc i) := by
  obtain ⟨member, index⟩ := get_eq_ok_iff.mp got
  obtain ⟨k, -, inside, isIndex⟩ := exists_index_of_mem member
  obtain rfl : i = k := by omega
  have run (token : Token) : token ∈ stream.candidates i ↔ stream.RunBefore i token :=
    mem_candidates_of_significant inside member index shown
  cases found : HiddenTokens.latest? ((stream.candidates i).filter fun token => Comment.isDoc token.text) with
  | none =>
    have nearest : stream.hiddenTokens.nearestDoc i = .ok none := by rw [nearestDoc_of_inside inside, found]
    refine .inr ⟨nearest, ?_⟩
    intro token before
    exact (nearestDoc_eq_none_iff inside).mp nearest token ((run token).mpr before)
  | some doc =>
    have nearest : stream.hiddenTokens.nearestDoc i = .ok (some doc) := by rw [nearestDoc_of_inside inside, found]
    obtain ⟨candidate, isDoc, last⟩ := (nearestDoc_eq_some_iff inside).mp nearest
    refine .inl ⟨doc, nearest, (run doc).mp candidate, isDoc, ?_⟩
    intro other before
    exact last other ((run other).mpr before)

end TokenStream

theorem Logged.rows_all {α : Type} (computations : List (Logged α)) :
    (Logged.all computations).rows = computations.flatMap Logged.rows := by
  induction computations with
  | nil => rfl
  | cons logged rest ih =>
    rw [List.flatMap_cons, ← ih]
    rfl

namespace Extraction

variable {task : Extraction} {file source : Text} {stream : TokenStream} {anchor : Anchor} {anchors : List Anchor}

theorem row_of_nearestDoc {found : Option Token} (nearest : stream.hiddenTokens.nearestDoc anchor.index = .ok found) :
    task.row file stream anchor = .quiet (found.map (task.rowOf file anchor)) := by
  obtain ⟨addressOnly, everyParam⟩ := task
  cases addressOnly with
  | true =>
    simp only [row, lookUp, HiddenTokens.docSpan, nearest, if_true]
    cases found <;> rfl
  | false =>
    simp only [row, lookUp, HiddenTokens.docComment, nearest, Bool.false_eq_true, if_false]
    cases found <;> rfl

/-- The rows are one for each anchor with a documentation comment in the hidden run before it, in the order of
the anchors, and each has the last such comment. -/
inductive Covers (task : Extraction) (file : Text) (stream : TokenStream) : List Anchor → List DeclarationRow → Prop
  | nil : Covers task file stream [] []
  | documented {anchor : Anchor} {doc : Token} {anchors : List Anchor} {rows : List DeclarationRow}
      (last : stream.LastDoc anchor.index doc) (rest : Covers task file stream anchors rows) :
      Covers task file stream (anchor :: anchors) (task.rowOf file anchor doc :: rows)
  | bare {anchor : Anchor} {anchors : List Anchor} {rows : List DeclarationRow}
      (undocumented : stream.NoDoc anchor.index) (rest : Covers task file stream anchors rows) :
      Covers task file stream (anchor :: anchors) rows

/-- The anchors stand at significant tokens. -/
def Anchored (stream : TokenStream) (anchors : List Anchor) : Prop :=
  ∀ anchor ∈ anchors, ∃ token, stream.get anchor.index = .ok token ∧ token.isHidden = false

theorem covers_rows (anchored : Anchored stream anchors) :
    Covers task file stream anchors (anchors.filterMap fun anchor => (task.row file stream anchor).value) := by
  induction anchors with
  | nil => exact .nil
  | cons anchor anchors ih =>
    obtain ⟨⟨token, got, shown⟩, others⟩ := List.forall_mem_cons.mp anchored
    have rest := ih others
    rw [List.filterMap_cons]
    rcases TokenStream.nearestDoc_of_significant got shown with ⟨doc, nearest, last⟩ | ⟨nearest, undocumented⟩
    · rw [row_of_nearestDoc nearest]
      exact .documented last rest
    · rw [row_of_nearestDoc nearest]
      exact .bare undocumented rest

theorem exists_nearestDoc (anchored : Anchored stream anchors) (member : anchor ∈ anchors) :
    ∃ found, stream.hiddenTokens.nearestDoc anchor.index = .ok found := by
  obtain ⟨token, got, shown⟩ := anchored anchor member
  rcases TokenStream.nearestDoc_of_significant got shown with ⟨doc, nearest, -⟩ | ⟨nearest, -⟩
  · exact ⟨some doc, nearest⟩
  · exact ⟨none, nearest⟩

theorem rows_ofScan {scan : Scan} (anchored : Anchored scan.stream scan.anchors) :
    (task.ofScan file source scan).rows = [] := by
  show (Logged.all _).rows = []
  rw [Logged.rows_all, List.flatMap_map, List.flatMap_eq_nil_iff]
  intro anchor member
  obtain ⟨found, nearest⟩ := exists_nearestDoc anchored member
  rw [row_of_nearestDoc nearest]
  rfl

theorem anchored_ofTree (bytes : Array UInt8) (tree : SyntaxTree) :
    Anchored (Scan.ofTree bytes tree).value.stream (Scan.ofTree bytes tree).value.anchors := by
  intro anchor member
  obtain ⟨token, got, shown, -⟩ := Scan.exists_token_of_mem_anchors member
  exact ⟨token, got, shown⟩

/-- The payload of a parsed source tells of every declaration: no step of the scan, of a lookup or of decoding a
comment fails, and nothing is logged but what the scan logs. -/
structure Tells (task : Extraction) (file source : Text) (tree : SyntaxTree) (logged : Logged FilePayload) : Prop where
  scanned : Scan.checked (utf8 source).toArray tree = .ok (Scan.ofTree (utf8 source).toArray tree).value
  path : logged.value.path = file
  lines : logged.value.totalLines = lineCount source
  declarations : logged.value.declarationCount = (Scan.ofTree (utf8 source).toArray tree).value.anchors.length
  documented : logged.value.documentedCount = logged.value.docs.length
  covered : Covers task file (Scan.ofTree (utf8 source).toArray tree).value.stream
    (Scan.ofTree (utf8 source).toArray tree).value.anchors logged.value.docs
  found : ∀ anchor ∈ (Scan.ofTree (utf8 source).toArray tree).value.anchors,
    ∃ found, (TokenStream.ofTree (utf8 source).toArray tree).hiddenTokens.nearestDoc anchor.index = .ok found ∧
      ∀ doc ∈ found, ∃ comment, DocComment.checked doc task.everyParam = .ok comment
  quiet : logged.rows = (Scan.ofTree (utf8 source).toArray tree).rows

/-- The payload of what reading a file gave: a minimal one where the file could not be read or parsed, and else
one that tells of every declaration. -/
def Complete (task : Extraction) (parser : Parser) (file : Text) (logged : Logged FilePayload) :
    Except FileError ByteArray → Prop
  | .error _ => logged.value = .minimal file
  | .ok contents => match parser (utf8 (sourceText contents)) with
    | .error _ => logged.value = .minimal file
    | .ok tree => task.Tells file (sourceText contents) tree logged

theorem tells_ofSource {parser : Parser} {tree : SyntaxTree} (parsed : parser (utf8 source) = .ok tree) :
    task.Tells file source tree (task.ofSource parser file source) := by
  have anchored := anchored_ofTree (utf8 source).toArray tree
  have scan : task.ofSource parser file source =
      (Scan.ofTree (utf8 source).toArray tree).andThen (task.ofScan file source) := by
    rw [ofSource, Scan.ofSource, parsed]
    rfl
  rw [scan]
  refine ⟨Scan.checked_eq _ tree, rfl, rfl, rfl, rfl, ?_, ?_, ?_⟩
  · show Covers task file _ _ (task.ofScan file source (Scan.ofTree (utf8 source).toArray tree).value).value.docs
    rw [docs_ofScan]
    exact covers_rows anchored
  · intro anchor member
    obtain ⟨found, nearest⟩ := exists_nearestDoc anchored member
    exact ⟨found, nearest, fun doc _ => ⟨_, DocComment.checked_eq doc task.everyParam⟩⟩
  · show _ ++ (task.ofScan file source _).rows = _
    rw [rows_ofScan anchored, List.append_nil]

theorem complete_ofContents (parser : Parser) (path : Path) (file : Text) {reading : Except FileError ByteArray}
    (numbered : ∀ fault, reading = .error fault → fault.number? ≠ none) :
    ∃ logged, task.ofContents parser path file reading = .ok logged ∧ task.Complete parser file logged reading := by
  cases reading with
  | error fault =>
    have some : fault.number?.isNone = false :=
      Option.isNone_eq_false_iff.mpr (Option.ne_none_iff_isSome.mp (numbered fault rfl))
    have minimal : task.ofContents parser path file (.error fault) = .ok ⟨.minimal file,
        [⟨.error, "Error reading file " ++ path.text ++ ": " ++ fault.message path.text⟩]⟩ := by
      rw [ofContents, some]
      rfl
    exact ⟨_, minimal, rfl⟩
  | ok contents =>
    refine ⟨_, rfl, ?_⟩
    rw [Complete]
    cases parsed : parser (utf8 (sourceText contents)) with
    | error fault =>
      show (task.ofSource parser file (sourceText contents)).value = .minimal file
      simp [ofSource, Scan.ofSource, parsed, Except.map]
    | ok tree => exact tells_ofSource parsed

/-- A file has no payload if its path cannot even be looked up, and none if its root cannot be asked about. -/
theorem exists_ofFile_iff (task : Extraction) (parser : Parser) (disk : Disk) (root : Path) (names : List Text) :
    (∃ logged, task.ofFile parser disk root (root.below names) = .ok logged) ↔
      (∃ answer, disk.isFile root = .ok answer) ∧ Disk.unusable? (root.below names).text = none := by
  refine ⟨fun ⟨logged, extracted⟩ => ⟨?_, ?_⟩, fun ⟨asked, usable⟩ => exists_ofFile_below asked usable⟩
  · cases asked : disk.isFile root with
    | ok answer => exact ⟨answer, rfl⟩
    | error fault =>
      rw [ofFile, payloadPath, asked] at extracted
      cases extracted
  · cases unusable : Disk.unusable? (root.below names).text with
    | none => rfl
    | some fault =>
      have reading : disk.read (root.below names) = .error fault := by
        rw [Disk.read, Disk.reach, Disk.place, unusable]
      rw [ofFile, reading] at extracted
      cases located : payloadPath disk root (root.below names) with
      | error outside => simp [located] at extracted
      | ok file => simp [located, ofContents, Disk.number?_of_unusable unusable] at extracted

/-- Whatever reading a file gives, unless its path cannot even be looked up, and whatever the parser does, the
payload is complete. So a file has a complete payload wherever its root can be asked about and its path be looked up,
and none elsewhere; a root that was there once can be asked about as long as the system refuses no more. -/
theorem ofFile_complete (task : Extraction) (parser : Parser) :
    (∀ (path : Path) (file : Text) (reading : Except FileError ByteArray),
      (∀ fault, reading = .error fault → fault.number? ≠ none) →
      ∃ logged, task.ofContents parser path file reading = .ok logged ∧ task.Complete parser file logged reading) ∧
    (∀ (disk : Disk) (root : Path) (names : List Text), (∃ answer, disk.isFile root = .ok answer) →
      Disk.unusable? (root.below names).text = none →
      ∃ file logged, payloadPath disk root (root.below names) = .ok file ∧
        task.ofFile parser disk root (root.below names) = .ok logged ∧
        task.Complete parser file logged (disk.read (root.below names))) ∧
    (∀ (disk : Disk) (root : Path) (names : List Text),
      (∃ logged, task.ofFile parser disk root (root.below names) = .ok logged) ↔
        (∃ answer, disk.isFile root = .ok answer) ∧ Disk.unusable? (root.below names).text = none) ∧
    ∀ (known disk : Disk) (root : Path) (tree : FileTree), known.find root = .ok tree → disk.OpenAs known →
      ∃ answer, disk.isFile root = .ok answer := by
  refine ⟨fun path file reading numbered => complete_ofContents parser path file numbered, ?_,
    exists_ofFile_iff task parser, fun known disk root tree found granted => granted.exists_isFile found⟩
  intro disk root names asked usable
  obtain ⟨file, located⟩ := exists_payloadPath_below asked names
  obtain ⟨logged, extracted, complete⟩ := @complete_ofContents task parser (root.below names) file
    (disk.read (root.below names)) fun fault failed => Disk.number?_of_read usable failed
  exact ⟨file, logged, located, by rw [ofFile, located]; exact extracted, complete⟩

/-- A documented class and another one behind it. -/
private def halfDocumented : Text := "/***/c d"

private def halfDocumentedTree : SyntaxTree :=
  .node (Trivia.leaf "program" 0 8) [.node (Trivia.leaf "block_comment" 0 5) [],
    .node (Trivia.leaf "class_declaration" 5 6) [], .node (Trivia.leaf "class_declaration" 7 8) []]

private def halfDocumentedFile : ByteArray := ⟨#[47, 42, 42, 42, 47, 99, 32, 100]⟩

private def halfDocumentedDisk : Disk := .free (.directory [("a.cls", .file halfDocumentedFile)]) []

private theorem sourceText_halfDocumentedFile : sourceText halfDocumentedFile = halfDocumented := by decide +kernel

private theorem anchors_halfDocumented :
    (Scan.ofTree (utf8 halfDocumented).toArray halfDocumentedTree).value.anchors =
      [⟨.classType, none, 1, 1⟩, ⟨.classType, none, 3, 1⟩] :=
  List.mergeSort_of_pairwise (by decide)

/-- Of two classes one has a row; a file that is not there has a payload too. -/
theorem ofFile_complete_half_documented :
    (∃ logged, ofFile ⟨true, false⟩ (fun _ => .ok halfDocumentedTree) halfDocumentedDisk ⟨false, []⟩
        ⟨false, ["a.cls"]⟩ = .ok logged ∧ logged.value.declarationCount = 2 ∧
        logged.value.docs.map (fun row => (row.anchorIndex, row.location)) = [(1, ⟨1, 0, 1, 5⟩)]) ∧
    ∃ logged, ofFile ⟨true, false⟩ (fun _ => .ok halfDocumentedTree) halfDocumentedDisk ⟨false, []⟩
        ⟨false, ["b.cls"]⟩ = .ok logged ∧ logged.value = .minimal "b.cls" := by
  obtain ⟨-, complete, -, asked⟩ := ofFile_complete ⟨true, false⟩ (fun _ => .ok halfDocumentedTree)
  have here := asked halfDocumentedDisk halfDocumentedDisk ⟨false, []⟩ halfDocumentedDisk.root rfl (.refl _)
  constructor
  · obtain ⟨file, logged, located, extracted, tells⟩ := complete halfDocumentedDisk ⟨false, []⟩ ["a.cls"] here rfl
    obtain rfl : ("a.cls" : Text) = file := Except.ok.inj located
    have counted := Tells.declarations tells
    have rows := docs_ofScan ⟨true, false⟩ "a.cls" halfDocumented
      (Scan.ofTree (utf8 halfDocumented).toArray halfDocumentedTree).value
    rw [sourceText_halfDocumentedFile, anchors_halfDocumented] at counted
    rw [anchors_halfDocumented] at rows
    obtain rfl : ofSource ⟨true, false⟩ (fun _ => .ok halfDocumentedTree) "a.cls"
        (sourceText halfDocumentedFile) = logged := Except.ok.inj extracted
    rw [sourceText_halfDocumentedFile] at extracted counted
    exact ⟨_, extracted, counted, congrArg (List.map fun row => (row.anchorIndex, row.location)) rows⟩
  · obtain ⟨file, logged, located, extracted, minimal⟩ := complete halfDocumentedDisk ⟨false, []⟩ ["b.cls"] here rfl
    obtain rfl : ("b.cls" : Text) = file := Except.ok.inj located
    exact ⟨logged, extracted, minimal⟩

private def deepName : Text := List.replicate 250 'n'

private def deepDisk : Disk := .free (.directory [(deepName, .directory [("A.cls", .file .empty)])]) []

/-- The way into the directory and back out of it, sixteen times, and into it at last. -/
private def deepRoot : Path := ⟨false, (List.replicate 16 [deepName, (['.', '.'] : Text)]).flatten ++ [deepName]⟩

/-- A directory in one that may not be searched. -/
private def shutDisk : Disk where
  root := .directory [("p", .directory [("q", .directory [("A.cls", .file .empty)])])]
  workingDirectory := []
  refusal access place := if access = .search ∧ place = ["p"] then some .permissionDenied else none

/-- A file that is there has no payload where its root has a path that is too long, or lies in a directory that may not
be searched. -/
theorem ofFile_fails_beyond_access :
    deepDisk.walk [] deepRoot.components = .ok [deepName] ∧
    deepDisk.root.at? [deepName, "A.cls"] = some (.file .empty) ∧
    (∀ parser : Parser, ofFile ⟨false, false⟩ parser deepDisk deepRoot (deepRoot.below ["A.cls"]) =
      .error (.path .nameTooLong)) ∧
    shutDisk.root.at? ["p", "q", "A.cls"] = some (.file .empty) ∧
    (∀ parser : Parser,
      ofFile ⟨false, false⟩ parser shutDisk ⟨false, ["p", "q"]⟩ ⟨false, ["p", "q", "A.cls"]⟩ =
        .error (.path (.refused .permissionDenied))) := by
  have asked : deepDisk.isFile deepRoot = .error .nameTooLong := by decide +kernel
  refine ⟨by decide +kernel, by simp [deepDisk, Disk.free, FileTree.at?], ?_, rfl, fun _ => rfl⟩
  intro parser
  rw [ofFile, payloadPath, asked]

end Extraction

end ApexComments
