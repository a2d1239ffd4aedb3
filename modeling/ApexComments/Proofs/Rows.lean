import ApexComments.Extraction
import ApexComments.Proofs.AddressOnly
import ApexComments.Proofs.Places
import Mathlib.Data.List.Pairwise

/-!
# The rows of a payload

A payload has a row for each anchor that has a documentation comment, in the order of the anchors
(`docs_ofScan`, `row_eq_some`). The comment of an anchor lies in the hidden run before it. Runs before
different significant tokens are apart, so where the syntax tree cuts no character the comments of
different anchors do not overlap, and the rows are in the order of their comments.
-/
namespace ApexComments

open Text

namespace Extraction

variable {task : Extraction}

/-- The row of an anchor with the given documentation comment. -/
def rowOf (task : Extraction) (file : Text) (anchor : Anchor) (doc : Token) : DeclarationRow where
  file := file
  kind := anchor.kind
  name := anchor.name
  line := anchor.line
  anchorIndex := anchor.index
  location := .ofToken doc
  doc := if task.addressOnly then none else some (.ofToken doc task.everyParam)

theorem row_eq_some {file : Text} {stream : TokenStream} {anchor : Anchor} {row : DeclarationRow}
    (found : (task.row file stream anchor).value = some row) :
    ∃ doc, stream.hiddenTokens.nearestDoc anchor.index = .ok (some doc) ∧ row = task.rowOf file anchor doc := by
  obtain ⟨addressOnly, everyParam⟩ := task
  obtain ⟨⟨location, comment⟩, answer, rfl⟩ := Option.map_eq_some_iff.mp found
  cases addressOnly with
  | true =>
    obtain ⟨span, given, same⟩ := Option.map_eq_some_iff.mp answer
    obtain ⟨doc, nearest, rfl⟩ := HiddenTokens.orAbsent_eq_some given
    obtain ⟨rfl, rfl⟩ := Prod.mk.inj same
    exact ⟨doc, nearest, rfl⟩
  | false =>
    obtain ⟨decoded, given, same⟩ := Option.map_eq_some_iff.mp answer
    obtain ⟨doc, nearest, rfl⟩ := HiddenTokens.orAbsent_eq_some given
    obtain ⟨rfl, rfl⟩ := Prod.mk.inj same
    exact ⟨doc, nearest, rfl⟩

theorem docs_ofScan (task : Extraction) (file source : Text) (scan : Scan) :
    (task.ofScan file source scan).value.docs =
      scan.anchors.filterMap fun anchor => (task.row file scan.stream anchor).value := by
  simp only [ofScan, Logged.map, Logged.value_all, List.map_map, List.filterMap_map]
  rfl

/-- A payload with rows is that of a source that was read and parsed. -/
theorem ofFile_eq_ok {parser : Parser} {disk : Disk} {root path : Path} {logged : Logged FilePayload}
    (extracted : task.ofFile parser disk root path = .ok logged) :
    logged.value.docs = [] ∨ ∃ contents tree file, disk.read path = .ok contents ∧
      parser (utf8 (sourceText contents)) = .ok tree ∧
      logged.value = (task.ofScan file (sourceText contents)
        (Scan.ofTree (utf8 (sourceText contents)).toArray tree).value).value := by
  rw [ofFile] at extracted
  cases located : payloadPath disk root path with
  | error fault => simp [located] at extracted
  | ok file =>
    simp only [located] at extracted
    cases reading : disk.read path with
    | error fault =>
      rw [reading, ofContents] at extracted
      split at extracted
      · cases extracted
      · obtain rfl := Except.ok.inj extracted
        exact .inl rfl
    | ok contents =>
      rw [reading] at extracted
      obtain rfl := Except.ok.inj extracted
      cases parsed : parser (utf8 (sourceText contents)) with
      | error fault =>
        refine .inl ?_
        simp [ofSource, Scan.ofSource, parsed, Except.map, FilePayload.minimal]
      | ok tree =>
        refine .inr ⟨contents, tree, file, rfl, parsed, ?_⟩
        simp [ofSource, Scan.ofSource, parsed, Except.map, Logged.andThen]

end Extraction

/-! ## Comments apart -/

namespace DeclarationRow

/-- Two rows of one anchor, with the same line, place and comment. -/
def SameComment (row other : DeclarationRow) : Prop :=
  row.anchorIndex = other.anchorIndex ∧ row.line = other.line ∧ row.location = other.location ∧ row.doc = other.doc

/-- The comment of a row ends before that of another, whose anchor is a later one. -/
def Before (row later : DeclarationRow) : Prop :=
  row.anchorIndex < later.anchorIndex ∧ row.location.stop < later.location.start

/-- The comments of two rows of different anchors share no place. -/
def Apart (row other : DeclarationRow) : Prop :=
  row.anchorIndex ≠ other.anchorIndex → ∀ place, row.location.Holds place → ¬ other.location.Holds place

instance : Std.Symm Apart where
  symm := fun _ _ apart different place inOther inRow => apart (Ne.symm different) place inRow inOther

theorem Before.apart {row later : DeclarationRow} (before : row.Before later) : row.Apart later := by
  rintro - place ⟨-, inside⟩ ⟨after, -⟩
  exact lt_irrefl place ((inside.trans before.2).trans_le after)

end DeclarationRow

namespace Extraction

variable {task : Extraction} {stream : TokenStream} {file : Text} {anchor later : Anchor} {token laterToken : Token}
  {row laterRow : DeclarationRow}

theorem sameComment_of_index_eq (got : stream.get anchor.index = .ok token)
    (gotLater : stream.get later.index = .ok laterToken) (line : anchor.line = token.line)
    (laterLine : later.line = laterToken.line) (same : anchor.index = later.index)
    (found : (task.row file stream anchor).value = some row)
    (foundLater : (task.row file stream later).value = some laterRow) : row.SameComment laterRow := by
  obtain ⟨doc, nearest, rfl⟩ := row_eq_some found
  obtain ⟨laterDoc, laterNearest, rfl⟩ := row_eq_some foundLater
  rw [same, gotLater] at got
  rw [same, laterNearest] at nearest
  obtain rfl := Except.ok.inj got
  obtain rfl := Option.some.inj (Except.ok.inj nearest)
  exact ⟨same, line.trans laterLine.symm, rfl, rfl⟩

/-- The anchor itself stands between its comment and the comment of a later anchor. -/
theorem before_of_index_lt (contiguous : stream.Contiguous) (got : stream.get anchor.index = .ok token)
    (gotLater : stream.get later.index = .ok laterToken) (shown : token.isHidden = false)
    (laterShown : laterToken.isHidden = false) (order : anchor.index < later.index)
    (found : (task.row file stream anchor).value = some row)
    (foundLater : (task.row file stream later).value = some laterRow) : row.Before laterRow := by
  obtain ⟨doc, nearest, rfl⟩ := row_eq_some found
  obtain ⟨laterDoc, laterNearest, rfl⟩ := row_eq_some foundLater
  obtain ⟨member, index⟩ := TokenStream.get_eq_ok_iff.mp got
  obtain ⟨isDoc, before, -⟩ := TokenStream.runBefore_of_nearestDoc got shown nearest
  obtain ⟨isLaterDoc, -, between⟩ := TokenStream.runBefore_of_nearestDoc gotLater laterShown laterNearest
  have passed : token.index < laterDoc.index := by
    by_contra inside
    have hidden := between token member (by omega) (by omega)
    simp [hidden] at shown
  refine ⟨order, ?_⟩
  calc (Location.ofToken doc).stop
      ≤ token.place := contiguous.stop_le_place isDoc member (by omega)
    _ < laterDoc.place := contiguous.place_lt_place member isLaterDoc passed

theorem pairwise_docs_ofScan {source : Text} {tree : SyntaxTree}
    (aligned : tree.Every fun node => Boundary source node.start ∧ Boundary source node.stop) :
    (task.ofScan file source (Scan.ofTree (utf8 source).toArray tree).value).value.docs.Pairwise
      fun row later => row.SameComment later ∨ row.Before later := by
  rw [docs_ofScan]
  refine List.Pairwise.filterMap _ (fun _ _ each => each) ((Scan.pairwise_index_anchors _ tree).imp_of_mem ?_)
  intro anchor later member laterMember order row found laterRow foundLater
  obtain ⟨token, got, shown, line⟩ := Scan.exists_token_of_mem_anchors member
  obtain ⟨laterToken, gotLater, laterShown, laterLine⟩ := Scan.exists_token_of_mem_anchors laterMember
  rcases Nat.lt_or_eq_of_le order with less | same
  · exact .inr (before_of_index_lt (TokenStream.contiguous_ofTree aligned) got gotLater shown laterShown less
      found foundLater)
  · exact .inl (sameComment_of_index_eq got gotLater line laterLine same found foundLater)

theorem start_lt_stop_of_mem_docs {source : Text} {tree : SyntaxTree}
    (aligned : tree.Every fun node => Boundary source node.start ∧ Boundary source node.stop)
    (member : row ∈ (task.ofScan file source (Scan.ofTree (utf8 source).toArray tree).value).value.docs) :
    row.location.start < row.location.stop := by
  rw [docs_ofScan] at member
  obtain ⟨anchor, -, found⟩ := List.mem_filterMap.mp member
  obtain ⟨doc, nearest, rfl⟩ := row_eq_some found
  have isToken := TokenStream.mem_tokens_of_nearestDoc nearest
  exact Location.place_lt_stop_ofToken ((TokenStream.contiguous_ofTree aligned).nonempty doc isToken)

/-- In a file whose syntax tree cuts no character, two rows either belong to one anchor and say the same of
it, or the comment of the first ends before the comment of the second starts. So no place lies in the
comments of two different anchors, and the rows come in the order of their comments. -/
theorem ofFile_docs_apart (task : Extraction) (parser : Parser) (disk : Disk) (root path : Path)
    (aligned : ∀ contents, disk.read path = .ok contents →
      ∀ tree, parser (utf8 (sourceText contents)) = .ok tree →
        tree.Every fun node =>
          Boundary (sourceText contents) node.start ∧ Boundary (sourceText contents) node.stop)
    {logged : Logged FilePayload} (extracted : task.ofFile parser disk root path = .ok logged) :
    (logged.value.docs.Pairwise fun row later => row.SameComment later ∨ row.Before later) ∧
    (∀ row ∈ logged.value.docs, ∀ other ∈ logged.value.docs, row.Apart other) ∧
    logged.value.docs.Pairwise fun row later => row.location.start ≤ later.location.start := by
  obtain ⟨apart, wide⟩ : (logged.value.docs.Pairwise fun row later => row.SameComment later ∨ row.Before later) ∧
      ∀ row ∈ logged.value.docs, row.location.start < row.location.stop := by
    rcases ofFile_eq_ok extracted with none | ⟨contents, tree, file, read, parsed, payload⟩
    · simp [none]
    · have cutsNone := aligned contents read tree parsed
      rw [payload]
      exact ⟨pairwise_docs_ofScan cutsNone, fun row member => start_lt_stop_of_mem_docs cutsNone member⟩
  refine ⟨apart, ?_, ?_⟩
  · refine List.Pairwise.forall_of_forall (fun row _ different => absurd rfl different) (apart.imp ?_)
    rintro row later (⟨same, -⟩ | before)
    · exact fun different => absurd same different
    · exact before.apart
  · refine apart.imp_of_mem ?_
    rintro row later member - (⟨-, -, location, -⟩ | ⟨-, ends⟩)
    · rw [location]
    · exact ((wide row member).trans ends).le

/-- A documented class that starts with a method, and another documented class behind it. -/
private def sharedAnchor : Text := ['/', '*', '*', '*', '/', 'c', ' ', '/', '*', '*', '*', '/', 'd']

private def sharedAnchorTree : SyntaxTree :=
  .node (Trivia.leaf "program" 0 13) [.node (Trivia.leaf "block_comment" 0 5) [],
    .node (Trivia.leaf "class_declaration" 5 6) [.node (Trivia.leaf "method_declaration" 5 6) []],
    .node (Trivia.leaf "block_comment" 7 12) [], .node (Trivia.leaf "class_declaration" 12 13) []]

private def sharedAnchorFile : ByteArray := ⟨#[47, 42, 42, 42, 47, 99, 32, 47, 42, 42, 42, 47, 100]⟩

private theorem sourceText_sharedAnchorFile : sourceText sharedAnchorFile = sharedAnchor := by decide +kernel

private theorem anchors_sharedAnchor :
    (Scan.ofTree (utf8 sharedAnchor).toArray sharedAnchorTree).value.anchors =
      [⟨.classType, none, 1, 1⟩, ⟨.method, none, 1, 1⟩, ⟨.classType, none, 4, 1⟩] :=
  List.mergeSort_of_pairwise (by decide)

/-- The class and the method that starts it share an anchor and a comment; the other class has a comment
of its own. -/
theorem ofFile_docs_apart_shared_anchor :
    ∃ logged, ofFile ⟨true, false⟩ (fun _ => .ok sharedAnchorTree)
        (.free (.directory [("a.cls", .file sharedAnchorFile)]) []) ⟨false, []⟩ ⟨false, ["a.cls"]⟩ = .ok logged ∧
      (logged.value.docs.map fun row => (row.anchorIndex, row.location)) =
        [(1, ⟨1, 0, 1, 5⟩), (1, ⟨1, 0, 1, 5⟩), (4, ⟨1, 7, 1, 12⟩)] ∧
      logged.value.docs.Pairwise fun row later => row.SameComment later ∨ row.Before later := by
  refine ⟨ofSource ⟨true, false⟩ (fun _ => .ok sharedAnchorTree) "a.cls" (sourceText sharedAnchorFile), rfl, ?_,
    (ofFile_docs_apart ⟨true, false⟩ (fun _ => .ok sharedAnchorTree)
      (.free (.directory [("a.cls", .file sharedAnchorFile)]) []) ⟨false, []⟩ ⟨false, ["a.cls"]⟩ ?_ rfl).1⟩
  · have rows := docs_ofScan ⟨true, false⟩ "a.cls" sharedAnchor
      (Scan.ofTree (utf8 sharedAnchor).toArray sharedAnchorTree).value
    rw [anchors_sharedAnchor] at rows
    rw [sourceText_sharedAnchorFile]
    exact congrArg (List.map fun row => (row.anchorIndex, row.location)) rows
  · intro contents read tree parsed
    obtain rfl := Except.ok.inj read
    obtain rfl := Except.ok.inj parsed
    rw [sourceText_sharedAnchorFile]
    decide

end Extraction

end ApexComments
