import ApexComments.Proofs.TagLines

/-!
# The wording of a comment

Every cut that is made in the lines of a comment takes off blanks, slashes and asterisks only, at one end of what is
left (`bares_lineContent`). So a comment without these characters, its wording, is the same as that of its content
(`wording_content`). Where no line is a tag line, all of it is in the description.
-/
namespace ApexComments.Comment

open Text

variable {whole middle part marker text : Text}

/-- A blank or a character of the markers. -/
def isMarking (c : CodePoint) : Bool := isBlank c || c == '/' || c == '*'

/-- The text without blanks and without the characters of markers. -/
def wording (text : Text) : Text := text.filter fun c => !isMarking c

/-- The part stands in the whole with nothing but blanks and characters of markers on either side. -/
def Bares (whole part : Text) : Prop :=
  ∃ before after, whole = before ++ part ++ after ∧ (∀ c ∈ before, isMarking c = true) ∧ ∀ c ∈ after, isMarking c = true

/-! ## Cuts at the ends -/

theorem Bares.refl (text : Text) : Bares text text := ⟨[], [], by simp, by simp, by simp⟩

theorem Bares.trans (first : Bares whole middle) (second : Bares middle part) : Bares whole part := by
  obtain ⟨front, back, rfl, ofFront, ofBack⟩ := first
  obtain ⟨before, after, rfl, ofBefore, ofAfter⟩ := second
  refine ⟨front ++ before, after ++ back, by simp, ?_, ?_⟩
  · exact List.forall_mem_append.mpr ⟨ofFront, ofBefore⟩
  · exact List.forall_mem_append.mpr ⟨ofAfter, ofBack⟩

instance : Trans Bares Bares Bares := ⟨Bares.trans⟩

theorem isMarking_of_isBlank {c : CodePoint} (blank : isBlank c = true) : isMarking c = true := by
  simp [isMarking, blank]

theorem bares_trim (text : Text) : Bares text (trim text) := by
  obtain ⟨before, after, split, front, back, -⟩ := exists_trim_split text
  exact ⟨before, after, split, fun c member => isMarking_of_isBlank (front c member),
    fun c member => isMarking_of_isBlank (back c member)⟩

theorem bares_dropLeading (marks : marker.all isMarking = true) (text : Text) :
    Bares text (dropLeading marker text) := by
  unfold dropLeading
  split
  · next opens =>
    obtain ⟨rest, rfl⟩ := List.isPrefixOf_iff_prefix.mp opens
    exact ⟨marker, [], by simp, List.all_eq_true.mp marks, by simp⟩
  · exact .refl text

theorem bares_dropTrailing (marks : marker.all isMarking = true) (text : Text) :
    Bares text (dropTrailing marker text) := by
  unfold dropTrailing
  split
  · next closes =>
    obtain ⟨rest, rfl⟩ := List.isSuffixOf_iff_suffix.mp closes
    exact ⟨[], marker, by simp, by simp, List.all_eq_true.mp marks⟩
  · exact .refl text

/-- However the markers of a line overlap, only their characters go. -/
theorem bares_lineContent (line : Text) : Bares line (lineContent line) := by
  by_cases empty : trim line = emptyBlock
  · have gone : Bares emptyBlock [] := ⟨emptyBlock, [], by simp, List.all_eq_true.mp (by decide), by simp⟩
    rw [lineContent, if_pos empty]
    exact (empty ▸ bares_trim line).trans gone
  · rw [lineContent, if_neg empty]
    calc
      Bares line (trim line) := bares_trim line
      Bares _ (dropLeading blockOpen (trim line)) := bares_dropLeading (by decide) _
      Bares _ (dropTrailing blockClose _) := bares_dropTrailing (by decide) _
      Bares _ (dropLeading gutter _) := bares_dropLeading (by decide) _
      Bares _ (dropLeading lineOpen _) := bares_dropLeading (by decide) _
      Bares _ (trim _) := bares_trim _

/-! ## What is left -/

theorem wording_append (front back : Text) : wording (front ++ back) = wording front ++ wording back :=
  List.filter_append front back

theorem wording_eq_nil (marks : ∀ c ∈ text, isMarking c = true) : wording text = [] := by
  rw [wording, List.filter_eq_nil_iff]
  intro c member
  simp [marks c member]

theorem Bares.wording_eq (bares : Bares whole part) : wording whole = wording part := by
  obtain ⟨before, after, rfl, front, back⟩ := bares
  rw [wording_append, wording_append, wording_eq_nil front, wording_eq_nil back, List.nil_append, List.append_nil]

theorem wording_joinWith {separator : Text} (marks : separator.all isMarking = true) (parts : List Text) :
    wording (joinWith separator parts) = parts.flatMap wording := by
  induction parts with
  | nil => rfl
  | cons part parts ih =>
    cases parts with
    | nil => simp
    | cons next parts =>
      rw [joinWith_cons_cons, wording_append, wording_append, wording_eq_nil (List.all_eq_true.mp marks),
        List.append_nil, ih]
      rfl

theorem wording_eq_flatMap (raw : Text) : wording raw = ((lines raw).map lineContent).flatMap wording := by
  calc
    wording raw = wording (joinLines (lines raw)) := by rw [joinLines_lines]
    _ = (lines raw).flatMap wording := wording_joinWith (by decide) _
    _ = (lines raw).flatMap fun line => wording (lineContent line) :=
      congrArg (lines raw).flatMap (funext fun line => (bares_lineContent line).wording_eq)
    _ = ((lines raw).map lineContent).flatMap wording := by rw [List.flatMap_map]

theorem wording_content (raw : Text) : wording (content raw) = wording raw := by
  rw [content, ← (bares_trim _).wording_eq, joinLines, wording_joinWith (by decide), wording_eq_flatMap raw]

theorem flatMap_wording_contents (raw : Text) : (contents raw).flatMap wording = wording raw := by
  rw [wording_eq_flatMap raw, contents]
  induction (lines raw).map lineContent with
  | nil => rfl
  | cons line rest ih =>
    cases line with
    | nil => simpa [wording] using ih
    | cons c line => simp [ih]

/-- Without tag lines all contents are prose. -/
theorem description_of_untagged {raw : Text} (untagged : ∀ line ∈ lines raw, ¬ HasTagForm (lineContent line)) :
    (Body.parse raw).description = trim (joinWith [' '] (contents raw)) := by
  have prose : (contents raw).takeWhile Body.isProse = contents raw := by
    rw [List.takeWhile_eq_self_iff]
    intro content member
    obtain ⟨line, among, rfl⟩ := List.mem_map.mp (List.mem_filter.mp member).1
    simpa [isProse_eq] using untagged line among
  rw [Body.parse_eq_ofContents, Body.ofContents, prose]

/-- Reading a comment takes off blanks and characters of markers only: at the ends of its lines, and so from its
content; and a comment without tag lines is described by all the rest of it. -/
theorem content_keeps_wording (raw : Text) :
    (∀ line ∈ lines raw, Bares line (lineContent line)) ∧ wording (content raw) = wording raw ∧
      ((∀ line ∈ lines raw, ¬ HasTagForm (lineContent line)) → wording (Body.parse raw).description = wording raw) := by
  refine ⟨fun line _ => bares_lineContent line, wording_content raw, ?_⟩
  intro untagged
  rw [description_of_untagged untagged, ← (bares_trim _).wording_eq, wording_joinWith (by decide),
    flatMap_wording_contents]

/-- Lines on which an opener and a closer share an asterisk, a closer stands before a line marker, and a line marker
before a closer. -/
theorem content_keeps_wording_overlaps :
    let raw : Text := joinLines [['/', '*', '*', '*', '/'], ['*', '/', '/', '/', 'a', ' ', '@'],
      ['/', '/', '/', 'b', '*', '/']]
    (∀ line ∈ lines raw, ¬ HasTagForm (lineContent line)) ∧ wording raw = (['a', '@', 'b'] : Text) ∧
      wording (Body.parse raw).description = (['a', '@', 'b'] : Text) := by
  intro raw
  have untagged : ∀ line ∈ lines raw, ¬ HasTagForm (lineContent line) := by decide
  have kept : wording raw = (['a', '@', 'b'] : Text) := by decide
  obtain ⟨-, -, described⟩ := content_keeps_wording raw
  exact ⟨untagged, kept, (described untagged).trans kept⟩

end ApexComments.Comment
