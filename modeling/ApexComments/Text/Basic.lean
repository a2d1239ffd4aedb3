import ApexComments.Text.CodePoint

/-!
# Texts

A text is the list of its code points, so lengths and columns count code points. This module holds
the cuts and joins that the comment rules are written with: splitting at a separator, taking a fixed
marker off either end, and searching for a marker.
-/
namespace ApexComments

/-- The code points of a text, in order. -/
abbrev Text := List CodePoint

namespace Text

/-- A text of characters only. -/
def ofString (characters : String) : Text := characters.toList.map .char

instance : Coe String Text := ⟨ofString⟩

/-- The parts between the separators, one more than there are separators; parts may be empty. -/
def splitOn (separator : CodePoint) : Text → List Text
  | [] => [[]]
  | c :: rest =>
    if c = separator then [] :: splitOn separator rest
    else match splitOn separator rest with
      | [] => [[c]]
      | part :: parts => (c :: part) :: parts

/-- The parts in order with the separator between each two. -/
def joinWith (separator : Text) : List Text → Text
  | [] => []
  | [part] => part
  | part :: parts => part ++ separator ++ joinWith separator parts

/-- Takes the marker off the front, once, where the text starts with it. -/
def dropLeading (marker text : Text) : Text :=
  if marker.isPrefixOf text then text.drop marker.length else text

/-- Takes the marker off the back, once, where the text ends with it. -/
def dropTrailing (marker text : Text) : Text :=
  if marker.isSuffixOf text then text.take (text.length - marker.length) else text

/-- Whether the marker occurs anywhere in the text. -/
def mentions (marker : Text) : Text → Bool
  | [] => marker.isEmpty
  | c :: rest => marker.isPrefixOf (c :: rest) || mentions marker rest

/-- The decimal writing of an integer. -/
def ofInt (n : Int) : Text := ofString (toString n)

/-- The decimal writing of a natural number. -/
def ofNat (n : Nat) : Text := ofString (toString n)

@[simp] theorem ofString_inj {first second : String} : ofString first = ofString second ↔ first = second := by
  rw [ofString, ofString, List.map_inj_right fun _ _ same => CodePoint.char.inj same, String.toList_inj]

@[simp] theorem splitOn_nil (separator : CodePoint) : splitOn separator [] = [[]] := rfl

theorem splitOn_ne_nil (separator : CodePoint) (text : Text) : splitOn separator text ≠ [] := by
  cases text with
  | nil => simp
  | cons c rest =>
    rw [splitOn]
    split
    · simp
    · split <;> simp

@[simp] theorem joinWith_nil (separator : Text) : joinWith separator [] = [] := rfl

@[simp] theorem joinWith_singleton (separator part : Text) : joinWith separator [part] = part := rfl

theorem joinWith_cons_cons (separator part next : Text) (parts : List Text) :
    joinWith separator (part :: next :: parts) = part ++ separator ++ joinWith separator (next :: parts) :=
  rfl

/-- Splitting loses nothing: the parts joined by the separator are the text. -/
theorem joinWith_splitOn (separator : CodePoint) (text : Text) :
    joinWith [separator] (splitOn separator text) = text := by
  induction text with
  | nil => rfl
  | cons c rest ih =>
    have parts := splitOn_ne_nil separator rest
    by_cases here : c = separator
    · subst here
      cases split : splitOn c rest with
      | nil => exact absurd split parts
      | cons part others =>
        rw [splitOn, if_pos rfl, split, joinWith_cons_cons, ← split, ih]
        rfl
    · cases split : splitOn separator rest with
      | nil => exact absurd split parts
      | cons part others =>
        cases others with
        | nil => simpa [splitOn, here, split] using ih
        | cons next later => simpa [splitOn, here, split, joinWith_cons_cons] using ih

end Text

end ApexComments
