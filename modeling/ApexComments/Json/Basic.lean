import ApexComments.Text.Basic

/-!
# JSON values

Objects keep their fields in order. Numbers are integers of any size; a number that is none is kept
as it is written.
-/
namespace ApexComments

/-- A JSON document. -/
inductive Json where
  | null
  | bool (value : Bool)
  | integer (value : Int)
  | literal (written : Text)
  | text (value : Text)
  | array (items : List Json)
  | object (fields : List (Text × Json))

namespace Json

/-- The most arrays and objects that may lie in one another, to be read or to be printed. -/
def nestingLimit : Nat := 990

/-- A text, or null where it is absent. -/
def ofText? : Option Text → Json
  | none => null
  | some value => text value

end Json

end ApexComments
