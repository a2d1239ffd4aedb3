import ApexComments.Text.Blank
import ApexComments.Text.Keyword

/-!
# Progress bars

A bar is opened when the first item is asked for, moves on when an item has been dealt with, that is
when the next one is asked for, and is closed at the end however that comes.
-/
namespace ApexComments

open Text

/-- What a progress bar is labelled with. -/
structure BarLabel where
  total : Option Int
  description : Option Text
  unit : Text
  deriving DecidableEq, Repr

/-- What happens to a progress bar. -/
inductive BarEvent where
  | opened (label : BarLabel)
  | updated (steps : Nat)
  | closed
  deriving DecidableEq, Repr

namespace Bar

/-- The words that switch the bar off. -/
def offWords : List Text := ["0", "false", "off", "no"]

/-- Whether the bar is shown: as asked for, else unless it is switched off or there is no terminal to
show it on. -/
def isShown (disable : Option Bool) (switch : Text) (terminal : Bool) : Bool :=
  match disable with
  | some disabled => !disabled
  | none => !offWords.contains (trim (lowered switch)) && terminal

/-- The bar over a run in which `finished` items were dealt with. -/
def events (shown : Bool) (label : BarLabel) (finished : Nat) : List BarEvent :=
  if shown then .opened label :: List.replicate finished (.updated 1) ++ [.closed] else []

/-- Takes at most `limit` items, all where there is no limit, with what the bar shows meanwhile. The
item taken last counts as dealt with only when another was asked for. -/
def take {α : Type} (shown : Bool) (label : BarLabel) (limit : Option Nat) (items : List α) :
    List α × List BarEvent :=
  match limit with
  | none => (items, events shown label items.length)
  | some 0 => ([], [])
  | some (n + 1) =>
    (items.take (n + 1), events shown label (if items.length < n + 1 then items.length else n))

end Bar

end ApexComments
