import ApexComments.Text.Basic

/-!
# Log rows

Computations that report on their way return their value together with the rows they logged, in the
order in which they logged them.
-/
namespace ApexComments

/-- How grave a log row is. -/
inductive Severity where
  | debug
  | info
  | warning
  | error
  deriving DecidableEq, Repr

namespace Severity

/-- The level number of a severity. -/
def level : Severity → Int
  | debug => 10
  | info => 20
  | warning => 30
  | error => 40

/-- The name written before a message. -/
def label : Severity → Text
  | debug => "DEBUG"
  | info => "INFO"
  | warning => "WARNING"
  | error => "ERROR"

end Severity

/-- One logged message. -/
structure LogRow where
  severity : Severity
  message : Text
  deriving DecidableEq, Repr

/-- A value with the rows logged while it was computed. -/
structure Logged (α : Type) where
  value : α
  rows : List LogRow
  deriving DecidableEq, Repr

namespace Logged

variable {α β : Type}

/-- A value for which nothing was logged. -/
def quiet (value : α) : Logged α := ⟨value, []⟩

/-- The same rows with a changed value. -/
def map (f : α → β) (logged : Logged α) : Logged β := ⟨f logged.value, logged.rows⟩

/-- Goes on with the value; the rows of the second part follow those of the first. -/
def andThen (logged : Logged α) (next : α → Logged β) : Logged β :=
  let after := next logged.value
  ⟨after.value, logged.rows ++ after.rows⟩

/-- The values of several computations run one after the other. -/
def all : List (Logged α) → Logged (List α)
  | [] => quiet []
  | logged :: rest => logged.andThen fun value => (all rest).map (value :: ·)

end Logged

end ApexComments
