import ApexComments.Text.Basic

/-!
# Lines

Three readings of a line stand side by side. Comments and positions know the line feed only; a file
being read has its carriage returns turned into line feeds; and the line count of a file knows every
line boundary of the character set.
-/
namespace ApexComments.Text

/-- The lines of a text, separated by line feeds. -/
def lines (text : Text) : List Text := splitOn '\n' text

/-- The lines joined again by line feeds. -/
def joinLines (parts : List Text) : Text := joinWith ['\n'] parts

@[simp] theorem joinLines_lines (text : Text) : joinLines (lines text) = text :=
  joinWith_splitOn '\n' text

/-- Unifies on with the characters written already, last first. -/
def unifyNewlinesOnto (written : Text) : Text → Text
  | [] => written.reverse
  | '\r' :: '\n' :: rest => unifyNewlinesOnto ('\n' :: written) rest
  | c :: rest => unifyNewlinesOnto ((if c = '\r' then '\n' else c) :: written) rest

/-- Each carriage return, with the line feed after it if there is one, becomes a line feed. -/
def unifyNewlines (text : Text) : Text := unifyNewlinesOnto [] text

/-- The characters that end a line when the lines of a file are counted. -/
def isLineBreak (c : CodePoint) : Bool :=
  let n := c.toNat
  (0x0A ≤ n && n ≤ 0x0D) || (0x1C ≤ n && n ≤ 0x1E) || n == 0x85 || n == 0x2028 || n == 0x2029

/-- Counts on after `ended` lines; `begun` says whether the present line holds a character. -/
def lineCountFrom (ended : Nat) (begun : Bool) : Text → Nat
  | [] => if begun then ended + 1 else ended
  | '\r' :: '\n' :: rest => lineCountFrom (ended + 1) false rest
  | c :: rest =>
    if isLineBreak c then lineCountFrom (ended + 1) false rest else lineCountFrom ended true rest

/-- The number of lines: a carriage return and line feed together end one line, and an empty last
line does not count. -/
def lineCount (text : Text) : Nat := lineCountFrom 0 false text

end ApexComments.Text
