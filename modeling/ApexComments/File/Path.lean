import ApexComments.Text.Keyword
import ApexComments.Text.Quoted

/-!
# Paths

A path is a list of components, read from a text without empty components and without dots that
stand for the directory itself. A component of two dots stays: it means the parent of whatever
directory comes before it.
-/
namespace ApexComments

open Text

/-- The components of a path, and whether it starts at the top of the file tree. -/
structure Path where
  rooted : Bool
  components : List Text
  deriving DecidableEq, Repr

/-- A path that does not lie under the directory it is to be taken relative to. -/
structure OutsideRoot where
  path : Text
  root : Text
  deriving DecidableEq, Repr

/-- The words for a path outside the directory. -/
def OutsideRoot.message (fault : OutsideRoot) : Text :=
  quoted fault.path ++ " is not in the subpath of " ++ quoted fault.root ++
    " OR one path is relative and the other is absolute."

namespace Path

/-- Whether a part between slashes is a component. -/
def isComponent (part : Text) : Bool := !part.isEmpty && part != (['.'] : Text)

/-- Reads a path. -/
def ofText (text : Text) : Path where
  rooted := text.head? == some '/'
  components := (splitOn '/' text).filter isComponent

/-- The components with slashes between them. -/
def joined (path : Path) : Text :=
  (if path.rooted then (['/'] : Text) else []) ++ joinWith ['/'] path.components

/-- The text of a path; a dot where it would be empty. -/
def text (path : Path) : Text := if path.joined.isEmpty then ['.'] else path.joined

/-- The last component; empty where there is none. -/
def name (path : Path) : Text := path.components.getLastD []

/-- The directory that holds the path. -/
def parent (path : Path) : Path := { path with components := path.components.dropLast }

/-- The path of something below a directory. -/
def below (path : Path) (components : List Text) : Path :=
  { path with components := path.components ++ components }

/-- The part of a name from its last dot on, unless that dot comes first or last. -/
def suffixOf (name : Text) : Text :=
  let tail := (name.reverse.takeWhile (· != CodePoint.char '.')).reverse
  if tail.isEmpty || name.length ≤ tail.length + 1 then [] else '.' :: tail

/-- Whether the name is that of an Apex source: a class or a trigger. -/
def isSourceName (name : Text) : Bool :=
  let suffix := lowered (suffixOf name)
  suffix == ofString ".cls" || suffix == ofString ".trigger"

/-- Whether the path names an Apex source. -/
def isSource (path : Path) : Bool := isSourceName path.name

/-- The path as seen from a directory. -/
def relativeTo (path root : Path) : Except OutsideRoot Path :=
  if path.rooted == root.rooted && root.components.isPrefixOf path.components then
    .ok ⟨false, path.components.drop root.components.length⟩
  else .error ⟨path.text, root.joined⟩

end Path

end ApexComments
