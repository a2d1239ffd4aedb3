import ApexComments.File.Path
import ApexComments.OrderedMap
import ApexComments.Text.Utf8

/-!
# File trees

The files that the program reads and writes are a value: a tree of directories with the working
directory marked in it, and the accesses that the system refuses. Reading looks a path up in the tree;
writing gives a changed tree.
-/
namespace ApexComments

open Text

/-- A file with its bytes, or a directory with its named entries. -/
inductive FileTree where
  | file (contents : ByteArray)
  | directory (entries : List (Text × FileTree))

/-- The numbers of the errors that mean that nothing is there: something is missing, a file is not open, something on
the way is no directory, or links go round. -/
def absenceNumbers : List Nat := [2, 9, 20, 40]

/-- An error with which the system refuses an access to something that is there: its number, its words, and whether it
tells the path. -/
structure SystemError where
  number : Nat
  words : Text
  tellsPath : Bool
  present : number ∉ absenceNumbers
  deriving DecidableEq, Repr

/-- What the system is asked for at a place. -/
inductive Access where
  /-- To go on from a directory. -/
  | search
  /-- To tell what is there. -/
  | ask
  /-- To give the entries of a directory. -/
  | list
  /-- To give the bytes of a file. -/
  | read
  /-- To change a file, or to make one. -/
  | write
  /-- To make a directory. -/
  | make
  deriving DecidableEq, Repr

/-- Why the file tree does not do what it is asked for. -/
inductive FileError where
  | notFound
  | alreadyThere
  | notDirectory
  | isDirectory
  | nameTooLong
  /-- The system refuses the access. -/
  | refused (error : SystemError)
  /-- The path holds a null byte: it is not even looked up. -/
  | nullByte
  /-- The path holds a surrogate that stands for no byte: it is not even looked up. -/
  | unencodable (error : EncodeError)
  deriving DecidableEq, Repr

namespace FileError

/-- The number of an error that came of looking a path up. -/
def number? : FileError → Option Nat
  | notFound => some 2
  | alreadyThere => some 17
  | notDirectory => some 20
  | isDirectory => some 21
  | nameTooLong => some 36
  | refused error => some error.number
  | nullByte => none
  | unencodable _ => none

/-- The words for an error. -/
def label : FileError → Text
  | notFound => "No such file or directory"
  | alreadyThere => "File exists"
  | notDirectory => "Not a directory"
  | isDirectory => "Is a directory"
  | nameTooLong => "File name too long"
  | refused error => error.words
  | nullByte => "embedded null byte"
  | unencodable error => error.message

/-- Whether the words for an error are followed by the path. -/
def tellsPath : FileError → Bool
  | refused error => error.tellsPath
  | _ => true

/-- The words for an error at a path. -/
def message (fault : FileError) (path : Text) : Text :=
  match fault.number? with
  | some number =>
    let words := "[Errno " ++ Text.ofNat number ++ "] " ++ fault.label
    if fault.tellsPath then words ++ ": " ++ quoted path else words
  | none => fault.label

/-- Whether the error means that nothing is there; a path that is not even looked up leads to nothing. -/
def meansNothing (fault : FileError) : Bool :=
  match fault.number? with
  | some number => absenceNumbers.contains number
  | none => true

/-- Whether something on the way is missing. -/
def meansMissing (fault : FileError) : Bool := fault.number? == some 2

/-- Whether the access is denied to the one who asks. -/
def isDenied (fault : FileError) : Bool := fault.number? == some 1 || fault.number? == some 13

end FileError

namespace FileTree

/-- Whether the tree is a file. -/
def isFile : FileTree → Bool
  | file _ => true
  | directory _ => false

/-- The tree at a place: a list of names from the top. -/
def at? (tree : FileTree) : List Text → Option FileTree
  | [] => some tree
  | name :: rest =>
    match tree with
    | file _ => none
    | directory entries =>
      match entries.lookup name with
      | none => none
      | some entry => entry.at? rest

/-- The tree with something put at a place. Directories on the way there are made; a file on the way
there stays. -/
def putAt (tree : FileTree) (new : FileTree) : List Text → FileTree
  | [] => new
  | name :: rest =>
    match tree with
    | file contents => file contents
    | directory entries =>
      let old := (entries.lookup name).getD (directory [])
      directory (putEntry name (old.putAt new rest) entries)

mutual

/-- The files at or below a place, each with the names that lead to it from there. -/
def files : FileTree → List (List Text × ByteArray)
  | file contents => [([], contents)]
  | directory entries => filesOfEntries entries

/-- The files of several entries. -/
def filesOfEntries : List (Text × FileTree) → List (List Text × ByteArray)
  | [] => []
  | (name, tree) :: rest =>
    (files tree).map (fun found => (name :: found.1, found.2)) ++ filesOfEntries rest

end

end FileTree

/-- A file tree with the place of the working directory, and the accesses that the system refuses. -/
structure Disk where
  root : FileTree
  workingDirectory : List Text
  /-- The error with which an access to a place is refused, if it is. -/
  refusal : Access → List Text → Option SystemError

namespace Disk

/-- A disk on which the system refuses nothing. -/
def free (root : FileTree) (workingDirectory : List Text) : Disk := ⟨root, workingDirectory, fun _ _ => none⟩

/-- The most bytes that the name of a file may have. -/
def nameLimit : Nat := 255

/-- The most bytes that a path may have. -/
def pathLimit : Nat := 4095

/-- What is at a place, where the system grants the access. -/
def grant (disk : Disk) (access : Access) (place : List Text) : Except FileError FileTree :=
  match disk.root.at? place with
  | none => .error .notFound
  | some tree => match disk.refusal access place with
    | some error => .error (.refused error)
    | none => .ok tree

/-- Goes from a place to one of its entries, or up from it; it must be a directory. -/
def step (disk : Disk) (place : List Text) (component : Text) : Except FileError (List Text) :=
  match disk.root.at? place, disk.refusal .search place with
  | none, _ => .error .notFound
  | some (.file _), _ => .error .notDirectory
  | some (.directory _), some error => .error (.refused error)
  | some (.directory _), none =>
    if component = (['.', '.'] : Text) then .ok place.dropLast
    else if nameLimit < (nameBytes component).length then .error .nameTooLong
    else .ok (place ++ [component])

/-- Goes along components from a place. -/
def walk (disk : Disk) (place : List Text) : List Text → Except FileError (List Text)
  | [] => .ok place
  | component :: rest =>
    match disk.step place component with
    | .error fault => .error fault
    | .ok next => disk.walk next rest

/-- Why a path is not even looked up, if it is not. -/
def unusable? (path : Text) : Option FileError :=
  match encodeFault? isEscapedByte 0 path with
  | some error => some (.unencodable error)
  | none => if path.contains '\x00' then some .nullByte else none

/-- The place that a path leads to; there may be nothing at it. -/
def place (disk : Disk) (path : Path) : Except FileError (List Text) :=
  match unusable? path.text with
  | some fault => .error fault
  | none =>
    if pathLimit < (nameBytes path.text).length then .error .nameTooLong
    else disk.walk (if path.rooted then [] else disk.workingDirectory) path.components

/-- What a path leads to, where the system grants the access. -/
def reach (disk : Disk) (access : Access) (path : Path) : Except FileError FileTree :=
  match disk.place path with
  | .error fault => .error fault
  | .ok place => disk.grant access place

/-- What a path leads to. -/
def find (disk : Disk) (path : Path) : Except FileError FileTree := disk.reach .ask path

/-- Asks about what a path leads to. The answer is no where it leads to nothing; there is none where the
question itself is refused or a name is too long. -/
def ask (disk : Disk) (path : Path) (question : FileTree → Bool) : Except FileError Bool :=
  match disk.find path with
  | .ok tree => .ok (question tree)
  | .error fault => if fault.meansNothing then .ok false else .error fault

/-- Whether anything is there. -/
def has (disk : Disk) (path : Path) : Except FileError Bool := disk.ask path fun _ => true

/-- Whether the path leads to a file. -/
def isFile (disk : Disk) (path : Path) : Except FileError Bool := disk.ask path FileTree.isFile

/-- Whether the path leads to a directory. -/
def isDirectory (disk : Disk) (path : Path) : Except FileError Bool :=
  disk.ask path fun tree => !tree.isFile

/-- The bytes of the file at a path. -/
def read (disk : Disk) (path : Path) : Except FileError ByteArray :=
  match disk.reach .read path with
  | .error fault => .error fault
  | .ok (.directory _) => .error .isDirectory
  | .ok (.file contents) => .ok contents

/-- The entries of the directory at a path. -/
def entries (disk : Disk) (path : Path) : Except FileError (List (Text × FileTree)) :=
  match disk.reach .list path with
  | .error fault => .error fault
  | .ok (.file _) => .error .notDirectory
  | .ok (.directory entries) => .ok entries

/-- Makes one directory in a directory that is there. -/
def makeDirectory (disk : Disk) (path : Path) : Except FileError Disk :=
  match disk.place path with
  | .error fault => .error fault
  | .ok place => match disk.root.at? place, disk.refusal .make place with
    | some _, _ => .error .alreadyThere
    | none, some error => .error (.refused error)
    | none, none => .ok { disk with root := disk.root.putAt (.directory []) place }

/-- The directory made, or found already there. -/
def ensureOne (disk : Disk) (path : Path) : Disk × Except FileError Unit :=
  match disk.makeDirectory path with
  | .ok made => (made, .ok ())
  | .error fault => (disk, match disk.isDirectory path with
    | .ok true => .ok ()
    | .ok false => .error fault
    | .error later => .error later)

/-- Makes a directory, and those above it that are not there; the components come last first. Those
made before a fault stay. -/
def ensureFrom (disk : Disk) (rooted : Bool) : List Text → Disk × Except FileError Unit
  | [] => disk.ensureOne ⟨rooted, []⟩
  | name :: above =>
    let path : Path := ⟨rooted, (name :: above).reverse⟩
    match disk.makeDirectory path with
    | .ok made => (made, .ok ())
    | .error fault =>
      if fault.meansMissing then
        match disk.ensureFrom rooted above with
        | (disk, .error fault) => (disk, .error fault)
        | (disk, .ok ()) => disk.ensureOne path
      else disk.ensureOne path

/-- Makes the directory at a path unless it is there, with all that lead to it. -/
def ensureDirectory (disk : Disk) (path : Path) : Disk × Except FileError Unit :=
  disk.ensureFrom path.rooted path.components.reverse

/-- Changes the file at a path, which is made where there is none. -/
def change (disk : Disk) (path : Path) (f : ByteArray → ByteArray) : Except FileError Disk :=
  match disk.place path with
  | .error fault => .error fault
  | .ok place => match disk.root.at? place, disk.refusal .write place with
    | some (.directory _), _ => .error .isDirectory
    | _, some error => .error (.refused error)
    | some (.file old), none => .ok { disk with root := disk.root.putAt (.file (f old)) place }
    | none, none => .ok { disk with root := disk.root.putAt (.file (f .empty)) place }

/-- Writes a file anew. -/
def write (disk : Disk) (path : Path) (contents : ByteArray) : Except FileError Disk :=
  disk.change path fun _ => contents

/-- Writes at the end of a file. -/
def append (disk : Disk) (path : Path) (contents : ByteArray) : Except FileError Disk :=
  disk.change path (· ++ contents)

end Disk

end ApexComments
