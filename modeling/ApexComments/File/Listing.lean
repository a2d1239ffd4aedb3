import ApexComments.File.Tree
import ApexComments.Log

/-!
# Listing the sources of a directory

The sources under a directory are its class and trigger files at any depth, in the order of their
components. Files that are too large are left out with a warning. The directories are gone through one inside
the other, which works to a certain depth only; what lies in one that may not be listed is passed over.
-/
namespace ApexComments

open Text

/-- Why a directory is not listed. -/
inductive ListingError where
  /-- Something in it cannot be looked up, or a directory not be listed. -/
  | file (fault : FileError)
  /-- Its directories lie too deep in one another. -/
  | tooDeep
  deriving DecidableEq, Repr

/-- The words for a directory that is not listed. -/
def ListingError.message : ListingError → Text
  | file fault => fault.label
  | tooDeep => "maximum recursion depth exceeded"

namespace Listing

/-- The largest size, in bytes, at which a file found in a directory is taken. -/
def sizeLimit : Nat := 10 * 1024 * 1024

/-- Whether names come in the order of their code points. -/
def nameInOrder : Text → Text → Bool
  | [], _ => true
  | _ :: _, [] => false
  | a :: as, b :: bs => if a = b then nameInOrder as bs else a.toNat < b.toNat

/-- Whether lists of names come in the order of their first names that differ. -/
def inOrder : List Text → List Text → Bool
  | [], _ => true
  | _ :: _, [] => false
  | a :: as, b :: bs => if a = b then inOrder as bs else nameInOrder a b

/-- The names of the entries that are directories. -/
def directoryNames (entries : List (Text × FileTree)) : List Text :=
  (entries.filter fun entry => !entry.2.isFile).map Prod.fst

/-- What several computations give together, up to the first that fails. -/
def gather {ε α : Type} : List (Except ε (List α)) → Except ε (List α)
  | [] => .ok []
  | .error fault :: _ => .error fault
  | .ok first :: rest => (gather rest).map (first ++ ·)

/-- All that lies under a directory, given by the names that lead to it from the root: its entries, and then
what lies in each of its directories in turn. There is `room` for so many directories one inside the other. -/
def search (disk : Disk) (root : Path) (room : Nat) (above : List Text) : Except ListingError (List (List Text)) :=
  match room with
  | 0 => .error .tooDeep
  | room + 1 =>
    match disk.entries (root.below above) with
    | .error fault => if fault.isDenied then .ok [] else .error (.file fault)
    | .ok entries =>
      (gather ((directoryNames entries).map fun name => search disk root room (above ++ [name]))).map
        ((entries.map fun entry => above ++ [entry.1]) ++ ·)

/-- Whether a file is too large to be taken. -/
def isOversized (contents : ByteArray) : Bool := sizeLimit < contents.size

/-- The warning about a file that is too large. -/
def oversizedRow (path : Path) : LogRow := ⟨.warning, "Skipping " ++ path.text ++ ": larger than 10 MB"⟩

/-- Takes the sources among paths. Each path is looked up; the first that cannot be ends it all. -/
def take (disk : Disk) : List Path → Logged (Except ListingError (List Path))
  | [] => .quiet (.ok [])
  | path :: rest =>
    match disk.isFile path, disk.find path with
    | .error fault, _ => .quiet (.error (.file fault))
    | .ok true, .ok (.file contents) =>
      if !path.isSource then take disk rest
      else if isOversized contents then (Logged.mk () [oversizedRow path]).andThen fun () => take disk rest
      else (take disk rest).map (·.map (path :: ·))
    | _, _ => take disk rest

/-- The sources at or under a path, with `room` for so many directories one inside the other. A file is listed
whatever its size, if it is a source; where the path leads to nothing there are none. -/
def sources (room : Nat) (disk : Disk) (root : Path) : Logged (Except ListingError (List Path)) :=
  match disk.isFile root, disk.isDirectory root with
  | .error fault, _ => .quiet (.error (.file fault))
  | .ok true, _ => .quiet (.ok (if root.isSource then [root] else []))
  | .ok false, .error fault => .quiet (.error (.file fault))
  | .ok false, .ok false => .quiet (.ok [])
  | .ok false, .ok true =>
    match search disk root room [] with
    | .error fault => .quiet (.error fault)
    | .ok found => take disk ((found.mergeSort inOrder).map root.below)

end Listing

end ApexComments
