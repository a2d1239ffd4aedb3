import ApexComments.Text.Blank
import ApexComments.Text.Utf8

/-!
# Places in a source

An offset into the bytes of a source lies on a line, counted from 1, and in a column, counted from 0 in
characters. Both are found by the offsets at which the lines start, which are gathered once for a
source.
-/
namespace ApexComments

open Text

/-- The bytes from one offset up to another. -/
def slice (source : Array UInt8) (start stop : Nat) : List UInt8 := (source.extract start stop).toList

theorem slice_eq_drop_take (source : Array UInt8) (start stop : Nat) :
    slice source start stop = (source.toList.take stop).drop start := by
  rw [slice, Array.toList_extract, List.extract_eq_take_drop, List.drop_take]

/-- Whether the bytes are ASCII blanks only. -/
def blankBytes (bytes : List UInt8) : Bool := bytes.all isBlankByte

/-- The number of line feeds among the bytes. -/
def lineFeeds (bytes : List UInt8) : Nat := bytes.count 10

/-- The bytes after the last line feed. -/
def lineTail (bytes : List UInt8) : List UInt8 := (bytes.reverse.takeWhile (· != 10)).reverse

theorem lineTail_append_singleton (bytes : List UInt8) (b : UInt8) :
    lineTail (bytes ++ [b]) = if b = 10 then [] else lineTail bytes ++ [b] := by
  by_cases feed : b = 10 <;> simp [lineTail, feed]

theorem lineTail_eq_drop (bytes : List UInt8) :
    lineTail bytes = bytes.drop (bytes.length - (lineTail bytes).length) := by
  have suffix : lineTail bytes <:+ bytes := by
    rw [← List.reverse_prefix, lineTail, List.reverse_reverse]
    exact List.takeWhile_prefix _
  exact List.suffix_iff_eq_drop.mp suffix

namespace Place

/-- The line of an offset, from 1. -/
def lineAt (source : Array UInt8) (offset : Nat) : Nat := lineFeeds (source.toList.take offset) + 1

/-- The column of an offset, from 0, in characters. -/
def columnAt (source : Array UInt8) (offset : Nat) : Nat :=
  (decode (lineTail (source.toList.take offset))).length

/-- The offsets right after the line feeds; the first byte has the given offset. -/
def startsFrom (offset : Nat) : List UInt8 → List Nat
  | [] => []
  | b :: rest =>
    if b = 10 then (offset + 1) :: startsFrom (offset + 1) rest else startsFrom (offset + 1) rest

/-- Where the lines of a source after the first start. -/
def lineStarts (source : Array UInt8) : List Nat := startsFrom 0 source.toList

/-- The line of an offset and the start of that line, from a line and its start and the starts of the
lines after it. -/
def seek (line start offset : Nat) : List Nat → Nat × Nat
  | [] => (line, start)
  | next :: rest => if next ≤ offset then seek (line + 1) next offset rest else (line, start)

/-- The line and the column of an offset, found by the starts of the lines. -/
def find (source : Array UInt8) (starts : List Nat) (offset : Nat) : Nat × Nat :=
  let (line, start) := seek 1 0 offset starts
  (line, (decode (slice source start offset)).length)

theorem lt_of_mem_startsFrom {offset start : Nat} {bytes : List UInt8}
    (member : start ∈ startsFrom offset bytes) : offset < start := by
  induction bytes generalizing offset with
  | nil => simp [startsFrom] at member
  | cons b rest ih =>
    rw [startsFrom] at member
    split at member
    · rcases List.mem_cons.mp member with rfl | later
      · omega
      · have := ih later
        omega
    · have := ih member
      omega

theorem seek_of_lt {line start offset : Nat} {starts : List Nat}
    (beyond : ∀ next ∈ starts, offset < next) : seek line start offset starts = (line, start) := by
  cases starts with
  | nil => rfl
  | cons next rest =>
    have further := beyond next (by simp)
    rw [seek, if_neg (by omega)]

theorem seek_startsFrom (passed bytes : List UInt8) {offset : Nat} (inside : passed.length ≤ offset) :
    seek (lineFeeds passed + 1) (passed.length - (lineTail passed).length) offset
        (startsFrom passed.length bytes) =
      (lineFeeds ((passed ++ bytes).take offset) + 1,
        ((passed ++ bytes).take offset).length - (lineTail ((passed ++ bytes).take offset)).length) := by
  induction bytes generalizing passed with
  | nil => simp [startsFrom, seek, List.take_of_length_le inside]
  | cons b rest ih =>
    by_cases here : offset = passed.length
    · have beyond : ∀ next ∈ startsFrom passed.length (b :: rest), offset < next := by
        intro next member
        have := lt_of_mem_startsFrom member
        omega
      rw [seek_of_lt beyond, here, List.take_left]
    · have further := ih (passed ++ [b]) (by simp; omega)
      rw [List.append_assoc, List.singleton_append, List.length_append, List.length_singleton,
        lineTail_append_singleton] at further
      by_cases feed : b = 10
      · rw [startsFrom, if_pos feed, seek, if_pos (by omega), ← further]
        simp [lineFeeds, feed]
      · rw [startsFrom, if_neg feed, ← further]
        simp [lineFeeds, feed]

/-- The starts of the lines lead to the line and the column of every offset. -/
theorem find_lineStarts (source : Array UInt8) (offset : Nat) :
    find source (lineStarts source) offset = (lineAt source offset, columnAt source offset) := by
  have found := seek_startsFrom [] source.toList (Nat.zero_le offset)
  simp only [List.nil_append] at found
  have seeked : seek 1 0 offset (lineStarts source) = _ := found
  rw [find, seeked]
  simp only [lineAt, columnAt, slice_eq_drop_take]
  rw [← lineTail_eq_drop]

end Place

end ApexComments
