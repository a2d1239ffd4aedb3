import ApexComments.Proofs.Trees
import ApexComments.Proofs.Trimming

/-!
# Where paths lead

What keeps a path from being looked up is seen in the path itself: in its text, in its length, in the length of its
components (`Path.Fits`). Apart from that a look-up fails where nothing is there or the system refuses an access. Under
a directory that was found, names lead straight down: what is reached along them is what the tree of the directory holds
there (`Disk.at?_of_reach`), and what it holds there is found unless an access is refused or the path is too long
(`Disk.find_of_isFile`).
-/
namespace ApexComments

open Text

/-! ## Texts of paths -/

namespace Disk

theorem unusable?_eq_none_iff {path : Text} : unusable? path = none ↔
    (∀ c ∈ path, c.isSurrogate = true → isEscapedByte c = true) ∧ CodePoint.char '\x00' ∉ path := by
  rw [unusable?, ← encodeFault?_eq_none_iff 0]
  cases encodeFault? isEscapedByte 0 path <;> simp

theorem number?_of_unusable {path : Text} {fault : FileError} (unusable : unusable? path = some fault) :
    fault.number? = none := by
  rw [unusable?] at unusable
  split at unusable
  · obtain rfl := Option.some.inj unusable
    rfl
  · split at unusable
    · obtain rfl := Option.some.inj unusable
      rfl
    · cases unusable

end Disk

namespace Path

/-- A name that an entry of a directory may have: it is not empty, stands neither for the directory itself nor for the
one above it, holds no slash and no null byte, has bytes, and not too many of them. -/
structure IsName (name : Text) : Prop where
  nonempty : name ≠ []
  notSelf : name ≠ (['.'] : Text)
  notParent : name ≠ (['.', '.'] : Text)
  unslashed : CodePoint.char '/' ∉ name
  whole : CodePoint.char '\x00' ∉ name
  encodable : ∀ c ∈ name, c.isSurrogate = true → isEscapedByte c = true
  short : (nameBytes name).length ≤ Disk.nameLimit

theorem isName_iff {name : Text} : IsName name ↔ name ≠ [] ∧ name ≠ (['.'] : Text) ∧ name ≠ (['.', '.'] : Text) ∧
    CodePoint.char '/' ∉ name ∧ CodePoint.char '\x00' ∉ name ∧
    (∀ c ∈ name, c.isSurrogate = true → isEscapedByte c = true) ∧ (nameBytes name).length ≤ Disk.nameLimit :=
  ⟨fun ⟨a, b, c, d, e, f, g⟩ => ⟨a, b, c, d, e, f, g⟩, fun ⟨a, b, c, d, e, f, g⟩ => ⟨a, b, c, d, e, f, g⟩⟩

instance (name : Text) : Decidable (IsName name) := decidable_of_iff _ isName_iff.symm

/-- A component that is not too long, or the two dots for a parent. -/
def FitsName (component : Text) : Prop :=
  component = (['.', '.'] : Text) ∨ (nameBytes component).length ≤ Disk.nameLimit

/-- The path can be looked up: it has bytes without a null byte, and nothing in it is too long. -/
structure Fits (path : Path) : Prop where
  usable : Disk.unusable? path.text = none
  short : (nameBytes path.text).length ≤ Disk.pathLimit
  named : ∀ component ∈ path.components, FitsName component

theorem mem_text_iff {path : Path} {c : CodePoint} (noSlash : c ≠ '/') (noDot : c ≠ '.') :
    c ∈ path.text ↔ ∃ component ∈ path.components, c ∈ component := by
  have joined : c ∈ path.joined ↔ ∃ component ∈ path.components, c ∈ component := by
    rw [Path.joined, List.mem_append, mem_joinWith_iff (by simpa using noSlash)]
    cases path.rooted <;> simp [noSlash]
  rw [← joined, text]
  split
  · next empty => simp [List.isEmpty_iff.mp empty, noDot]
  · rfl

/-- Names make no path unusable. -/
theorem unusable?_below {root : Path} {names : List Text} (usable : Disk.unusable? root.text = none)
    (named : ∀ name ∈ names, IsName name) : Disk.unusable? (root.below names).text = none := by
  rw [Disk.unusable?_eq_none_iff] at usable ⊢
  constructor
  · intro c member surrogate
    have noSlash : c ≠ '/' := by rintro rfl; cases surrogate
    have noDot : c ≠ '.' := by rintro rfl; cases surrogate
    obtain ⟨component, among, inside⟩ := (mem_text_iff noSlash noDot).mp member
    rcases List.mem_append.mp among with above | below
    · exact usable.1 c ((mem_text_iff noSlash noDot).mpr ⟨component, above, inside⟩) surrogate
    · exact (named component below).encodable c inside surrogate
  · rw [mem_text_iff (by decide) (by decide)]
    rintro ⟨component, among, null⟩
    rcases List.mem_append.mp among with above | below
    · exact usable.2 ((mem_text_iff (by decide) (by decide)).mpr ⟨component, above, null⟩)
    · exact (named component below).whole null

theorem relativeTo_below (root : Path) (names : List Text) :
    (root.below names).relativeTo root = .ok ⟨false, names⟩ := by
  simp [relativeTo, below]

end Path

/-- Every name below the top of the tree is one that an entry may have. -/
def FileTree.NamesProper (tree : FileTree) : Prop := ∀ names ∈ tree.places, ∀ name ∈ names, Path.IsName name

instance (tree : FileTree) : Decidable tree.NamesProper :=
  inferInstanceAs (Decidable (∀ names ∈ tree.places, ∀ name ∈ names, Path.IsName name))

theorem FileTree.NamesProper.isName {tree found : FileTree} {names : List Text} (proper : tree.NamesProper)
    (distinct : tree.NamesDistinct) (there : tree.at? names = some found) : ∀ name ∈ names, Path.IsName name := by
  intro name member
  have nonempty : names ≠ [] := List.ne_nil_of_mem member
  exact proper names ((mem_places_iff distinct).mpr ⟨nonempty, found, there⟩) name member

/-! ## Look-ups -/

/-- The error of a permission that is missing. -/
def SystemError.permissionDenied : SystemError := ⟨13, "Permission denied", true, by decide⟩

namespace FileError

@[simp] theorem meansNothing_refused (error : SystemError) : (refused error).meansNothing = false := by
  simpa [meansNothing, number?] using error.present

end FileError

namespace Disk

variable {disk later : Disk} {path root : Path} {access : Access} {place final : List Text}
  {component : Text} {components names : List Text} {tree top : FileTree} {fault : FileError}

theorem step_of_granted (granted : disk.refusal .search place = none) (fits : Path.FitsName component) :
    (∃ next, disk.step place component = .ok next) ∨
      ∃ fault, disk.step place component = .error fault ∧ fault.meansNothing = true := by
  rw [step, granted]
  cases disk.root.at? place with
  | none => exact .inr ⟨_, rfl, rfl⟩
  | some tree =>
    cases tree with
    | file contents => exact .inr ⟨_, rfl, rfl⟩
    | directory entries =>
      refine .inl ?_
      by_cases parent : component = (['.', '.'] : Text)
      · exact ⟨place.dropLast, by simp [parent]⟩
      · exact ⟨place ++ [component], by simp [parent, fits.resolve_left parent]⟩

theorem fitsName_of_step {next : List Text} (stepped : disk.step place component = .ok next) :
    Path.FitsName component := by
  obtain ⟨-, -, ⟨parent, -⟩ | ⟨-, short, -⟩⟩ := step_eq_ok_iff.mp stepped
  · exact .inl parent
  · exact .inr short

/-- Where one leads to, another disk leads to as well, or to nothing, if it refuses no more. -/
theorem walk_of_walk (less : ∀ place, disk.refusal .search place = none → later.refusal .search place = none)
    (walked : disk.walk place components = .ok final) :
    later.walk place components = .ok final ∨
      ∃ fault, later.walk place components = .error fault ∧ fault.meansNothing = true := by
  induction components generalizing place with
  | nil => exact .inl walked
  | cons component components ih =>
    rw [walk] at walked ⊢
    cases stepped : disk.step place component with
    | error fault => simp [stepped] at walked
    | ok next =>
      simp only [stepped] at walked
      obtain ⟨-, granted, how⟩ := step_eq_ok_iff.mp stepped
      rcases step_of_granted (less place granted) (fitsName_of_step stepped) with
        ⟨other, onward⟩ | ⟨fault, failed, absent⟩
      · obtain ⟨here, alsoGranted, -⟩ := step_eq_ok_iff.mp onward
        rw [step_eq_ok_iff.mpr ⟨here, alsoGranted, how⟩]
        exact ih walked
      · exact .inr ⟨fault, by rw [failed], absent⟩

theorem walk_of_free (free : ∀ place, disk.refusal .search place = none)
    (fits : ∀ component ∈ components, Path.FitsName component) :
    (∃ final, disk.walk place components = .ok final) ∨
      ∃ fault, disk.walk place components = .error fault ∧ fault.meansNothing = true := by
  induction components generalizing place with
  | nil => exact .inl ⟨place, rfl⟩
  | cons component components ih =>
    obtain ⟨here, others⟩ := List.forall_mem_cons.mp fits
    rw [walk]
    rcases step_of_granted (free place) here with ⟨next, stepped⟩ | ⟨fault, failed, absent⟩
    · rw [stepped]
      exact ih others
    · exact .inr ⟨fault, by rw [failed], absent⟩

theorem fitsName_of_walk (walked : disk.walk place components = .ok final) :
    ∀ component ∈ components, Path.FitsName component := by
  induction components generalizing place with
  | nil => simp
  | cons component components ih =>
    rw [walk] at walked
    cases stepped : disk.step place component with
    | error fault => simp [stepped] at walked
    | ok next =>
      simp only [stepped] at walked
      exact List.forall_mem_cons.mpr ⟨fitsName_of_step stepped, ih walked⟩

theorem number?_of_walk (failed : disk.walk place components = .error fault) : fault.number? ≠ none := by
  induction components generalizing place with
  | nil => cases failed
  | cons component components ih =>
    rw [walk] at failed
    cases stepped : disk.step place component with
    | ok next =>
      simp only [stepped] at failed
      exact ih failed
    | error found =>
      simp only [stepped] at failed
      obtain rfl := Except.error.inj failed
      rw [step] at stepped
      split at stepped
      · obtain rfl := Except.error.inj stepped; simp [FileError.number?]
      · obtain rfl := Except.error.inj stepped; simp [FileError.number?]
      · obtain rfl := Except.error.inj stepped; simp [FileError.number?]
      · split_ifs at stepped
        obtain rfl := Except.error.inj stepped
        simp [FileError.number?]

/-- What there is to a look-up: the path can be looked up at all, it is not too long, and it leads somewhere. -/
theorem place_eq_ok_iff : disk.place path = .ok place ↔ unusable? path.text = none ∧
    (nameBytes path.text).length ≤ pathLimit ∧
    disk.walk (if path.rooted then [] else disk.workingDirectory) path.components = .ok place := by
  rw [Disk.place]
  cases unusable? path.text with
  | some fault => simp
  | none =>
    by_cases long : pathLimit < (nameBytes path.text).length
    · simp [long, Nat.not_le.mpr long]
    · simp [long, Nat.not_lt.mp long]

theorem grant_eq_ok_iff : disk.grant access place = .ok tree ↔
    disk.root.at? place = some tree ∧ disk.refusal access place = none := by
  rw [grant]
  cases disk.root.at? place with
  | none => simp
  | some found => cases disk.refusal access place <;> simp

theorem reach_eq_ok_iff : disk.reach access path = .ok tree ↔ ∃ place, disk.place path = .ok place ∧
    disk.root.at? place = some tree ∧ disk.refusal access place = none := by
  rw [reach]
  cases disk.place path with
  | error fault => simp
  | ok place => simp [grant_eq_ok_iff]

theorem fits_of_reach (reached : disk.reach access path = .ok tree) : path.Fits := by
  obtain ⟨place, placed, -⟩ := reach_eq_ok_iff.mp reached
  obtain ⟨usable, short, walked⟩ := place_eq_ok_iff.mp placed
  exact ⟨usable, short, fitsName_of_walk walked⟩

/-- An error without a number is one of the text of the path. -/
theorem unusable?_of_reach (failed : disk.reach access path = .error fault) (unnumbered : fault.number? = none) :
    unusable? path.text = some fault := by
  rw [reach] at failed
  cases placed : disk.place path with
  | ok place =>
    simp only [placed, grant] at failed
    split at failed
    · obtain rfl := Except.error.inj failed; cases unnumbered
    · split at failed
      · obtain rfl := Except.error.inj failed; cases unnumbered
      · cases failed
  | error found =>
    simp only [placed] at failed
    obtain rfl := Except.error.inj failed
    rw [place] at placed
    cases unusable : unusable? path.text with
    | some other =>
      simp only [unusable] at placed
      rw [Except.error.inj placed]
    | none =>
      simp only [unusable] at placed
      split at placed
      · obtain rfl := Except.error.inj placed; cases unnumbered
      · exact absurd unnumbered (number?_of_walk placed)

theorem number?_of_read (usable : unusable? path.text = none) (failed : disk.read path = .error fault) :
    fault.number? ≠ none := by
  rw [read] at failed
  split at failed
  · next reached =>
    obtain rfl := Except.error.inj failed
    intro unnumbered
    rw [unusable?_of_reach reached unnumbered] at usable
    cases usable
  · obtain rfl := Except.error.inj failed
    simp [FileError.number?]
  · cases failed

/-! ## Questions -/

theorem exists_isFile_iff : (∃ answer, disk.isFile path = .ok answer) ↔
    ∀ fault, disk.find path = .error fault → fault.meansNothing = true := by
  rw [isFile, ask]
  cases disk.find path with
  | ok tree => simp
  | error fault => by_cases absent : fault.meansNothing = true <;> simp [absent]

theorem isFile_eq_true_iff : disk.isFile path = .ok true ↔ ∃ contents, disk.find path = .ok (.file contents) := by
  rw [isFile, ask]
  cases disk.find path with
  | ok tree => cases tree <;> simp [FileTree.isFile]
  | error fault => by_cases absent : fault.meansNothing = true <;> simp [absent]

/-- What the system refuses on a disk it refuses on the other; or it refuses nothing at all. -/
def OpenAs (later disk : Disk) : Prop :=
  (∀ access place, later.refusal access place = none) ∨
    later.workingDirectory = disk.workingDirectory ∧
      ∀ access place, disk.refusal access place = none → later.refusal access place = none

theorem OpenAs.refl (disk : Disk) : disk.OpenAs disk := .inr ⟨rfl, fun _ _ granted => granted⟩

/-- A question about a path that was found once can be asked again. -/
theorem OpenAs.exists_isFile (granted : later.OpenAs disk) (found : disk.find path = .ok tree) :
    ∃ answer, later.isFile path = .ok answer := by
  obtain ⟨place, placed, -, asked⟩ := reach_eq_ok_iff.mp found
  obtain ⟨usable, short, walked⟩ := place_eq_ok_iff.mp placed
  refine exists_isFile_iff.mpr fun fault failed => ?_
  have onward : (∃ final, later.refusal .ask final = none ∧
      later.walk (if path.rooted then [] else later.workingDirectory) path.components = .ok final) ∨
      ∃ fault, later.walk (if path.rooted then [] else later.workingDirectory) path.components = .error fault ∧
        fault.meansNothing = true := by
    rcases granted with free | ⟨home, less⟩
    · rcases walk_of_free (free .search) (fitsName_of_walk walked) with ⟨final, onward⟩ | absent
      · exact .inl ⟨final, free .ask final, onward⟩
      · exact .inr absent
    · rw [home]
      rcases walk_of_walk (less .search) walked with onward | absent
      · exact .inl ⟨place, less .ask place asked, onward⟩
      · exact .inr absent
  rw [find, reach, Disk.place, usable] at failed
  simp only [Nat.not_lt.mpr short, if_false] at failed
  rcases onward with ⟨final, askable, walkedOn⟩ | ⟨other, walkedOn, absent⟩
  · simp only [walkedOn, grant, askable] at failed
    split at failed
    · obtain rfl := Except.error.inj failed; rfl
    · cases failed
  · simp only [walkedOn] at failed
    rwa [← Except.error.inj failed]

/-! ## Below a directory -/

theorem walk_append (place front back : List Text) :
    disk.walk place (front ++ back) = (disk.walk place front).bind (disk.walk · back) := by
  induction front generalizing place with
  | nil => rfl
  | cons component front ih =>
    rw [List.cons_append, walk, walk]
    cases disk.step place component with
    | error fault => rfl
    | ok next => exact ih next

theorem walk_append_eq_ok_iff {front back : List Text} : disk.walk place (front ++ back) = .ok final ↔
    ∃ middle, disk.walk place front = .ok middle ∧ disk.walk middle back = .ok final := by
  rw [walk_append]
  cases disk.walk place front <;> simp [Except.bind]

/-- A way along names goes down to each of them in turn. -/
theorem walk_of_names (named : ∀ name ∈ names, Path.IsName name) (walked : disk.walk place names = .ok final) :
    final = place ++ names := by
  induction names generalizing place with
  | nil => simpa [walk, eq_comm] using walked
  | cons name names ih =>
    obtain ⟨here, others⟩ := List.forall_mem_cons.mp named
    rw [walk] at walked
    cases stepped : disk.step place name with
    | error fault => simp [stepped] at walked
    | ok next =>
      rw [stepped] at walked
      obtain ⟨-, -, ⟨parent, -⟩ | ⟨-, -, rfl⟩⟩ := step_eq_ok_iff.mp stepped
      · exact absurd parent here.notParent
      · rw [ih others walked, List.append_assoc, List.singleton_append]

/-- Names under a directory that was found lead to what the tree of the directory holds there. -/
theorem at?_of_reach (found : disk.find root = .ok top) (named : ∀ name ∈ names, Path.IsName name)
    (reached : disk.reach access (root.below names) = .ok tree) : top.at? names = some tree := by
  obtain ⟨middle, rootPlaced, here, -⟩ := reach_eq_ok_iff.mp found
  obtain ⟨final, placed, there, -⟩ := reach_eq_ok_iff.mp reached
  obtain ⟨again, toRoot, down⟩ := walk_append_eq_ok_iff.mp (place_eq_ok_iff.mp placed).2.2
  obtain rfl : again = middle := Except.ok.inj (toRoot.symm.trans (place_eq_ok_iff.mp rootPlaced).2.2)
  obtain rfl := walk_of_names named down
  rw [FileTree.at?_append, here] at there
  exact there

/-- Where a tree holds something, the way down to it is there; what may happen is that an access is refused. -/
theorem walk_down (here : disk.root.at? place = some top) (there : top.at? names = some tree)
    (named : ∀ name ∈ names, Path.IsName name) :
    disk.walk place names = .ok (place ++ names) ∨
      ∃ error further, disk.refusal .search further = some error ∧ disk.walk place names = .error (.refused error) := by
  induction names generalizing place top with
  | nil => exact .inl (by rw [walk, List.append_nil])
  | cons name names ih =>
    obtain ⟨first, others⟩ := List.forall_mem_cons.mp named
    cases top with
    | file contents => cases there
    | directory entries =>
      rw [FileTree.at?_directory_cons, Option.bind_eq_some_iff] at there
      obtain ⟨entry, held, below⟩ := there
      have next : disk.root.at? (place ++ [name]) = some entry := by
        rw [FileTree.at?_append, here, Option.bind_some, FileTree.at?_directory_cons, held]
        rfl
      rw [walk]
      cases refused : disk.refusal .search place with
      | some error => exact .inr ⟨error, place, refused, by simp [step, here, refused]⟩
      | none =>
        rw [step_eq_ok_iff.mpr ⟨⟨entries, here⟩, refused, .inr ⟨first.notParent, first.short, rfl⟩⟩]
        rcases ih next below others with down | ⟨error, further, refused, failed⟩
        · exact .inl (by simp [down])
        · exact .inr ⟨error, further, refused, failed⟩

section Below

variable (found : disk.find root = .ok top) (named : ∀ name ∈ names, Path.IsName name)
  (there : top.at? names = some tree)
include found named there

/-- What a tree holds is reached, unless the path is too long or an access is refused. -/
theorem reach_below (access : Access) : disk.reach access (root.below names) = .ok tree ∨
    (pathLimit < (nameBytes (root.below names).text).length ∧
      disk.reach access (root.below names) = .error .nameTooLong) ∨
    ∃ error granting further, disk.refusal granting further = some error ∧
      disk.reach access (root.below names) = .error (.refused error) := by
  obtain ⟨middle, rootPlaced, here, -⟩ := reach_eq_ok_iff.mp found
  obtain ⟨usable, -, toRoot⟩ := place_eq_ok_iff.mp rootPlaced
  have alsoUsable := Path.unusable?_below usable named
  by_cases long : pathLimit < (nameBytes (root.below names).text).length
  · exact .inr (.inl ⟨long, by simp [reach, place, alsoUsable, long]⟩)
  rcases walk_down here there named with down | ⟨error, further, refused, failed⟩
  · have walked := walk_append_eq_ok_iff.mpr ⟨middle, toRoot, down⟩
    have placed : disk.place (root.below names) = .ok (middle ++ names) :=
      place_eq_ok_iff.mpr ⟨alsoUsable, Nat.not_lt.mp long, walked⟩
    have held : disk.root.at? (middle ++ names) = some tree := by
      rw [FileTree.at?_append, here]
      exact there
    cases refused : disk.refusal access (middle ++ names) with
    | none => exact .inl (reach_eq_ok_iff.mpr ⟨_, placed, held, refused⟩)
    | some error => exact .inr (.inr ⟨error, access, _, refused, by simp [reach, placed, grant, held, refused]⟩)
  · refine .inr (.inr ⟨error, .search, further, refused, ?_⟩)
    have walked : disk.walk (if (root.below names).rooted then [] else disk.workingDirectory)
        (root.below names).components = .error (.refused error) := by
      rw [Path.below, walk_append, toRoot]
      exact failed
    rw [reach, Disk.place, alsoUsable]
    simp only [long, if_false, walked]

/-- Where a question about it is answered, it is found. -/
theorem find_of_isFile {answer : Bool} (answered : disk.isFile (root.below names) = .ok answer) :
    disk.find (root.below names) = .ok tree := by
  have absent := exists_isFile_iff.mp ⟨answer, answered⟩
  rcases reach_below found named there .ask with reached | ⟨-, failed⟩ | ⟨error, -, -, -, failed⟩
  · exact reached
  · cases absent _ failed
  · exact absurd (absent _ failed) (by simp)

/-- A disk that refuses nothing lets everything be reached that has a path of a length to be looked up. -/
theorem reach_of_free (access : Access) (free : ∀ access place, disk.refusal access place = none)
    (short : (nameBytes (root.below names).text).length ≤ pathLimit) :
    disk.reach access (root.below names) = .ok tree := by
  rcases reach_below found named there access with reached | ⟨long, -⟩ | ⟨error, granting, further, refused, -⟩
  · exact reached
  · exact absurd short (Nat.not_le.mpr long)
  · simp [free] at refused

end Below

end Disk

end ApexComments
