import ApexComments.Proofs.FusedLines
import Mathlib.Data.List.Forall2

/-!
# Runs of documentation lines

Pieces are cut into groups: runs of documentation lines on consecutive lines, and single pieces. A cut is maximal
where no two of its groups could be one (`IsMaximalCut`). A list of pieces has one maximal cut, the one that fusing
goes by (`IsMaximalCut.eq_docLineGroups`). The maximal cut of pieces that have been fused is that into single pieces,
so fusing them again changes nothing. The pieces that fusing gives are those that a loop over their indices gives out,
which goes on behind each run it comes to (`exists_rounds_fuseDocLines`).
-/
namespace ApexComments.Piece

variable {source : Array UInt8} {piece step next : Piece} {pieces group run : List Piece} {groups : List (List Piece)}

/-! ## What a cut is -/

/-- Documentation lines at the even places and steps to the next line at the odd ones, with a documentation line at
either end. -/
structure Alternates (source : Array UInt8) (group : List Piece) : Prop where
  odd : group.length % 2 = 1
  line : ∀ (k : Nat) (piece : Piece), group[k]? = some piece → k % 2 = 0 → isDocLine source piece = true
  step : ∀ (k : Nat) (piece : Piece), group[k]? = some piece → k % 2 = 1 → isLineStep source piece = true

/-- At least two documentation lines on consecutive lines. -/
structure IsRun (source : Array UInt8) (group : List Piece) : Prop extends Alternates source group where
  several : 3 ≤ group.length

/-- Two groups that could be one: documentation lines on either side of a single step to the next line. -/
def Joins (source : Array UInt8) (group between next : List Piece) : Prop :=
  (∃ last ∈ group.getLast?, isDocLine source last = true) ∧ (∃ step, between = [step] ∧ isLineStep source step = true) ∧
    ∃ first ∈ next.head?, isDocLine source first = true

/-- A cut into single pieces and runs in which no two groups could be one. -/
structure IsMaximalCut (source : Array UInt8) (pieces : List Piece) (groups : List (List Piece)) : Prop where
  flatten_eq : groups.flatten = pieces
  shape : ∀ group ∈ groups, (∃ piece, group = [piece]) ∨ IsRun source group
  maximal : ∀ (k : Nat) (group between next : List Piece), groups[k]? = some group → groups[k + 1]? = some between →
    groups[k + 2]? = some next → ¬ Joins source group between next

/-- What becomes of a group: a single piece stays as it is, and a run is one hidden piece from the start of its first
line to the end of its last. -/
def FusesTo (source : Array UInt8) (group : List Piece) (piece : Piece) : Prop :=
  group = [piece] ∨ IsRun source group ∧ ∃ first last, group.head? = some first ∧ group.getLast? = some last ∧
    piece = ⟨first.start, last.stop, "doc_line_comment", true⟩

/-! ## Longer runs -/

theorem alternates_singleton_iff : Alternates source [piece] ↔ isDocLine source piece = true := by
  constructor
  · intro alternates
    exact alternates.line 0 piece rfl rfl
  · intro isLine
    refine ⟨rfl, ?_, ?_⟩
    · intro k other here _
      rwa [← List.mem_singleton.mp (List.mem_of_getElem? here)] at isLine
    · intro k other here odd
      have inside := (List.getElem?_eq_some_iff.mp here).1
      simp only [List.length_singleton] at inside
      omega

theorem alternates_cons_cons_iff : Alternates source (piece :: step :: run) ↔
    isDocLine source piece = true ∧ isLineStep source step = true ∧ Alternates source run := by
  constructor
  · intro alternates
    refine ⟨alternates.line 0 piece rfl rfl, alternates.step 1 step rfl rfl, ?_, ?_, ?_⟩
    · have odd := alternates.odd
      simp only [List.length_cons] at odd
      omega
    · intro k other here even
      exact alternates.line (k + 2) other here (by omega)
    · intro k other here odd
      exact alternates.step (k + 2) other here (by omega)
  · rintro ⟨isLine, isStep, alternates⟩
    refine ⟨?_, ?_, ?_⟩
    · have odd := alternates.odd
      simp only [List.length_cons]
      omega
    · intro k other here even
      match k, here with
      | 0, here => rwa [← Option.some.inj here]
      | k + 2, here => exact alternates.line k other here (by omega)
    · intro k other here odd
      match k, here with
      | 1, here => rwa [← Option.some.inj here]
      | k + 2, here => exact alternates.step k other here (by omega)

theorem Alternates.single_or_isRun (alternates : Alternates source group) :
    (∃ piece, group = [piece]) ∨ IsRun source group := by
  have odd := alternates.odd
  by_cases single : group.length = 1
  · exact .inl (List.length_eq_one_iff.mp single)
  · exact .inr ⟨alternates, by omega⟩

theorem IsRun.exists_cons (isRun : IsRun source group) :
    ∃ first step next rest, group = first :: step :: next :: rest := by
  have several := isRun.several
  rcases group with _ | ⟨first, _ | ⟨step, _ | ⟨next, rest⟩⟩⟩
  · simp at several
  · simp at several
  · simp at several
  · exact ⟨first, step, next, rest, rfl⟩

/-- A group of a cut that starts with a documentation line. -/
theorem alternates_of_shape (isNext : isDocLine source next = true)
    (shape : (∃ piece, next :: run = [piece]) ∨ IsRun source (next :: run)) : Alternates source (next :: run) := by
  rcases shape with ⟨only, single⟩ | isRun
  · rw [(List.cons.inj single).2]
    exact alternates_singleton_iff.mpr isNext
  · exact isRun.toAlternates

/-! ## Cuts of one piece more -/

theorem joins_singleton_iff : Joins source [piece] [step] (next :: run) ↔
    (isDocLine source piece && isLineStep source step && isDocLine source next) = true := by
  simp [Joins, and_assoc]

/-- A piece in front of a maximal cut is a group by itself, unless it could be one with the first group but one. -/
theorem isMaximalCut_cons_alone_iff : IsMaximalCut source (piece :: pieces) ([piece] :: groups) ↔
    IsMaximalCut source pieces groups ∧ ∀ step next run rest, groups = [step] :: (next :: run) :: rest →
      ¬ (isDocLine source piece && isLineStep source step && isDocLine source next) = true := by
  constructor
  · intro cut
    refine ⟨⟨(List.cons.inj cut.flatten_eq).2, ?_, fun k => cut.maximal (k + 1)⟩, ?_⟩
    · intro group member
      exact cut.shape group (List.mem_cons_of_mem [piece] member)
    · rintro step next run rest rfl
      rw [← joins_singleton_iff]
      exact cut.maximal 0 [piece] [step] (next :: run) rfl rfl rfl
  · rintro ⟨cut, apart⟩
    refine ⟨?_, List.forall_mem_cons.mpr ⟨.inl ⟨piece, rfl⟩, cut.shape⟩, ?_⟩
    · rw [List.flatten_cons, cut.flatten_eq]
      rfl
    · intro k group between following here there further
      cases k with
      | succ k => exact cut.maximal k group between following here there further
      | zero =>
        rintro ⟨isLine, ⟨step, rfl, isStep⟩, next, isNext⟩
        obtain rfl : [piece] = group := Option.some.inj here
        obtain ⟨run, rfl⟩ := List.head?_eq_some_iff.mp isNext.1
        obtain ⟨rest, rfl⟩ : ∃ rest, groups = [step] :: (next :: run) :: rest := by
          match groups, there, further with
          | _ :: _ :: rest, there, further => exact ⟨rest, by rw [Option.some.inj there, Option.some.inj further]⟩
        exact apart step next run rest rfl (joins_singleton_iff.mp ⟨isLine, ⟨step, rfl, isStep⟩, next, isNext⟩)

/-- A documentation line in front of a maximal cut that goes on with a step and a documentation line is the first of
their run. -/
theorem isMaximalCut_cons_joined_iff :
    IsMaximalCut source (piece :: pieces) ((piece :: step :: next :: run) :: groups) ↔
      isDocLine source piece = true ∧ isLineStep source step = true ∧ isDocLine source next = true ∧
        IsMaximalCut source pieces ([step] :: (next :: run) :: groups) := by
  -- The run ends as it did without the piece, so it could be one with the same groups behind it.
  have sameEnd (between following : List Piece) : Joins source (piece :: step :: next :: run) between following ↔
      Joins source (next :: run) between following := by
    rw [Joins, Joins, List.getLast?_cons_cons, List.getLast?_cons_cons]
  constructor
  · intro cut
    obtain ⟨shape, others⟩ := List.forall_mem_cons.mp cut.shape
    obtain ⟨isLine, isStep, alternates⟩ : isDocLine source piece = true ∧ isLineStep source step = true ∧
        Alternates source (next :: run) := by
      rcases shape with ⟨only, single⟩ | isRun
      · simp at single
      · exact alternates_cons_cons_iff.mp isRun.toAlternates
    refine ⟨isLine, isStep, alternates.line 0 next rfl rfl, (List.cons.inj cut.flatten_eq).2, ?_, ?_⟩
    · exact List.forall_mem_cons.mpr ⟨.inl ⟨step, rfl⟩, List.forall_mem_cons.mpr ⟨alternates.single_or_isRun, others⟩⟩
    · intro k group between following here there further
      match k, here, there, further with
      | 0, here, _, _ =>
        obtain rfl : [step] = group := Option.some.inj here
        rintro ⟨⟨last, isLast, isLine⟩, -, -⟩
        obtain rfl : step = last := Option.some.inj isLast
        simp [isDocLine_of_isLineStep isStep] at isLine
      | 1, here, there, further =>
        obtain rfl : next :: run = group := Option.some.inj here
        rw [← sameEnd]
        exact cut.maximal 0 _ between following rfl there further
      | k + 2, here, there, further => exact cut.maximal (k + 1) group between following here there further
  · rintro ⟨isLine, isStep, isNext, cut⟩
    obtain ⟨-, shape, others⟩ := List.forall_mem_cons.mp cut.shape |>.imp_right List.forall_mem_cons.mp
    have alternates := alternates_cons_cons_iff.mpr ⟨isLine, isStep, alternates_of_shape isNext shape⟩
    refine ⟨?_, List.forall_mem_cons.mpr ⟨.inr ⟨alternates, by simp⟩, others⟩, ?_⟩
    · rw [← cut.flatten_eq]
      simp
    · intro k group between following here there further
      cases k with
      | zero =>
        obtain rfl : piece :: step :: next :: run = group := Option.some.inj here
        rw [sameEnd]
        exact cut.maximal 1 _ between following rfl there further
      | succ k => exact cut.maximal (k + 2) group between following here there further

/-! ## The cut that fusing goes by -/

theorem isMaximalCut_docLineGroups (source : Array UInt8) (pieces : List Piece) :
    IsMaximalCut source pieces (docLineGroups source pieces) := by
  induction pieces with
  | nil => exact ⟨rfl, by simp [docLineGroups], by simp [docLineGroups]⟩
  | cons piece rest ih =>
    rw [docLineGroups]
    split
    · next step next run groups grouped =>
      rw [grouped] at ih
      split
      · next fits =>
        simp only [Bool.and_eq_true] at fits
        exact isMaximalCut_cons_joined_iff.mpr ⟨fits.1.1, fits.1.2, fits.2, ih⟩
      · next apart =>
        refine isMaximalCut_cons_alone_iff.mpr ⟨ih, ?_⟩
        rintro _ _ _ _ ⟨⟩
        exact apart
    · next other =>
      refine isMaximalCut_cons_alone_iff.mpr ⟨ih, ?_⟩
      intro step next run groups grouped
      exact absurd grouped (other step next run groups)

/-- No other cut is maximal. -/
theorem IsMaximalCut.eq_docLineGroups (cut : IsMaximalCut source pieces groups) :
    groups = docLineGroups source pieces := by
  induction pieces generalizing groups with
  | nil =>
    refine List.eq_nil_iff_forall_not_mem.mpr fun group member => ?_
    have empty := List.flatten_eq_nil_iff.mp cut.flatten_eq group member
    rcases cut.shape group member with ⟨piece, rfl⟩ | isRun
    · simp at empty
    · have several := isRun.several
      simp [empty] at several
  | cons piece rest ih =>
    cases groups with
    | nil => exact absurd cut.flatten_eq (by simp)
    | cons group groups =>
      rcases cut.shape group List.mem_cons_self with ⟨only, rfl⟩ | isRun
      · obtain rfl : only = piece := (List.cons.inj cut.flatten_eq).1
        obtain ⟨later, apart⟩ := isMaximalCut_cons_alone_iff.mp cut
        rw [docLineGroups, ← ih later]
        split
        · rw [if_neg (apart _ _ _ _ rfl)]
        · rfl
      · obtain ⟨first, step, next, run, rfl⟩ := isRun.exists_cons
        obtain rfl : first = piece := (List.cons.inj cut.flatten_eq).1
        obtain ⟨isLine, isStep, isNext, later⟩ := isMaximalCut_cons_joined_iff.mp cut
        simp [docLineGroups, ← ih later, isLine, isStep, isNext]

/-! ## Fusing -/

theorem exists_fusesTo (shape : (∃ piece, group = [piece]) ∨ IsRun source group) :
    ∃ piece, fuse group = some piece ∧ FusesTo source group piece := by
  rcases shape with ⟨piece, rfl⟩ | isRun
  · exact ⟨piece, rfl, .inl rfl⟩
  · obtain ⟨first, second, third, rest, rfl⟩ := isRun.exists_cons
    refine ⟨_, rfl, .inr ⟨isRun, first, (third :: rest).getLastD second, rfl, ?_, rfl⟩⟩
    simp [List.getLast?_cons]

theorem forall₂_fuse (shape : ∀ group ∈ groups, (∃ piece, group = [piece]) ∨ IsRun source group) :
    List.Forall₂ (FusesTo source) groups (groups.filterMap fuse) := by
  induction groups with
  | nil => exact .nil
  | cons group groups ih =>
    obtain ⟨here, later⟩ := List.forall_mem_cons.mp shape
    obtain ⟨piece, fused, fusesTo⟩ := exists_fusesTo here
    rw [List.filterMap_cons_some fused]
    exact .cons fusesTo (ih later)

theorem group_of_fused (fused : List.Forall₂ (FusesTo source) groups pieces) {k : Nat}
    (here : pieces[k]? = some piece) (kept : piece.kind ≠ "doc_line_comment") : groups[k]? = some [piece] := by
  obtain ⟨inside, rfl⟩ := List.getElem?_eq_some_iff.mp here
  have there : k < groups.length := by
    rw [fused.length_eq]
    exact inside
  rcases fused.get there inside with single | ⟨-, first, last, -, -, run⟩
  · rw [List.getElem?_eq_getElem there]
    exact congrArg some single
  · exact absurd (congrArg Piece.kind run) kept

/-- No two pieces that have been fused could be one: they would be single pieces of the cut already. -/
theorem isMaximalCut_singletons {whole : List Piece} (cut : IsMaximalCut source whole groups)
    (fused : List.Forall₂ (FusesTo source) groups pieces) :
    IsMaximalCut source pieces (pieces.map fun piece => [piece]) := by
  refine ⟨by rw [← List.flatMap_def, List.flatMap_singleton'], by simp, ?_⟩
  intro k group between following here there further
  rw [List.getElem?_map, Option.map_eq_some_iff] at here there further
  obtain ⟨piece, atPiece, rfl⟩ := here
  obtain ⟨step, atStep, rfl⟩ := there
  obtain ⟨next, atNext, rfl⟩ := further
  intro joins
  have fits := joins_singleton_iff.mp joins
  simp only [isDocLine, isLineStep, Bool.and_eq_true, beq_iff_eq] at fits
  refine cut.maximal k [piece] [step] [next] (group_of_fused fused atPiece ?_) (group_of_fused fused atStep ?_)
    (group_of_fused fused atNext ?_) joins
  · simp [fits.1.1.1]
  · simp [fits.1.2.1]
  · simp [fits.2.1]

theorem fuseDocLines_of_isMaximalCut (cut : IsMaximalCut source pieces (pieces.map fun piece => [piece])) :
    fuseDocLines source pieces = pieces := by
  rw [fuseDocLines, ← cut.eq_docLineGroups, List.filterMap_map]
  exact List.filterMap_some

/-- Fusing goes by the maximal cut of the pieces: there is exactly one, each of its runs becomes one hidden piece, and
its single pieces stay. Fusing again changes nothing. -/
theorem fuseDocLines_maximal_runs (source : Array UInt8) (pieces : List Piece) :
    (∃ groups, IsMaximalCut source pieces groups ∧ (∀ other, IsMaximalCut source pieces other → other = groups) ∧
      List.Forall₂ (FusesTo source) groups (fuseDocLines source pieces)) ∧
      fuseDocLines source (fuseDocLines source pieces) = fuseDocLines source pieces := by
  have cut := isMaximalCut_docLineGroups source pieces
  have fused : List.Forall₂ (FusesTo source) (docLineGroups source pieces) (fuseDocLines source pieces) :=
    forall₂_fuse cut.shape
  refine ⟨⟨docLineGroups source pieces, cut, fun other isCut => isCut.eq_docLineGroups, fused⟩, ?_⟩
  exact fuseDocLines_of_isMaximalCut (isMaximalCut_singletons cut fused)

/-! ## The loop -/

/-- Whether a run goes on behind the piece at an index: a step to the next line follows, and a documentation line. -/
def goesOn (source : Array UInt8) (pieces : List Piece) (index : Nat) : Bool :=
  match pieces[index + 1]?, pieces[index + 2]? with
  | some step, some next => isLineStep source step && isDocLine source next
  | _, _ => false

theorem goesOn_eq_true_iff {index : Nat} : goesOn source pieces index = true ↔ ∃ step next,
    pieces[index + 1]? = some step ∧ pieces[index + 2]? = some next ∧
      isLineStep source step = true ∧ isDocLine source next = true := by
  rw [goesOn]
  cases pieces[index + 1]? <;> cases pieces[index + 2]? <;> simp

theorem lt_length_of_goesOn {index : Nat} (onward : goesOn source pieces index = true) : index + 2 < pieces.length := by
  obtain ⟨step, next, -, there, -⟩ := goesOn_eq_true_iff.mp onward
  exact (List.getElem?_eq_some_iff.mp there).1

/-- The index of the last line of the run that the documentation line at an index begins. -/
def runEnd (source : Array UInt8) (pieces : List Piece) (index : Nat) : Nat :=
  if goesOn source pieces index then runEnd source pieces (index + 2) else index
termination_by pieces.length - index
decreasing_by
  have inside := lt_length_of_goesOn ‹_›
  omega

/-- How far the fusing has come: the index of the piece that is looked at next, and the pieces given out. -/
structure FuseWalk where
  index : Nat
  fused : List Piece

namespace FuseWalk

variable {walk later : FuseWalk}

/-- One round of the loop. There is none where no piece is left. A run is given out as one piece, and the loop goes on
behind it. -/
def round (source : Array UInt8) (pieces : List Piece) (walk : FuseWalk) : Option FuseWalk :=
  (pieces[walk.index]?).map fun piece =>
    let last := runEnd source pieces walk.index
    if isDocLine source piece && walk.index < last then
      ⟨last + 1, walk.fused ++ [⟨piece.start, (pieces.getD last piece).stop, "doc_line_comment", true⟩]⟩
    else ⟨walk.index + 1, walk.fused ++ [piece]⟩

/-- So many rounds. There is no outcome where the loop ends before. -/
def rounds (source : Array UInt8) (pieces : List Piece) : Nat → FuseWalk → Option FuseWalk
  | 0, walk => some walk
  | n + 1, walk => (walk.round source pieces).bind (rounds source pieces n)

/-- The pieces given out, and those that fusing makes of the rest. -/
def outcome (source : Array UInt8) (pieces : List Piece) (walk : FuseWalk) : List Piece :=
  walk.fused ++ fuseDocLines source (pieces.drop walk.index)

end FuseWalk

theorem docLineGroups_cons_of_apart {rest : List Piece} (apart : ∀ step next further, rest = step :: next :: further →
    (isLineStep source step && isDocLine source next) = false) :
    docLineGroups source (piece :: rest) = [piece] :: docLineGroups source rest := by
  rw [docLineGroups]
  split
  · next step next run groups grouped =>
    have flat := flatten_docLineGroups source rest
    rw [grouped] at flat
    have fits := apart step next (run ++ groups.flatten) (by simpa using flat.symm)
    rw [Bool.and_assoc, fits, Bool.and_false, if_neg Bool.false_ne_true, grouped]
  · rfl

theorem drop_eq_cons {index : Nat} (here : pieces[index]? = some piece) :
    pieces.drop index = piece :: pieces.drop (index + 1) := by
  rw [List.drop_eq_getElem?_toList_append, here]
  rfl

/-- The group of a documentation line ends where its run does, and the groups behind it are those of what is left. -/
theorem exists_run_of_isDocLine {index : Nat} (here : pieces[index]? = some piece)
    (isLine : isDocLine source piece = true) : ∃ run,
      docLineGroups source (pieces.drop index) =
        (piece :: run) :: docLineGroups source (pieces.drop (runEnd source pieces index + 1)) ∧
      index + run.length = runEnd source pieces index ∧
      (piece :: run).getLast? = pieces[runEnd source pieces index]? := by
  induction index using runEnd.induct source pieces generalizing piece with
  | case1 index onward ih =>
    obtain ⟨step, next, atStep, atNext, isStep, isNext⟩ := goesOn_eq_true_iff.mp onward
    obtain ⟨run, grouped, length, last⟩ := ih atNext isNext
    rw [runEnd, if_pos onward]
    refine ⟨step :: next :: run, ?_, ?_, ?_⟩
    · rw [drop_eq_cons here, drop_eq_cons atStep]
      exact docLineGroups_join isLine isStep isNext grouped
    · rw [← length, List.length_cons, List.length_cons]
      omega
    · rw [← last, List.getLast?_cons_cons, List.getLast?_cons_cons]
  | case2 index stopped =>
    rw [runEnd, if_neg stopped]
    refine ⟨[], ?_, rfl, by rw [here]; rfl⟩
    rw [drop_eq_cons here]
    refine docLineGroups_cons_of_apart fun step next further rest => ?_
    rw [Bool.eq_false_iff]
    intro fits
    rw [Bool.and_eq_true] at fits
    have atStep := congrArg (·[0]?) rest
    have atNext := congrArg (·[1]?) rest
    simp only [List.getElem?_drop] at atStep atNext
    exact stopped (goesOn_eq_true_iff.mpr ⟨step, next, atStep, atNext, fits⟩)

namespace FuseWalk

variable {walk later : FuseWalk}

theorem round_eq_none_iff : walk.round source pieces = none ↔ pieces.length ≤ walk.index := by
  rw [round, Option.map_eq_none_iff, List.getElem?_eq_none_iff]

/-- What a round does with the next piece, on which a run may follow. -/
theorem round_cases (stepped : walk.round source pieces = some later) : ∃ piece run,
    pieces[walk.index]? = some piece ∧
      docLineGroups source (pieces.drop walk.index) = (piece :: run) :: docLineGroups source (pieces.drop later.index) ∧
      later.index = walk.index + run.length + 1 ∧ later.fused = walk.fused ++ (fuse (piece :: run)).toList := by
  rw [round, Option.map_eq_some_iff] at stepped
  obtain ⟨piece, here, rfl⟩ := stepped
  cases isLine : isDocLine source piece with
  | false =>
    refine ⟨piece, [], here, ?_, rfl, rfl⟩
    rw [drop_eq_cons here, docLineGroups_cons_of_not_docLine isLine]
    rfl
  | true =>
    obtain ⟨run, grouped, length, isLast⟩ := exists_run_of_isDocLine here isLine
    refine ⟨piece, run, here, ?_⟩
    cases run with
    | nil =>
      have stays : runEnd source pieces walk.index = walk.index := length.symm
      rw [stays] at grouped
      simp only [stays, Nat.lt_irrefl, decide_false, Bool.and_false, Bool.false_eq_true, if_false]
      exact ⟨grouped, rfl, rfl⟩
    | cons second rest =>
      have longer : walk.index < runEnd source pieces walk.index := by
        rw [← length, List.length_cons]
        omega
      have stop : pieces.getD (runEnd source pieces walk.index) piece = rest.getLastD second := by
        rw [List.getD_eq_getElem?_getD, ← isLast, List.getLast?_cons_cons, List.getLast?_cons,
          List.getLastD_eq_getLast?]
        rfl
      simp only [longer, decide_true, Bool.and_true, if_true, stop]
      exact ⟨grouped, by rw [length], rfl⟩

/-- A round gives out what fusing makes of the first pieces of the rest. -/
theorem outcome_round (stepped : walk.round source pieces = some later) :
    later.outcome source pieces = walk.outcome source pieces := by
  obtain ⟨piece, run, -, grouped, -, fused⟩ := round_cases stepped
  rw [outcome, outcome, fused, fuseDocLines, fuseDocLines, grouped, List.filterMap_cons, List.append_assoc]
  cases fuse (piece :: run) <;> rfl

/-- The loop comes to an end, after no more rounds than there are pieces left, and then it has given out what fusing
makes of the pieces. -/
theorem exists_end (source : Array UInt8) (pieces : List Piece) (walk : FuseWalk) :
    ∃ n last, n ≤ pieces.length - walk.index ∧ walk.rounds source pieces n = some last ∧
      last.round source pieces = none ∧ last.fused = walk.outcome source pieces := by
  induction measure : pieces.length - walk.index using Nat.strongRecOn generalizing walk with
  | ind size ih =>
    cases stepped : walk.round source pieces with
    | none =>
      have behind := round_eq_none_iff.mp stepped
      refine ⟨0, walk, Nat.zero_le _, rfl, stepped, ?_⟩
      rw [outcome, List.drop_eq_nil_of_le behind]
      exact (List.append_nil _).symm
    | some later =>
      obtain ⟨piece, run, here, -, index, -⟩ := round_cases stepped
      have inside := (List.getElem?_eq_some_iff.mp here).1
      obtain ⟨n, last, short, ran, ended, fused⟩ := ih (pieces.length - later.index) (by omega) later rfl
      refine ⟨n + 1, last, by omega, ?_, ended, fused.trans (outcome_round stepped)⟩
      rw [rounds, stepped]
      exact ran

end FuseWalk

/-- Fusing is what the loop does, from the first piece on. -/
theorem exists_rounds_fuseDocLines (source : Array UInt8) (pieces : List Piece) :
    ∃ n last, n ≤ pieces.length ∧ FuseWalk.rounds source pieces n ⟨0, []⟩ = some last ∧
      last.round source pieces = none ∧ last.fused = fuseDocLines source pieces :=
  FuseWalk.exists_end source pieces ⟨0, []⟩

end ApexComments.Piece
