import ApexComments.Proofs.Nesting
import ApexComments.Syntax.Parser
import ApexComments.Syntax.Piece

/-!
# Every leaf once

The leaves of a tree can be collected by a loop over a stack of trees: each round takes the topmost tree off and passes
it over, keeps its node, or puts its children in its place. The leaves that are kept and those that the stack still
holds stay together the leaves of the tree (`LeafWalk.leaves_round`), and the stack holds fewer and fewer nodes, so the
loop ends with all leaves (`LeafWalk.exists_end`). By their paths they are the nodes that are leaves themselves below
open nodes only, each once and in pre-order (`Site.map_nodeAt?_leafPaths`). The leaves of a well-nested tree follow one
another, so that the cursor is never beyond the leaf that is laid out next (`cursorAfter_le`).
-/
namespace ApexComments

namespace SyntaxTree

/-! ## The loop -/

/-- How far the collecting of leaves has come: the trees on the stack, the topmost last, and the leaves kept. -/
structure LeafWalk where
  stack : List SyntaxTree
  kept : List SyntaxNode

namespace LeafWalk

variable {walk next : LeafWalk}

/-- The walk before its first round. -/
def start (tree : SyntaxTree) : LeafWalk := ⟨[tree], []⟩

/-- One round of the loop. There is none where the stack is empty. The children are put on the stack last first, so that
the first of them is the topmost. -/
def round (walk : LeafWalk) : Option LeafWalk :=
  match walk.stack.getLast? with
  | none => none
  | some tree =>
    if tree.root.isEmpty then some ⟨walk.stack.dropLast, walk.kept⟩
    else if tree.children.isEmpty || tree.root.isAtomic then some ⟨walk.stack.dropLast, walk.kept ++ [tree.root]⟩
    else some ⟨walk.stack.dropLast ++ tree.children.reverse, walk.kept⟩

/-- So many rounds. There is no outcome where the loop ends before. -/
def rounds : Nat → LeafWalk → Option LeafWalk
  | 0, walk => some walk
  | n + 1, walk => walk.round.bind (rounds n)

/-- The leaves kept, and those that the stack still holds, from the topmost tree down. -/
def leaves (walk : LeafWalk) : List SyntaxNode := walk.kept ++ walk.stack.reverse.flatMap SyntaxTree.leaves

/-- How many nodes the stack holds. -/
def size (walk : LeafWalk) : Nat := (walk.stack.flatMap paths).length

/-- What a round does with the topmost tree. -/
theorem round_cases (stepped : walk.round = some next) : ∃ below tree, walk.stack = below ++ [tree] ∧
    ((tree.root.isEmpty = true ∧ next = ⟨below, walk.kept⟩) ∨
      (tree.root.isEmpty = false ∧ (tree.children.isEmpty || tree.root.isAtomic) = true ∧
        next = ⟨below, walk.kept ++ [tree.root]⟩) ∨
      (tree.root.isEmpty = false ∧ (tree.children.isEmpty || tree.root.isAtomic) = false ∧
        next = ⟨below ++ tree.children.reverse, walk.kept⟩)) := by
  rw [round] at stepped
  cases top : walk.stack.getLast? with
  | none => simp [top] at stepped
  | some tree =>
    refine ⟨walk.stack.dropLast, tree, (List.dropLast_append_getLast? tree top).symm, ?_⟩
    simp only [top] at stepped
    split at stepped
    · next empty => exact .inl ⟨empty, (Option.some.inj stepped).symm⟩
    · next wide =>
      have wide : tree.root.isEmpty = false := by simpa using wide
      split at stepped
      · next leaf => exact .inr (.inl ⟨wide, leaf, (Option.some.inj stepped).symm⟩)
      · next inner => exact .inr (.inr ⟨wide, by simpa using inner, (Option.some.inj stepped).symm⟩)

theorem round_eq_none_iff : walk.round = none ↔ walk.stack = [] := by
  rw [round]
  cases top : walk.stack.getLast? with
  | none => simpa using top
  | some tree =>
    have some : walk.stack ≠ [] := by
      intro empty
      simp [empty] at top
    simp only [some, iff_false]
    split
    · simp
    · split <;> simp

/-- A round neither loses a leaf nor moves one. -/
theorem leaves_round (stepped : walk.round = some next) : next.leaves = walk.leaves := by
  obtain ⟨below, tree, stack, step⟩ := round_cases stepped
  have ofTree := tree.leaves_eq
  rw [leaves, leaves, stack]
  rcases step with ⟨empty, rfl⟩ | ⟨wide, leaf, rfl⟩ | ⟨wide, inner, rfl⟩
  · simp [ofTree, empty]
  · simp [ofTree, wide, leaf]
  · simp [ofTree, wide, inner]

/-- Each round takes a node off the stack. -/
theorem size_round (stepped : walk.round = some next) : next.size < walk.size := by
  obtain ⟨below, tree, stack, step⟩ := round_cases stepped
  have ofTree := tree.length_paths
  have turned : (tree.children.reverse.flatMap paths).length = (tree.children.flatMap paths).length :=
    (tree.children.reverse_perm.flatMap_right paths).length_eq
  simp only [size, stack, List.flatMap_append, List.flatMap_singleton, List.length_append]
  rcases step with ⟨-, rfl⟩ | ⟨-, -, rfl⟩ | ⟨-, -, rfl⟩
  · simp [ofTree]
  · simp [ofTree]
  · simp only [List.flatMap_append, List.length_append]
    omega

/-- The loop comes to an end, after no more rounds than the stack holds nodes, and then all leaves are kept. -/
theorem exists_end (walk : LeafWalk) :
    ∃ n last, n ≤ walk.size ∧ walk.rounds n = some last ∧ last.round = none ∧ last.kept = walk.leaves := by
  induction measure : walk.size using Nat.strongRecOn generalizing walk with
  | ind size ih =>
    cases stepped : walk.round with
    | none =>
      have empty := round_eq_none_iff.mp stepped
      exact ⟨0, walk, Nat.zero_le _, rfl, stepped, by simp [leaves, empty]⟩
    | some next =>
      have smaller := size_round stepped
      obtain ⟨n, last, short, ran, ended, kept⟩ := ih next.size (measure ▸ smaller) next rfl
      refine ⟨n + 1, last, by omega, ?_, ended, kept.trans (leaves_round stepped)⟩
      rw [rounds, stepped]
      exact ran

end LeafWalk

/-! ## The paths of the leaves -/

/-- The node has some width, and what is below it is looked at. -/
def Site.IsOpen (site : Site) : Prop :=
  site.tree.root.start < site.tree.root.stop ∧ site.tree.root.isAtomic = false

/-- The node has some width, and it has no children or is a comment or a literal. -/
def Site.IsLeaf (site : Site) : Prop :=
  site.tree.root.start < site.tree.root.stop ∧ (site.tree.children = [] ∨ site.tree.root.isAtomic = true)

/-- The path leads down to a leaf, and every node on the way there is open. -/
def Site.LeadsToLeaf (site : Site) (path : List Nat) : Prop :=
  (∃ leaf ∈ site.descend? path, leaf.IsLeaf) ∧
    ∀ k < path.length, ∀ above ∈ site.descend? (path.take k), above.IsOpen

/-- The path leads from the root to a leaf below open nodes. -/
def LeadsToLeaf (tree : SyntaxTree) (path : List Nat) : Prop := (Site.top tree).LeadsToLeaf path

instance (site : Site) : Decidable site.IsOpen :=
  inferInstanceAs (Decidable (site.tree.root.start < site.tree.root.stop ∧ site.tree.root.isAtomic = false))

instance (site : Site) : Decidable site.IsLeaf :=
  inferInstanceAs (Decidable (site.tree.root.start < site.tree.root.stop ∧
    (site.tree.children = [] ∨ site.tree.root.isAtomic = true)))

instance (site : Site) (path : List Nat) : Decidable (site.LeadsToLeaf path) :=
  inferInstanceAs (Decidable ((∃ leaf ∈ site.descend? path, leaf.IsLeaf) ∧
    ∀ k < path.length, ∀ above ∈ site.descend? (path.take k), above.IsOpen))

instance (tree : SyntaxTree) (path : List Nat) : Decidable (tree.LeadsToLeaf path) :=
  inferInstanceAs (Decidable ((Site.top tree).LeadsToLeaf path))

variable {site : Site} {path : List Nat}

theorem Site.leadsToLeaf_nil_iff : site.LeadsToLeaf [] ↔ site.IsLeaf := by
  simp [Site.LeadsToLeaf, Site.descend?]

theorem Site.leadsToLeaf_cons_iff {i : Nat} :
    site.LeadsToLeaf (i :: path) ↔ site.IsOpen ∧ ∃ child, site.child? i = some child ∧ child.LeadsToLeaf path := by
  constructor
  · rintro ⟨⟨leaf, reached, isLeaf⟩, through⟩
    obtain ⟨child, step, onward⟩ := Option.bind_eq_some_iff.mp reached
    refine ⟨through 0 (Nat.zero_lt_succ _) site rfl, child, step, ⟨leaf, onward, isLeaf⟩, ?_⟩
    intro k short above reachedAbove
    refine through (k + 1) (Nat.succ_lt_succ short) above ?_
    rw [List.take_succ_cons, Site.descend?, step]
    exact reachedAbove
  · rintro ⟨isOpen, child, step, ⟨leaf, onward, isLeaf⟩, through⟩
    refine ⟨⟨leaf, ?_, isLeaf⟩, ?_⟩
    · rw [Site.descend?, step]
      exact onward
    · intro k short above reachedAbove
      cases k with
      | zero =>
        obtain rfl := Option.some.inj reachedAbove
        exact isOpen
      | succ k =>
        rw [List.take_succ_cons, Site.descend?, step] at reachedAbove
        exact through k (Nat.lt_of_succ_lt_succ short) above reachedAbove

/-- The node to which a path leads down from a site. -/
def Site.nodeAt? (site : Site) (path : List Nat) : Option SyntaxNode :=
  (site.descend? path).map fun found => found.tree.root

/-- The paths that lead to leaves, in pre-order. -/
def Site.leafPaths (site : Site) : List (List Nat) := site.tree.paths.filter fun path => site.LeadsToLeaf path

theorem Site.paths_eq (site : Site) :
    site.tree.paths = [] :: site.childSites.zipIdx.flatMap fun child => child.1.tree.paths.map (child.2 :: ·) := by
  have below : site.childSites.zipIdx.flatMap (fun child => child.1.tree.paths.map (child.2 :: ·)) =
      site.tree.children.zipIdx.flatMap fun child => child.1.paths.map (child.2 :: ·) := by
    rw [← site.map_tree_childSites, List.zipIdx_map, List.flatMap_map]
    rfl
  rw [below, site.tree.paths_eq]

/-- A path to a leaf ends at the site itself or goes on below a child, where the site is open. -/
theorem Site.leafPaths_eq (site : Site) :
    site.leafPaths = (if site.IsLeaf then [[]] else []) ++
      if site.IsOpen then site.childSites.zipIdx.flatMap fun child => child.1.leafPaths.map (child.2 :: ·) else [] := by
  have here : [([] : List Nat)].filter (fun path => site.LeadsToLeaf path) = if site.IsLeaf then [[]] else [] := by
    simp only [List.filter_singleton, Site.leadsToLeaf_nil_iff, Bool.cond_decide]
  have below : ∀ child ∈ site.childSites.zipIdx,
      (child.1.tree.paths.map (child.2 :: ·)).filter (fun path => site.LeadsToLeaf path) =
        if site.IsOpen then child.1.leafPaths.map (child.2 :: ·) else [] := by
    rintro ⟨child, i⟩ member
    have step : site.child? i = some child := by
      rw [← site.getElem?_childSites]
      exact List.mem_zipIdx_iff_getElem?.mp member
    rw [List.filter_map]
    by_cases isOpen : site.IsOpen
    · simp [Function.comp_def, Site.leadsToLeaf_cons_iff, isOpen, step, Site.leafPaths]
    · simp [Function.comp_def, Site.leadsToLeaf_cons_iff, isOpen]
  rw [Site.leafPaths, site.paths_eq, ← List.singleton_append, List.filter_append, here, List.filter_flatMap]
  congr 1
  by_cases isOpen : site.IsOpen
  · simp only [isOpen, if_true] at below ⊢
    exact List.flatMap_congr below
  · simp only [isOpen, if_false] at below ⊢
    rw [List.flatMap_congr below]
    simp

theorem Site.nodeAt?_cons {child : Site} {i : Nat} (step : site.child? i = some child) (path : List Nat) :
    site.nodeAt? (i :: path) = child.nodeAt? path := by
  rw [Site.nodeAt?, Site.descend?, step]
  rfl

/-- Below each child stand its leaves. -/
theorem Site.map_nodeAt?_children
    (each : ∀ child ∈ site.childSites, child.leafPaths.map child.nodeAt? = child.tree.leaves.map some) :
    (site.childSites.zipIdx.flatMap fun child => child.1.leafPaths.map (child.2 :: ·)).map site.nodeAt? =
      (site.childSites.flatMap fun child => child.tree.leaves).map some := by
  have numbered : ∀ child ∈ site.childSites.zipIdx,
      (child.1.leafPaths.map (child.2 :: ·)).map site.nodeAt? = child.1.tree.leaves.map some := by
    rintro ⟨child, i⟩ member
    have here : site.childSites[i]? = some child := List.mem_zipIdx_iff_getElem?.mp member
    have step : site.child? i = some child := (site.getElem?_childSites i).symm.trans here
    rw [← each child (List.mem_of_getElem? here), List.map_map]
    exact List.map_congr_left fun path _ => Site.nodeAt?_cons step path
  rw [List.map_flatMap, List.map_flatMap, List.flatMap_congr numbered]
  conv_rhs => rw [← List.zipIdx_map_fst 0 site.childSites, List.flatMap_map]

/-- The induction is on the tree. From a site that is a leaf no path leads on: it is not open, or it has no children. -/
theorem Site.map_nodeAt?_leafPaths (site : Site) : site.leafPaths.map site.nodeAt? = site.tree.leaves.map some := by
  induction site using Site.induct with
  | step site ih =>
    have below := Site.map_nodeAt?_children ih
    rw [site.leafPaths_eq, site.leaves_eq]
    by_cases wide : site.tree.root.start < site.tree.root.stop
    · have nonempty : site.tree.root.isEmpty = false := by simpa [SyntaxNode.isEmpty] using wide
      by_cases ends : site.tree.children = [] ∨ site.tree.root.isAtomic = true
      · have isLeaf : site.IsLeaf := ⟨wide, ends⟩
        have hides : (site.tree.children.isEmpty || site.tree.root.isAtomic) = true := by simpa using ends
        have nothing : (if site.IsOpen then
            site.childSites.zipIdx.flatMap fun child => child.1.leafPaths.map (child.2 :: ·) else []) = [] := by
          rcases ends with childless | atomic
          · simp [Site.childSites, childless, sitesBeside]
          · simp [Site.IsOpen, atomic]
        simp only [isLeaf, if_true, nothing, List.append_nil, nonempty, hides]
        rfl
      · have inner : ¬ site.IsLeaf := fun isLeaf => ends isLeaf.2
        rw [not_or, Bool.not_eq_true] at ends
        have isOpen : site.IsOpen := ⟨wide, ends.2⟩
        simp [inner, isOpen, below, nonempty, ends]
    · have empty : site.tree.root.isEmpty = true := by simpa [SyntaxNode.isEmpty] using wide
      simp [Site.IsLeaf, Site.IsOpen, wide, empty]

/-- The node to which a path leads from the root. -/
def nodeAt? (tree : SyntaxTree) (path : List Nat) : Option SyntaxNode := (Site.top tree).nodeAt? path

end SyntaxTree

/-! ## Laying the leaves out -/

namespace Piece

variable {leaves : List SyntaxNode} {cursor bound : Nat}

/-- Where the cursor stands after the leaves have been laid out or passed over. -/
def cursorAfter (cursor : Nat) : List SyntaxNode → Nat
  | [] => cursor
  | leaf :: rest => cursorAfter (if leaf.start < cursor then cursor else leaf.stop) rest

theorem cursorAfter_le (behind : cursor ≤ bound) (each : ∀ leaf ∈ leaves, leaf.stop ≤ bound) :
    cursorAfter cursor leaves ≤ bound := by
  induction leaves generalizing cursor with
  | nil => exact behind
  | cons leaf rest ih =>
    obtain ⟨here, later⟩ := List.forall_mem_cons.mp each
    rw [cursorAfter]
    split
    · exact ih behind later
    · exact ih here later

/-- Leaves are laid out from where the cursor stands after those before them. -/
theorem exists_layOut_append (source : Array UInt8) (cursor : Nat) (front : List SyntaxNode) :
    ∃ before, ∀ back,
      layOut source cursor (front ++ back) = before ++ layOut source (cursorAfter cursor front) back := by
  induction front generalizing cursor with
  | nil => exact ⟨[], fun back => rfl⟩
  | cons leaf front ih =>
    by_cases passed : leaf.start < cursor
    · obtain ⟨before, laidOut⟩ := ih cursor
      refine ⟨before, fun back => ?_⟩
      rw [List.cons_append, layOut, if_pos passed, cursorAfter, if_pos passed, laidOut]
    · obtain ⟨before, laidOut⟩ := ih leaf.stop
      refine ⟨gapBetween source cursor leaf.start ++ ofLeaf source leaf :: before, fun back => ?_⟩
      rw [List.cons_append, layOut, if_neg passed, cursorAfter, if_neg passed, laidOut, List.append_assoc,
        List.cons_append]

end Piece

namespace SyntaxTree

/-- The loop over a stack ends, after no more rounds than the tree has nodes, with the leaves of the tree: by their
paths, each once and in pre-order, the nodes of some width that have no children or are comments or literals, below
nodes of some width only that are neither. In a well-nested tree the leaves follow one another, and each is laid out
when its turn comes, because the cursor is not beyond its start. -/
theorem leafWalk_enumerates (tree : SyntaxTree) :
    (∃ n last, n ≤ tree.paths.length ∧ (LeafWalk.start tree).rounds n = some last ∧ last.round = none ∧
      last.kept = tree.leaves) ∧
    (∃ paths : List (List Nat), paths.Pairwise (· < ·) ∧ (∀ path, path ∈ paths ↔ tree.LeadsToLeaf path) ∧
      paths.map tree.nodeAt? = tree.leaves.map some) ∧
    (tree.WellNested →
      (∀ leaf ∈ tree.leaves, leaf.start < leaf.stop) ∧
      tree.leaves.Pairwise (fun leaf later => leaf.stop ≤ later.start) ∧
      ∀ (source : Array UInt8) (front : List SyntaxNode) (leaf : SyntaxNode) (back : List SyntaxNode),
        tree.leaves = front ++ leaf :: back →
        ¬ leaf.start < Piece.cursorAfter 0 front ∧
        ∃ before, Piece.layOut source 0 tree.leaves =
          before ++ Piece.gapBetween source (Piece.cursorAfter 0 front) leaf.start ++
            Piece.ofLeaf source leaf :: Piece.layOut source leaf.stop back) := by
  refine ⟨?_, ⟨(Site.top tree).leafPaths, ?_, ?_, (Site.top tree).map_nodeAt?_leafPaths⟩, ?_⟩
  · obtain ⟨n, last, short, ran, ended, kept⟩ := (LeafWalk.start tree).exists_end
    exact ⟨n, last, by simpa [LeafWalk.size, LeafWalk.start] using short, ran, ended,
      by simpa [LeafWalk.leaves, LeafWalk.start] using kept⟩
  · exact tree.pairwise_paths.filter _
  · intro path
    rw [Site.leafPaths, List.mem_filter, decide_eq_true_eq]
    refine ⟨And.right, fun leads => ⟨?_, leads⟩⟩
    obtain ⟨⟨leaf, reached, -⟩, -⟩ := leads
    exact mem_paths_of_siteAt? reached
  · intro nested
    have everything : tree.Every fun _ => True := fun _ _ => trivial
    refine ⟨fun leaf member => (everything.of_mem_leaves member).1, nested.pairwise_leaves, ?_⟩
    intro source front leaf back split
    have ordered := nested.pairwise_leaves
    rw [split, List.pairwise_append] at ordered
    have reached : Piece.cursorAfter 0 front ≤ leaf.start :=
      Piece.cursorAfter_le (Nat.zero_le _) fun earlier member => ordered.2.2 earlier member leaf List.mem_cons_self
    obtain ⟨before, laidOut⟩ := Piece.exists_layOut_append source 0 front
    refine ⟨Nat.not_lt.mpr reached, before, ?_⟩
    rw [split, laidOut, Piece.layOut, if_neg (Nat.not_lt.mpr reached), List.append_assoc]

/-- A literal with a child, a node without width that has a child, and a statement of two leaves. -/
private def literalTree : SyntaxTree :=
  .node (Trivia.leaf "program" 0 9) [
    .node (Trivia.leaf "string_literal" 0 3) [.node (Trivia.leaf "string_fragment" 1 2) []],
    .node { Trivia.leaf "block" 3 3 with missing := true } [.node (Trivia.leaf "identifier" 3 3) []],
    .node (Trivia.leaf "expression_statement" 4 9) [.node (Trivia.leaf "identifier" 4 8) [],
      .node (Trivia.leaf ";" 8 9) []]]

/-- The literal is a leaf and hides its child; nothing below the node without width is one. -/
theorem leafWalk_enumerates_literal : literalTree.WellNested ∧
    (∃ n last, n ≤ 8 ∧ (LeafWalk.start literalTree).rounds n = some last ∧ last.round = none ∧
      last.kept = [Trivia.leaf "string_literal" 0 3, Trivia.leaf "identifier" 4 8, Trivia.leaf ";" 8 9]) ∧
    (∃ paths : List (List Nat), (∀ path, path ∈ paths ↔ literalTree.LeadsToLeaf path) ∧
      [2, 0] ∈ paths ∧ [0, 0] ∉ paths ∧ [1, 0] ∉ paths) ∧
    literalTree.leaves.Pairwise (fun leaf later => leaf.stop ≤ later.start) ∧
    ¬ 4 < Piece.cursorAfter 0 [Trivia.leaf "string_literal" 0 3] := by
  have nested : literalTree.WellNested := by decide
  have leaves : literalTree.leaves =
      [Trivia.leaf "string_literal" 0 3, Trivia.leaf "identifier" 4 8, Trivia.leaf ";" 8 9] := by decide
  obtain ⟨⟨n, last, short, ran, ended, kept⟩, ⟨paths, -, exactly, -⟩, follow⟩ := leafWalk_enumerates literalTree
  obtain ⟨-, ordered, never⟩ := follow nested
  refine ⟨nested, ⟨n, last, short, ran, ended, kept.trans leaves⟩, ⟨paths, exactly, ?_, ?_, ?_⟩, ordered, ?_⟩
  · rw [exactly]
    decide
  · rw [exactly]
    decide
  · rw [exactly]
    decide
  · exact (never #[] [Trivia.leaf "string_literal" 0 3] (Trivia.leaf "identifier" 4 8) [Trivia.leaf ";" 8 9] leaves).1

end SyntaxTree

end ApexComments
