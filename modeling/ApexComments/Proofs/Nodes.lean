import ApexComments.Syntax.Tree
import Mathlib.Data.List.Basic

/-!
# The nodes of a syntax tree

A node is named by the path that leads to it from the root: the position of a child for each step
down. Paths in lexicographic order are the nodes in pre-order, and the sites of a tree are exactly
the sites that its paths lead to, each once and in this order (`map_siteAt?_paths`). A walk that keeps
the sites still to be visited on a stack visits the same sites in the same order (`walk_top`).
-/
namespace ApexComments.SyntaxTree

/-- The site of a tree that stands by itself. -/
def Site.top (tree : SyntaxTree) : Site := ⟨none, [], tree, []⟩

/-- The site of the child at a position. -/
def Site.child? (site : Site) (i : Nat) : Option Site :=
  site.tree.children[i]?.map fun child =>
    ⟨some site.tree.root, (site.tree.children.take i).reverse, child, site.tree.children.drop (i + 1)⟩

/-- The site to which a path leads down from a site. -/
def Site.descend? (site : Site) : List Nat → Option Site
  | [] => some site
  | i :: path => (site.child? i).bind fun child => child.descend? path

/-- The site to which a path leads down from the root. -/
def siteAt? (tree : SyntaxTree) (path : List Nat) : Option Site := (Site.top tree).descend? path

/-- Every node of the tree meets the condition. -/
def Every (condition : SyntaxNode → Prop) (tree : SyntaxTree) : Prop :=
  ∀ site ∈ tree.sites, condition site.tree.root

instance (condition : SyntaxNode → Prop) [DecidablePred condition] (tree : SyntaxTree) :
    Decidable (tree.Every condition) :=
  inferInstanceAs (Decidable (∀ site ∈ tree.sites, condition site.tree.root))

theorem Every.imp {condition weaker : SyntaxNode → Prop} {tree : SyntaxTree} (every : tree.Every condition)
    (implies : ∀ node, condition node → weaker node) : tree.Every weaker :=
  fun site member => implies _ (every site member)

mutual

/-- The paths to the nodes of a tree, in pre-order. -/
def paths : SyntaxTree → List (List Nat)
  | node _ children => [] :: pathsFrom 0 children

/-- The paths to the nodes of trees side by side, the first of which has the given position. -/
def pathsFrom (i : Nat) : List SyntaxTree → List (List Nat)
  | [] => []
  | tree :: rest => (paths tree).map (i :: ·) ++ pathsFrom (i + 1) rest

end

private theorem pathsFrom_eq_flatMap (i : Nat) (trees : List SyntaxTree) :
    pathsFrom i trees = (trees.zipIdx i).flatMap fun child => child.1.paths.map (child.2 :: ·) := by
  induction trees generalizing i with
  | nil => rfl
  | cons tree rest ih => rw [pathsFrom, ih, List.zipIdx_cons, List.flatMap_cons]

/-- The path that ends at the root, and those that go on below one of its children. -/
theorem paths_eq (tree : SyntaxTree) :
    tree.paths = [] :: tree.children.zipIdx.flatMap fun child => child.1.paths.map (child.2 :: ·) := by
  rcases tree with ⟨root, children⟩
  rw [paths, pathsFrom_eq_flatMap]
  rfl

/-- A tree has one node more than its children together. -/
theorem length_paths (tree : SyntaxTree) : tree.paths.length = (tree.children.flatMap paths).length + 1 := by
  have below : (tree.children.flatMap paths).length =
      (tree.children.zipIdx.flatMap fun child => child.1.paths.map (child.2 :: ·)).length := by
    conv_lhs => rw [← List.zipIdx_map_fst 0 tree.children, List.flatMap_map]
    simp only [List.length_flatMap, List.length_map]
  rw [tree.paths_eq, List.length_cons, below]

/-! ## From a site to the sites below it -/

/-- The sites of trees that stand side by side after the given siblings, without what is below
them. -/
def sitesBeside (parent : SyntaxNode) (before : List SyntaxTree) : List SyntaxTree → List Site
  | [] => []
  | tree :: rest => ⟨some parent, before, tree, rest⟩ :: sitesBeside parent (tree :: before) rest

/-- The sites of the children, in order. -/
def Site.childSites (site : Site) : List Site := sitesBeside site.tree.root [] site.tree.children

/-- The site itself and every site below it, in pre-order. -/
def Site.below (site : Site) : List Site := sitesWithin site.parent site.before site.after site.tree

private theorem sitesAmong_eq_flatMap (parent : SyntaxNode) (before trees : List SyntaxTree) :
    sitesAmong parent before trees = (sitesBeside parent before trees).flatMap Site.below := by
  induction trees generalizing before with
  | nil => rfl
  | cons tree rest ih => rw [sitesAmong, sitesBeside, List.flatMap_cons, ih, Site.below]

theorem Site.below_eq (site : Site) : site.below = site :: site.childSites.flatMap Site.below := by
  obtain ⟨parent, before, ⟨root, children⟩, after⟩ := site
  rw [Site.below, sitesWithin, sitesAmong_eq_flatMap]
  rfl

theorem Site.mem_below_of_mem_childSites {site child found : Site} (member : child ∈ site.childSites)
    (below : found ∈ child.below) : found ∈ site.below := by
  rw [site.below_eq]
  exact List.mem_cons_of_mem site (List.mem_flatMap.mpr ⟨child, member, below⟩)

theorem Site.mem_below_self (site : Site) : site ∈ site.below := by
  rw [site.below_eq]
  exact List.mem_cons_self

theorem below_top (tree : SyntaxTree) : (Site.top tree).below = tree.sites := rfl

private theorem map_tree_sitesBeside (parent : SyntaxNode) (before trees : List SyntaxTree) :
    (sitesBeside parent before trees).map Site.tree = trees := by
  induction trees generalizing before with
  | nil => rfl
  | cons tree rest ih => rw [sitesBeside, List.map_cons, ih]

theorem Site.map_tree_childSites (site : Site) : site.childSites.map Site.tree = site.tree.children :=
  map_tree_sitesBeside _ _ _

private theorem getElem?_sitesBeside (parent : SyntaxNode) (before trees : List SyntaxTree) (i : Nat) :
    (sitesBeside parent before trees)[i]? = trees[i]?.map fun tree =>
      ⟨some parent, (trees.take i).reverse ++ before, tree, trees.drop (i + 1)⟩ := by
  induction trees generalizing before i with
  | nil => rfl
  | cons tree rest ih =>
    cases i with
    | zero => rfl
    | succ i =>
      rw [sitesBeside, List.getElem?_cons_succ, ih]
      simp

theorem Site.getElem?_childSites (site : Site) (i : Nat) : site.childSites[i]? = site.child? i := by
  rw [Site.childSites, getElem?_sitesBeside, Site.child?]
  simp

private theorem sizeOf_tree_lt {site child : Site} (member : child ∈ site.childSites) :
    sizeOf child.tree < sizeOf site.tree := by
  have among : child.tree ∈ site.tree.children := by
    rw [← site.map_tree_childSites]
    exact List.mem_map_of_mem member
  obtain ⟨parent, before, ⟨root, children⟩, after⟩ := site
  have smaller : sizeOf child.tree < sizeOf children := List.sizeOf_lt_of_mem among
  simp only [SyntaxTree.node.sizeOf_spec]
  omega

/-- What holds of a site whenever it holds of the sites of its children holds of every site. -/
theorem Site.induct {motive : Site → Prop}
    (step : ∀ site : Site, (∀ child ∈ site.childSites, motive child) → motive site) (site : Site) :
    motive site :=
  step site fun child member =>
    have := sizeOf_tree_lt member
    Site.induct step child
termination_by sizeOf site.tree

/-! ## Leaves are nodes -/

private theorem leavesOfAll_eq_flatMap (trees : List SyntaxTree) : leavesOfAll trees = trees.flatMap leaves := by
  induction trees with
  | nil => rfl
  | cons tree rest ih => rw [leavesOfAll, ih, List.flatMap_cons]

/-- The leaves of a tree are those of its children, unless its node is one itself or hides them. -/
theorem leaves_eq (tree : SyntaxTree) :
    tree.leaves =
      if tree.root.isEmpty then []
      else if tree.children.isEmpty || tree.root.isAtomic then [tree.root]
      else tree.children.flatMap leaves := by
  rcases tree with ⟨root, trees⟩
  rw [leaves, leavesOfAll_eq_flatMap]
  rfl

theorem Site.leaves_eq (site : Site) :
    site.tree.leaves =
      if site.tree.root.isEmpty then []
      else if site.tree.children.isEmpty || site.tree.root.isAtomic then [site.tree.root]
      else site.childSites.flatMap fun child => child.tree.leaves := by
  have below : site.childSites.flatMap (fun child => child.tree.leaves) = site.tree.children.flatMap leaves := by
    rw [← site.map_tree_childSites, List.flatMap_map]
  rw [below, site.tree.leaves_eq]

private theorem Site.leaf_below (site : Site) {leaf : SyntaxNode} (member : leaf ∈ site.tree.leaves) :
    leaf.start < leaf.stop ∧ ∃ found ∈ site.below, found.tree.root = leaf := by
  induction site using Site.induct with
  | step site ih =>
    rw [site.leaves_eq] at member
    split at member
    · simp at member
    · next wide =>
      split at member
      · obtain rfl := List.mem_singleton.mp member
        exact ⟨by simpa [SyntaxNode.isEmpty] using wide, site, site.mem_below_self, rfl⟩
      · obtain ⟨child, isChild, inside⟩ := List.mem_flatMap.mp member
        obtain ⟨width, found, below, root_eq⟩ := ih child isChild inside
        exact ⟨width, found, mem_below_of_mem_childSites isChild below, root_eq⟩

/-- A leaf is a node of the tree and covers some bytes. -/
theorem Every.of_mem_leaves {condition : SyntaxNode → Prop} {tree : SyntaxTree} (every : tree.Every condition)
    {leaf : SyntaxNode} (member : leaf ∈ tree.leaves) : leaf.start < leaf.stop ∧ condition leaf := by
  obtain ⟨width, found, below, rfl⟩ := (Site.top tree).leaf_below member
  exact ⟨width, every found below⟩

/-! ## Paths name the sites -/

private theorem map_descend?_pathsFrom {site : Site} (passed trees : List SyntaxTree)
    (children : site.tree.children = passed ++ trees)
    (each : ∀ child ∈ site.childSites, child.tree.paths.map child.descend? = child.below.map some) :
    (pathsFrom passed.length trees).map site.descend? =
      ((site.childSites.drop passed.length).flatMap Site.below).map some := by
  induction trees generalizing passed with
  | nil =>
    have sameLength : site.childSites.length = passed.length := by
      rw [← List.length_map Site.tree, site.map_tree_childSites, children, List.append_nil]
    simp [pathsFrom, ← sameLength]
  | cons tree rest ih =>
    have here : site.tree.children[passed.length]? = some tree := by simp [children]
    obtain ⟨child, reached⟩ : ∃ child, site.child? passed.length = some child := by
      simp [Site.child?, here]
    have listed := (site.getElem?_childSites passed.length).trans reached
    have sameTree : child.tree = tree := by
      have trees_eq := congrArg (·[passed.length]?) site.map_tree_childSites
      simpa [listed, here] using trees_eq
    have below := each child (List.mem_of_getElem? listed)
    have later := ih (passed ++ [tree]) (by rw [children, List.append_assoc]; rfl)
    rw [List.length_append, List.length_singleton] at later
    rw [pathsFrom, List.map_append, later]
    obtain ⟨inside, at_position⟩ := List.getElem?_eq_some_iff.mp listed
    rw [List.drop_eq_getElem_cons inside, at_position, List.flatMap_cons, List.map_append, ← below, ← sameTree]
    simp [Site.descend?, reached, Function.comp_def]

theorem Site.map_descend?_paths (site : Site) : site.tree.paths.map site.descend? = site.below.map some := by
  induction site using Site.induct with
  | step site ih =>
    have down := map_descend?_pathsFrom [] site.tree.children rfl ih
    rcases tree : site.tree with ⟨root, children⟩
    rw [tree] at down
    rw [paths, List.map_cons, site.below_eq, List.map_cons, Site.descend?]
    exact congrArg (some site :: ·) down

/-- The paths of a tree lead to its sites, in the order of the sites. -/
theorem map_siteAt?_paths (tree : SyntaxTree) : tree.paths.map tree.siteAt? = tree.sites.map some :=
  (Site.top tree).map_descend?_paths

private theorem exists_cons_of_mem_pathsFrom {i : Nat} {trees : List SyntaxTree} {path : List Nat}
    (member : path ∈ pathsFrom i trees) : ∃ j rest, path = j :: rest ∧ i ≤ j := by
  induction trees generalizing i with
  | nil => simp [pathsFrom] at member
  | cons tree others ih =>
    rw [pathsFrom] at member
    rcases List.mem_append.mp member with first | later
    · obtain ⟨rest, -, rfl⟩ := List.mem_map.mp first
      exact ⟨i, rest, rfl, Nat.le_refl i⟩
    · obtain ⟨j, rest, path_eq, order⟩ := ih later
      exact ⟨j, rest, path_eq, by omega⟩

mutual

/-- Pre-order is the lexicographic order of paths. -/
theorem pairwise_paths : ∀ tree : SyntaxTree, tree.paths.Pairwise (· < ·)
  | node _ children => by
    rw [paths, List.pairwise_cons]
    refine ⟨?_, pairwise_pathsFrom 0 children⟩
    intro path member
    obtain ⟨j, rest, rfl, -⟩ := exists_cons_of_mem_pathsFrom member
    exact List.nil_lt_cons j rest

private theorem pairwise_pathsFrom (i : Nat) : ∀ trees : List SyntaxTree, (pathsFrom i trees).Pairwise (· < ·)
  | [] => by rw [pathsFrom]; exact List.Pairwise.nil
  | tree :: others => by
    rw [pathsFrom, List.pairwise_append]
    refine ⟨?_, pairwise_pathsFrom (i + 1) others, ?_⟩
    · rw [List.pairwise_map]
      exact (pairwise_paths tree).imp fun order => List.cons_lt_cons_iff.mpr (.inr ⟨rfl, order⟩)
    · intro path first later member
      obtain ⟨rest, -, rfl⟩ := List.mem_map.mp first
      obtain ⟨j, others, rfl, order⟩ := exists_cons_of_mem_pathsFrom member
      exact List.cons_lt_cons_iff.mpr (.inl (by omega))

end

private theorem mem_pathsFrom_of_getElem? {i j : Nat} {trees : List SyntaxTree} {tree : SyntaxTree}
    {path : List Nat} (here : trees[j]? = some tree) (member : path ∈ tree.paths) :
    (i + j) :: path ∈ pathsFrom i trees := by
  induction trees generalizing i j with
  | nil => simp at here
  | cons first others ih =>
    rw [pathsFrom, List.mem_append]
    cases j with
    | zero =>
      obtain rfl : first = tree := by simpa using here
      exact .inl (List.mem_map_of_mem member)
    | succ j =>
      have later := ih (i := i + 1) (j := j) (by simpa using here)
      rw [Nat.add_assoc, Nat.add_comm 1 j] at later
      exact .inr later

private theorem Site.mem_paths_of_descend? {site found : Site} {path : List Nat}
    (reached : site.descend? path = some found) : path ∈ site.tree.paths := by
  induction path generalizing site with
  | nil =>
    rcases tree : site.tree with ⟨root, children⟩
    rw [paths]
    exact List.mem_cons_self
  | cons i path ih =>
    obtain ⟨child, step, onward⟩ := Option.bind_eq_some_iff.mp reached
    obtain ⟨subtree, here, rfl⟩ := Option.map_eq_some_iff.mp step
    have member := ih onward
    rcases tree : site.tree with ⟨root, children⟩
    rw [tree] at here
    rw [paths]
    have among := mem_pathsFrom_of_getElem? (i := 0) here member
    rw [Nat.zero_add] at among
    exact List.mem_cons_of_mem _ among

/-- A path is listed where it leads to a node of the tree. -/
theorem mem_paths_of_siteAt? {tree : SyntaxTree} {path : List Nat} {site : Site}
    (reached : tree.siteAt? path = some site) : path ∈ tree.paths :=
  Site.mem_paths_of_descend? reached

/-! ## Walking by a stack -/

/-- How many sites are still to be visited. -/
def pending (stack : List Site) : Nat := (stack.flatMap Site.below).length

private theorem pending_lt (site : Site) (stack : List Site) :
    pending (site.childSites ++ stack) < pending (site :: stack) := by
  rw [pending, pending, List.flatMap_append, List.flatMap_cons, site.below_eq, List.length_append,
    List.length_append, List.length_cons]
  omega

/-- The sites met when the site on top of the stack is taken off and its children are put on top,
the first of them uppermost. -/
def walk : List Site → List Site
  | [] => []
  | site :: stack => site :: walk (site.childSites ++ stack)
termination_by stack => pending stack
decreasing_by exact pending_lt site stack

theorem walk_eq_flatMap (stack : List Site) : walk stack = stack.flatMap Site.below := by
  induction stack using walk.induct with
  | case1 => rw [walk, List.flatMap_nil]
  | case2 site stack ih =>
    rw [walk, ih, List.flatMap_append, List.flatMap_cons, site.below_eq]
    rfl

/-- A walk from the root meets every site once, in pre-order. -/
theorem walk_top (tree : SyntaxTree) : walk [Site.top tree] = tree.sites := by
  rw [walk_eq_flatMap, List.flatMap_cons, List.flatMap_nil, List.append_nil, below_top]

end ApexComments.SyntaxTree
