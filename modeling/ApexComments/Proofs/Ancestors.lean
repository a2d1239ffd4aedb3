import ApexComments.Proofs.Nesting
import ApexComments.Proofs.Spills

/-!
# Nodes and their ancestors

The shorter beginnings of the path of a node lead to its ancestors. What holds between every node and its parent, and
goes on from node to node, holds between a node and each of its ancestors (`rel_of_siteAt?`). In a well-nested tree
a node lies in the span of each of its ancestors, and its leaves are leaves of the tree, unless one of the ancestors is
a comment or a literal and so a leaf itself (`WellNested.mem_leaves_or`).
-/
namespace ApexComments

/-- The span of one node holds that of another. -/
def SyntaxNode.Encloses (outer inner : SyntaxNode) : Prop := outer.start ≤ inner.start ∧ inner.stop ≤ outer.stop

namespace SyntaxTree

variable {tree child : SyntaxTree} {path further : List Nat} {site above holder : Site} {leaf : SyntaxNode}

/-- The induction is on the way down from the ancestor, its last step first. -/
theorem rel_of_siteAt? (rel : SyntaxNode → SyntaxNode → Prop) (refl : ∀ node, rel node node)
    (trans : ∀ outer node inner, rel outer node → rel node inner → rel outer inner)
    (step : ∀ site ∈ tree.sites, ∀ parent ∈ site.parent, rel parent site.tree.root)
    (reachedAbove : tree.siteAt? path = some above) (reached : tree.siteAt? (path ++ further) = some site) :
    rel above.tree.root site.tree.root := by
  induction further using List.reverseRecOn generalizing site with
  | nil =>
    rw [List.append_nil, reachedAbove] at reached
    obtain rfl := Option.some.inj reached
    exact refl _
  | append_singleton further i ih =>
    rw [← List.append_assoc] at reached
    obtain ⟨holder, reachedHolder, isChild⟩ := siteAt?_append_singleton_iff.mp reached
    have isParent := (Site.child?_eq_some_iff.mp isChild).1
    exact trans _ _ _ (ih reachedHolder) (step site (mem_sites_of_siteAt? reached) holder.tree.root isParent)

/-! ## Well-nested trees -/

namespace WellNested

variable (nested : tree.WellNested)
include nested

/-- A node lies in the span of each of its ancestors. -/
theorem encloses (reachedAbove : tree.siteAt? path = some above)
    (reached : tree.siteAt? (path ++ further) = some site) : above.tree.root.Encloses site.tree.root := by
  refine rel_of_siteAt? SyntaxNode.Encloses (fun node => ⟨Nat.le_refl _, Nat.le_refl _⟩) ?_ ?_ reachedAbove reached
  · rintro outer node inner ⟨begins, ends⟩ ⟨further, before⟩
    exact ⟨Nat.le_trans begins further, Nat.le_trans before ends⟩
  · intro site member parent isParent
    exact (nested site member).2.1 parent isParent

theorem encloses_child (reached : tree.siteAt? path = some holder) (member : child ∈ holder.tree.children) :
    holder.tree.root.Encloses child.root := by
  obtain ⟨i, site, isChild, -, rfl⟩ := exists_siteAt?_of_mem_children reached member
  exact nested.encloses reached isChild

theorem pairwise_children (reached : tree.siteAt? path = some holder) :
    holder.tree.children.Pairwise fun left right => left.root.stop ≤ right.root.start := by
  rw [← holder.map_tree_childSites, List.pairwise_map]
  refine pairwise_sitesBeside ?_
  intro child member
  obtain ⟨i, here⟩ := List.getElem?_of_mem member
  have isChild := (holder.getElem?_childSites i).symm.trans here
  exact nested child (mem_sites_of_siteAt? (siteAt?_append_singleton_iff.mpr ⟨holder, reached, isChild⟩))

/-- Siblings before a node start no later than the node. -/
theorem start_le_of_mem_before (reached : tree.siteAt? path = some site) (isBefore : child ∈ site.before) :
    child.root.start ≤ site.tree.root.start := by
  rcases List.eq_nil_or_concat' path with rfl | ⟨parent, i, rfl⟩
  · obtain rfl := Option.some.inj reached
    simp [Site.top] at isBefore
  · obtain ⟨holder, above, isChild⟩ := siteAt?_append_singleton_iff.mp reached
    have children := (Site.child?_eq_some_iff.mp isChild).2.2
    have ordered := nested.pairwise_children above
    rw [children] at ordered
    have ends := (List.pairwise_append.mp ordered).2.2 child (List.mem_reverse.mpr isBefore) site.tree
      List.mem_cons_self
    obtain ⟨j, sibling, reachedSibling, -, rfl⟩ :=
      exists_siteAt?_of_mem_children above (show child ∈ holder.tree.children by rw [children]; simp [isBefore])
    have width := (nested sibling (mem_sites_of_siteAt? reachedSibling)).1
    exact Nat.le_trans width ends

/-- No two leaves share a byte. -/
theorem eq_of_mem_leaves {other : SyntaxNode} (isLeaf : leaf ∈ tree.leaves) (isOther : other ∈ tree.leaves)
    (before : leaf.start < other.stop) (behind : other.start < leaf.stop) : leaf = other := by
  by_contra distinct
  have apart : tree.leaves.Pairwise fun leaf other => leaf.stop ≤ other.start ∨ other.stop ≤ leaf.start :=
    nested.pairwise_leaves.imp Or.inl
  have symmetric : Std.Symm fun leaf other : SyntaxNode => leaf.stop ≤ other.start ∨ other.stop ≤ leaf.start :=
    ⟨fun _ _ => Or.symm⟩
  have either := apart.forall isLeaf isOther distinct
  omega

end WellNested

/-! ## Leaves below a node -/

theorem Site.start_lt_stop_of_mem_leaves (member : leaf ∈ site.tree.leaves) :
    site.tree.root.start < site.tree.root.stop := by
  rw [site.leaves_eq] at member
  split at member
  · simp at member
  · next wide => simpa [SyntaxNode.isEmpty] using wide

/-- A node that is no leaf itself and has some width has the leaves of its children. -/
theorem Site.mem_leaves_of_child {child : Site} (isChild : child ∈ site.childSites)
    (wide : site.tree.root.start < site.tree.root.stop) (within : site.tree.root.isAtomic = false)
    (member : leaf ∈ child.tree.leaves) : leaf ∈ site.tree.leaves := by
  have among : child.tree ∈ site.tree.children := by
    rw [← site.map_tree_childSites]
    exact List.mem_map_of_mem isChild
  have someChild : site.tree.children.isEmpty = false := by
    rw [List.isEmpty_eq_false_iff]
    exact List.ne_nil_of_mem among
  rw [site.leaves_eq, if_neg (by simpa [SyntaxNode.isEmpty] using wide), someChild, within]
  exact List.mem_flatMap.mpr ⟨child, isChild, member⟩

theorem Site.mem_leaves_of_isAtomic (wide : site.tree.root.start < site.tree.root.stop)
    (atomic : site.tree.root.isAtomic = true) : site.tree.root ∈ site.tree.leaves := by
  rw [site.leaves_eq, if_neg (by simpa [SyntaxNode.isEmpty] using wide), atomic, Bool.or_true, if_pos rfl]
  exact List.mem_cons_self

/-- The induction is on the way down to the node: each step passes the leaves below it on, or stops at a leaf. -/
theorem Site.mem_leaves_or {found : Site} (nested : ∀ below ∈ site.below, below.Nested)
    (reached : site.descend? path = some found) (member : leaf ∈ found.tree.leaves) :
    leaf ∈ site.tree.leaves ∨ ∃ k < path.length, ∃ above, site.descend? (path.take k) = some above ∧
      above.tree.root.isAtomic = true ∧ above.tree.root ∈ site.tree.leaves := by
  induction path generalizing site with
  | nil =>
    obtain rfl := Option.some.inj reached
    exact .inl member
  | cons i path ih =>
    obtain ⟨child, step, onward⟩ := Option.bind_eq_some_iff.mp reached
    have isChild : child ∈ site.childSites := List.mem_of_getElem? ((site.getElem?_childSites i).trans step)
    have inner := ih (fun below isBelow => nested below (mem_below_of_mem_childSites isChild isBelow)) onward
    have wide : site.tree.root.start < site.tree.root.stop := by
      have childWide : child.tree.root.start < child.tree.root.stop := by
        rcases inner with isLeaf | ⟨_, _, _, _, _, isLeaf⟩ <;> exact Site.start_lt_stop_of_mem_leaves isLeaf
      have spans := (nested child (mem_below_of_mem_childSites isChild child.mem_below_self)).2.1 site.tree.root
        (parent_of_mem_childSites isChild)
      omega
    by_cases atomic : site.tree.root.isAtomic = true
    · exact .inr ⟨0, Nat.zero_lt_succ _, site, rfl, atomic, mem_leaves_of_isAtomic wide atomic⟩
    · have within : site.tree.root.isAtomic = false := by simpa using atomic
      rcases inner with isLeaf | ⟨k, short, above, reachedAbove, isAtomic, isLeaf⟩
      · exact .inl (mem_leaves_of_child isChild wide within isLeaf)
      · refine .inr ⟨k + 1, Nat.succ_lt_succ short, above, ?_, isAtomic, mem_leaves_of_child isChild wide within isLeaf⟩
        rw [List.take_succ_cons, Site.descend?, step]
        exact reachedAbove

/-- A leaf below a node is a leaf of the tree, or an ancestor of the node is a comment or a literal, and a leaf. -/
theorem WellNested.mem_leaves_or (nested : tree.WellNested) (reached : tree.siteAt? path = some site)
    (member : leaf ∈ site.tree.leaves) :
    leaf ∈ tree.leaves ∨ ∃ k < path.length, ∃ above, tree.siteAt? (path.take k) = some above ∧
      above.tree.root.isAtomic = true ∧ above.tree.root ∈ tree.leaves :=
  (Site.top tree).mem_leaves_or nested reached member

/-- No ancestor of the node at a path is a comment or a literal. -/
def InCode (tree : SyntaxTree) (path : List Nat) : Prop :=
  ∀ k < path.length, ∀ above ∈ tree.siteAt? (path.take k), above.tree.root.isAtomic = false

instance (tree : SyntaxTree) (path : List Nat) : Decidable (tree.InCode path) :=
  inferInstanceAs (Decidable (∀ k < path.length, ∀ above ∈ tree.siteAt? (path.take k),
    above.tree.root.isAtomic = false))

theorem WellNested.mem_leaves_of_inCode (nested : tree.WellNested) (reached : tree.siteAt? path = some site)
    (inCode : tree.InCode path) (member : leaf ∈ site.tree.leaves) : leaf ∈ tree.leaves := by
  rcases nested.mem_leaves_or reached member with isLeaf | ⟨k, short, above, reachedAbove, atomic, -⟩
  · exact isLeaf
  · simp [inCode k short above reachedAbove] at atomic

end SyntaxTree

end ApexComments
