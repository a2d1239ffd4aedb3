import ApexComments.Proofs.Nodes

/-!
# Well-nested trees

Where the span of every node lies in that of its parent and behind that of the sibling before it, the leaves
follow one another over the source (`WellNested.pairwise_leaves`).
-/
namespace ApexComments.SyntaxTree

/-- The span of the site's node is in order, in its parent's span, and behind the sibling before it. -/
def Site.Nested (site : Site) : Prop :=
  site.tree.root.start ≤ site.tree.root.stop ∧
    (∀ parent ∈ site.parent, parent.start ≤ site.tree.root.start ∧ site.tree.root.stop ≤ parent.stop) ∧
    ∀ previous ∈ site.before.head?, previous.root.stop ≤ site.tree.root.start

instance (site : Site) : Decidable site.Nested :=
  inferInstanceAs (Decidable (site.tree.root.start ≤ site.tree.root.stop ∧
    (∀ parent ∈ site.parent, parent.start ≤ site.tree.root.start ∧ site.tree.root.stop ≤ parent.stop) ∧
    ∀ previous ∈ site.before.head?, previous.root.stop ≤ site.tree.root.start))

/-- Every node lies in its parent, behind the sibling before it. -/
def WellNested (tree : SyntaxTree) : Prop := ∀ site ∈ tree.sites, site.Nested

instance (tree : SyntaxTree) : Decidable tree.WellNested :=
  inferInstanceAs (Decidable (∀ site ∈ tree.sites, site.Nested))

private theorem stop_le_of_mem_sitesBeside {parent : SyntaxNode} {before trees : List SyntaxTree}
    (nested : ∀ site ∈ sitesBeside parent before trees, site.Nested) {previous : SyntaxTree}
    (last : previous ∈ before.head?) :
    ∀ site ∈ sitesBeside parent before trees, previous.root.stop ≤ site.tree.root.start := by
  induction trees generalizing before previous with
  | nil => simp [sitesBeside]
  | cons tree rest ih =>
    rw [sitesBeside] at nested ⊢
    obtain ⟨⟨ordered, -, behind⟩, others⟩ := List.forall_mem_cons.mp nested
    have here : previous.root.stop ≤ tree.root.start := behind previous last
    refine List.forall_mem_cons.mpr ⟨here, ?_⟩
    intro site member
    have later := ih others rfl site member
    exact Nat.le_trans here (Nat.le_trans ordered later)

theorem pairwise_sitesBeside {parent : SyntaxNode} {before trees : List SyntaxTree}
    (nested : ∀ site ∈ sitesBeside parent before trees, site.Nested) :
    (sitesBeside parent before trees).Pairwise fun site later => site.tree.root.stop ≤ later.tree.root.start := by
  induction trees generalizing before with
  | nil => exact List.Pairwise.nil
  | cons tree rest ih =>
    rw [sitesBeside] at nested ⊢
    obtain ⟨-, others⟩ := List.forall_mem_cons.mp nested
    exact List.pairwise_cons.mpr ⟨stop_le_of_mem_sitesBeside others rfl, ih others⟩

private theorem parent_of_mem_sitesBeside {parent : SyntaxNode} {before trees : List SyntaxTree} :
    ∀ site ∈ sitesBeside parent before trees, site.parent = some parent := by
  induction trees generalizing before with
  | nil => simp [sitesBeside]
  | cons tree rest ih =>
    rw [sitesBeside]
    exact List.forall_mem_cons.mpr ⟨rfl, ih⟩

theorem Site.parent_of_mem_childSites {site child : Site} (member : child ∈ site.childSites) :
    child.parent = some site.tree.root :=
  parent_of_mem_sitesBeside child member

/-- Leaves lie in the span of the node that they are below, and follow one another. -/
private theorem Site.leaves_in_order (site : Site) (nested : ∀ found ∈ site.below, found.Nested) :
    (∀ leaf ∈ site.tree.leaves, site.tree.root.start ≤ leaf.start ∧ leaf.stop ≤ site.tree.root.stop) ∧
      site.tree.leaves.Pairwise fun leaf later => leaf.stop ≤ later.start := by
  induction site using Site.induct with
  | step site ih =>
    have children (child : Site) (member : child ∈ site.childSites) : child.Nested :=
      nested child (mem_below_of_mem_childSites member child.mem_below_self)
    have each (child : Site) (member : child ∈ site.childSites) :=
      ih child member fun found below => nested found (mem_below_of_mem_childSites member below)
    rw [site.leaves_eq]
    split
    · simp
    split
    · simp
    · constructor
      · intro leaf member
        obtain ⟨child, isChild, inside⟩ := List.mem_flatMap.mp member
        obtain ⟨low, high⟩ := (each child isChild).1 leaf inside
        obtain ⟨below, above⟩ := (children child isChild).2.1 site.tree.root (parent_of_mem_childSites isChild)
        exact ⟨Nat.le_trans below low, Nat.le_trans high above⟩
      · refine List.pairwise_flatMap.mpr ⟨fun child member => (each child member).2, ?_⟩
        refine (pairwise_sitesBeside children).imp_of_mem ?_
        intro child later member laterMember order leaf isLeaf other isOther
        have ends := ((each child member).1 leaf isLeaf).2
        have begins := ((each later laterMember).1 other isOther).1
        calc leaf.stop
            ≤ child.tree.root.stop := ends
          _ ≤ later.tree.root.start := order
          _ ≤ other.start := begins

/-- The leaves of a well-nested tree follow one another. -/
theorem WellNested.pairwise_leaves {tree : SyntaxTree} (nested : tree.WellNested) :
    tree.leaves.Pairwise fun leaf later => leaf.stop ≤ later.start :=
  ((Site.top tree).leaves_in_order nested).2

end ApexComments.SyntaxTree
