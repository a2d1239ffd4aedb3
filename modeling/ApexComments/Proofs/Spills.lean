import ApexComments.Declaration
import ApexComments.Proofs.Nodes
import Mathlib.Data.List.Chain

/-!
# Spilled modifiers and the declarations that take them in

A field made up of stray modifiers is found by looking forward: a declaration follows with nothing
but stray modifiers between. A declaration finds the modifiers set apart from it by stepping back over
its siblings, and there other such fields count as modifiers too. The two ways agree: a field is
skipped exactly where a declaration that is reported steps back over it.
-/
namespace ApexComments.SyntaxTree

variable {source : Array UInt8}

/-! ## The way back -/

/-- The nodes stepped over on the way back over detached modifiers, nearest first. -/
def modifiersBack (source : Array UInt8) (current : SyntaxNode) : List SyntaxTree → List SyntaxNode
  | [] => []
  | previous :: rest =>
    if previous.root.isDetachedModifiers source && previous.root.touches source current then
      previous.root :: modifiersBack source previous.root rest
    else []

/-- The nodes that a declaration steps over on its way back. -/
def Site.modifiersBack (source : Array UInt8) (site : Site) : List SyntaxNode :=
  SyntaxTree.modifiersBack source site.tree.root site.before

/-- The way back leads to the start of the last node stepped over. -/
theorem modifiersStart?_eq (current : SyntaxNode) (before : List SyntaxTree) :
    modifiersStart? source current before =
      (modifiersBack source current before).getLast?.map SyntaxNode.start := by
  induction before generalizing current with
  | nil => rfl
  | cons previous rest ih =>
    rw [modifiersStart?, modifiersBack]
    split
    · rw [ih, List.getLast?_cons]
      cases (modifiersBack source previous.root rest).getLast? <;> rfl
    · rfl

theorem modifiersBack_prefix (current : SyntaxNode) (before : List SyntaxTree) :
    modifiersBack source current before <+: before.map root := by
  induction before generalizing current with
  | nil => exact List.prefix_rfl
  | cons previous rest ih =>
    rw [modifiersBack]
    split
    · exact (List.prefix_cons_inj previous.root).mpr (ih previous.root)
    · exact List.nil_prefix

/-- The way back steps over the nearest siblings where all of them are detached modifiers and each
touches the one after it. -/
theorem length_le_modifiersBack_iff {current : SyntaxTree} {near far : List SyntaxTree} :
    near.length ≤ (modifiersBack source current.root (near ++ far)).length ↔
      (∀ tree ∈ near, tree.root.isDetachedModifiers source = true) ∧
        (current :: near).IsChain fun right left => left.root.touches source right.root = true := by
  induction near generalizing current with
  | nil => simp
  | cons previous near ih =>
    rw [List.cons_append, modifiersBack, List.forall_mem_cons, List.isChain_cons_cons]
    split
    · next passed =>
      rw [Bool.and_eq_true] at passed
      rw [List.length_cons, List.length_cons, Nat.add_le_add_iff_right, ih]
      simp [passed]
    · next stopped =>
      rw [Bool.and_eq_true] at stopped
      constructor
      · intro short
        exact absurd short (Nat.not_succ_le_zero _)
      · rintro ⟨⟨detached, -⟩, touches, -⟩
        exact absurd ⟨detached, touches⟩ stopped

/-- Where siblings start one after the other, the way back ends no later than any node on it. -/
theorem exists_last_modifiersBack_le {current : SyntaxNode} {before : List SyntaxTree}
    (ordered : before.Pairwise fun near far => far.root.start ≤ near.root.start) {gap : Nat} {tree : SyntaxTree}
    (here : before[gap]? = some tree) (passed : gap < (modifiersBack source current before).length) :
    ∃ last, (modifiersBack source current before).getLast? = some last ∧ last.start ≤ tree.root.start := by
  have initial : modifiersBack source current before <+: before.map root := modifiersBack_prefix current before
  have descending : (modifiersBack source current before).Pairwise fun near far => far.start ≤ near.start :=
    (List.pairwise_map.mpr ordered).sublist initial.sublist
  have member : tree.root ∈ modifiersBack source current before := by
    refine List.mem_of_getElem? (i := gap) ?_
    rw [List.getElem?_eq_getElem passed, initial.getElem passed, ← List.getElem?_eq_getElem, List.getElem?_map, here]
    rfl
  rcases List.eq_nil_or_concat' (modifiersBack source current before) with none | ⟨nearer, last, split⟩
  · rw [none] at member
    exact absurd member List.not_mem_nil
  · rw [split] at member descending ⊢
    refine ⟨last, by simp, ?_⟩
    rcases List.mem_append.mp member with earlier | here
    · exact (List.pairwise_append.mp descending).2.2 tree.root earlier last List.mem_cons_self
    · rw [List.mem_singleton.mp here]

/-- What the floor is after a way back: the start of the last node stepped over or, in an error, that of the error if it
is less. -/
structure Site.FloorFrom (source : Array UInt8) (site : Site) (last : SyntaxNode) : Prop where
  outside : (∀ parent ∈ site.parent, parent.kind ≠ "ERROR") → site.floor? source = some last.start
  inError : ∀ parent ∈ site.parent, parent.kind = "ERROR" → site.floor? source = some (min last.start parent.start)

theorem Site.floorFrom_of_last {site : Site} {last : SyntaxNode}
    (back : (site.modifiersBack source).getLast? = some last) : site.FloorFrom source last := by
  have start : modifiersStart? source site.tree.root site.before = some last.start := by
    rw [modifiersStart?_eq]
    exact congrArg _ back
  constructor
  · intro noError
    rw [Site.floor?, start]
    cases holder : site.parent with
    | none => rfl
    | some parent => simp [noError parent holder]
  · intro parent holder error
    rw [Site.floor?, start, holder]
    simp [error]

theorem Site.FloorFrom.exists_le {site : Site} {last : SyntaxNode} (floor : site.FloorFrom source last) :
    ∃ start, site.floor? source = some start ∧ start ≤ last.start := by
  by_cases error : ∃ parent ∈ site.parent, parent.kind = "ERROR"
  · obtain ⟨parent, holder, error⟩ := error
    exact ⟨_, floor.inError parent holder error, Nat.min_le_left _ _⟩
  · exact ⟨_, floor.outside fun parent holder isError => error ⟨parent, holder, isError⟩, Nat.le_refl _⟩

/-! ## The way forward -/

/-- What parsers promise of the nodes that error recovery makes up: only tokens are missing. -/
def OnlyTokensMissing (node : SyntaxNode) : Prop :=
  node.missing = true → node.isDeclaration = false ∧ node.kind ≠ "local_variable_declaration"

instance : DecidablePred OnlyTokensMissing :=
  fun node => inferInstanceAs (Decidable (node.missing = true → _))

theorem isDeclaration_of_kind {node : SyntaxNode}
    (field : node.kind = "field_declaration" ∨ node.kind = "constant_declaration") : node.isDeclaration = true := by
  rw [SyntaxNode.isDeclaration]
  rcases field with kind | kind <;> rw [kind] <;> decide

theorem isFieldLike_iff {node : SyntaxNode} : node.isFieldLike = true ↔
    (node.kind = "field_declaration" ∨ node.kind = "constant_declaration") ∨
      node.kind = "local_variable_declaration" := by
  simp only [SyntaxNode.isFieldLike, Bool.or_eq_true, beq_iff_eq]
  tauto

/-- Declarations, local ones included, are no stray modifiers. -/
theorem isStrayModifiers_eq_false {node : SyntaxNode} (tokens : OnlyTokensMissing node)
    (declares : node.isDeclaration = true ∨ node.kind = "local_variable_declaration") :
    node.isStrayModifiers source = false := by
  have present : node.missing = false := by
    by_contra missing
    obtain ⟨noDeclaration, notLocal⟩ := tokens (by simpa using missing)
    rcases declares with declares | isLocal
    · simp [declares] at noDeclaration
    · exact notLocal isLocal
  have noError : node.kind ≠ "ERROR" := by
    intro error
    rcases declares with declares | isLocal
    · rw [SyntaxNode.isDeclaration, error] at declares
      exact absurd declares (by decide)
    · rw [error] at isLocal
      exact absurd isLocal (by decide)
  simp [SyntaxNode.isStrayModifiers, present, noError]

theorem isDetachedModifiers_of_isStrayModifiers {node : SyntaxNode} (tokens : OnlyTokensMissing node)
    (stray : node.isStrayModifiers source = true) : node.isDetachedModifiers source = true := by
  rw [SyntaxNode.isDetachedModifiers]
  split
  · next fieldLike =>
    have other : node.isStrayModifiers source = false :=
      isStrayModifiers_eq_false tokens ((isFieldLike_iff.mp fieldLike).imp_left isDeclaration_of_kind)
    simp [stray] at other
  · exact stray

/-- From a tree on, detached modifiers lead up to a declaration, each tree touching the next. -/
structure LeadsTo (source : Array UInt8) (current : SyntaxTree) (between : List SyntaxTree) (target : SyntaxTree) :
    Prop where
  declares : target.root.isDeclaration = true
  detached : ∀ tree ∈ between, tree.root.isDetachedModifiers source = true
  linked : (current :: (between ++ [target])).IsChain fun left right => left.root.touches source right.root = true

theorem leadsTo_nil_iff {current target : SyntaxTree} : LeadsTo source current [] target ↔
    target.root.isDeclaration = true ∧ current.root.touches source target.root = true := by
  constructor
  · rintro ⟨declares, -, linked⟩
    exact ⟨declares, (List.isChain_cons_cons.mp linked).1⟩
  · rintro ⟨declares, touches⟩
    exact ⟨declares, by simp, List.isChain_cons_cons.mpr ⟨touches, .singleton _⟩⟩

theorem leadsTo_cons_iff {current next target : SyntaxTree} {between : List SyntaxTree} :
    LeadsTo source current (next :: between) target ↔ next.root.isDetachedModifiers source = true ∧
      current.root.touches source next.root = true ∧ LeadsTo source next between target := by
  constructor
  · rintro ⟨declares, detached, linked⟩
    obtain ⟨here, later⟩ := List.forall_mem_cons.mp detached
    obtain ⟨touches, further⟩ := List.isChain_cons_cons.mp linked
    exact ⟨here, touches, declares, later, further⟩
  · rintro ⟨here, touches, declares, later, further⟩
    exact ⟨declares, List.forall_mem_cons.mpr ⟨here, later⟩, List.isChain_cons_cons.mpr ⟨touches, further⟩⟩

/-- Looking forward past stray modifiers comes to a declaration. Where that is a spill in turn, one
looks on from it: in the end there is a declaration that is none. -/
theorem exists_leadsTo_of_declarationFollows {current : SyntaxTree} {after : List SyntaxTree}
    (tokens : ∀ tree ∈ after, OnlyTokensMissing tree.root)
    (follows : declarationFollows source current.root after = true) :
    ∃ between target rest, after = between ++ target :: rest ∧ LeadsTo source current between target ∧
      ∀ parent before, (Site.mk parent before target rest).isSpill source = false := by
  induction after generalizing current with
  | nil => simp [declarationFollows] at follows
  | cons next rest ih =>
    obtain ⟨here, later⟩ := List.forall_mem_cons.mp tokens
    rw [declarationFollows] at follows
    split at follows
    · next passed =>
      rw [Bool.and_eq_true] at passed
      obtain ⟨between, target, others, rfl, leads, real⟩ := ih later follows
      have detached := isDetachedModifiers_of_isStrayModifiers here passed.1
      exact ⟨next :: between, target, others, rfl, leadsTo_cons_iff.mpr ⟨detached, passed.2, leads⟩, real⟩
    · rw [Bool.and_eq_true] at follows
      cases spill : (Site.mk none [] next rest).isSpill source with
      | false => exact ⟨[], next, rest, rfl, leadsTo_nil_iff.mpr follows, fun _ _ => spill⟩
      | true =>
        simp only [Site.isSpill, Bool.and_eq_true] at spill
        obtain ⟨⟨fieldLike, cutShort⟩, further⟩ := spill
        obtain ⟨between, target, others, rfl, leads, real⟩ := ih later further
        have detached : next.root.isDetachedModifiers source = true := by
          rw [SyntaxNode.isDetachedModifiers, if_pos fieldLike, cutShort]
        exact ⟨next :: between, target, others, rfl, leadsTo_cons_iff.mpr ⟨detached, follows.2, leads⟩, real⟩

/-- Where detached modifiers, none of them a local declaration, lead up to a declaration, looking
forward comes to one. -/
theorem LeadsTo.declarationFollows {current target : SyntaxTree} {between : List SyntaxTree}
    (leads : LeadsTo source current between target) (tokens : OnlyTokensMissing target.root)
    (notLocal : ∀ tree ∈ between, tree.root.kind ≠ "local_variable_declaration") (rest : List SyntaxTree) :
    declarationFollows source current.root (between ++ target :: rest) = true := by
  induction between generalizing current with
  | nil =>
    obtain ⟨declares, touches⟩ := leadsTo_nil_iff.mp leads
    simp [SyntaxTree.declarationFollows, isStrayModifiers_eq_false tokens (.inl declares), declares, touches]
  | cons next between ih =>
    obtain ⟨detached, touches, further⟩ := leadsTo_cons_iff.mp leads
    obtain ⟨here, later⟩ := List.forall_mem_cons.mp notLocal
    rw [List.cons_append, SyntaxTree.declarationFollows]
    split
    · exact ih further later
    · next stopped =>
      -- A detached neighbour that is not passed is a field, hence a declaration.
      have fieldLike : next.root.isFieldLike = true := by
        by_contra other
        rw [SyntaxNode.isDetachedModifiers, if_neg other] at detached
        exact stopped (by rw [detached, touches]; rfl)
      have field := (isFieldLike_iff.mp fieldLike).resolve_right here
      rw [isDeclaration_of_kind field, touches]
      rfl

/-- The way back from a declaration steps over a sibling where that is detached modifiers and leads up
to the declaration. -/
theorem lt_length_modifiersBack_iff {first target : SyntaxTree} {between far : List SyntaxTree}
    (declares : target.root.isDeclaration = true) :
    between.length < (modifiersBack source target.root (between.reverse ++ first :: far)).length ↔
      first.root.isDetachedModifiers source = true ∧ LeadsTo source first between target := by
  have way := @length_le_modifiersBack_iff source target (first :: between).reverse far
  rw [List.length_reverse, List.length_cons, List.reverse_cons, List.append_assoc, List.singleton_append,
    Nat.succ_le_iff] at way
  have chain : target :: (between.reverse ++ [first]) = (first :: (between ++ [target])).reverse := by simp
  rw [way, chain, List.isChain_reverse]
  constructor
  · rintro ⟨detached, linked⟩
    exact ⟨detached first (by simp), declares, fun tree member => detached tree (by simp [member]), linked⟩
  · rintro ⟨here, -, detached, linked⟩
    refine ⟨?_, linked⟩
    intro tree member
    rw [List.mem_append, List.mem_reverse, List.mem_singleton] at member
    rcases member with among | rfl
    · exact detached tree among
    · exact here

/-! ## Siblings -/

theorem Site.descend?_append_singleton (site : Site) (path : List Nat) (i : Nat) :
    site.descend? (path ++ [i]) = (site.descend? path).bind fun parent => parent.child? i := by
  induction path generalizing site with
  | nil =>
    rw [List.nil_append, Site.descend?]
    cases child : site.child? i with
    | none => simp [Site.descend?, child]
    | some found => simp [Site.descend?, child]
  | cons j path ih =>
    rw [List.cons_append, Site.descend?, Site.descend?, Option.bind_assoc]
    exact Option.bind_congr fun child _ => ih child

theorem siteAt?_append_singleton_iff {tree : SyntaxTree} {path : List Nat} {i : Nat} {site : Site} :
    tree.siteAt? (path ++ [i]) = some site ↔
      ∃ holder, tree.siteAt? path = some holder ∧ holder.child? i = some site := by
  rw [siteAt?, Site.descend?_append_singleton, Option.bind_eq_some_iff]
  rfl

theorem mem_sites_of_siteAt? {tree : SyntaxTree} {path : List Nat} {site : Site}
    (reached : tree.siteAt? path = some site) : site ∈ tree.sites := by
  have listed := List.mem_map_of_mem (f := tree.siteAt?) (mem_paths_of_siteAt? reached)
  rw [map_siteAt?_paths, reached] at listed
  obtain ⟨found, member, same⟩ := List.mem_map.mp listed
  rwa [← Option.some.inj same]

/-- A child stands among the children of its parent, those before it counted by its position. -/
theorem Site.child?_eq_some_iff {holder site : Site} {i : Nat} : holder.child? i = some site ↔
    site.parent = some holder.tree.root ∧ site.before.length = i ∧
      holder.tree.children = site.before.reverse ++ site.tree :: site.after := by
  rw [Site.child?, Option.map_eq_some_iff]
  constructor
  · rintro ⟨child, here, rfl⟩
    obtain ⟨inside, rfl⟩ := List.getElem?_eq_some_iff.mp here
    refine ⟨rfl, by simp [Nat.le_of_lt inside], ?_⟩
    rw [List.reverse_reverse, ← List.drop_eq_getElem_cons inside, List.take_append_drop]
  · rintro ⟨parent, rfl, children⟩
    obtain ⟨_, before, tree, after⟩ := site
    subst parent
    exact ⟨tree, by simp [children], by simp [children, List.drop_append]⟩

/-- The children of a node are nodes of the tree. -/
theorem exists_siteAt?_of_mem_children {tree child : SyntaxTree} {path : List Nat} {holder : Site}
    (reached : tree.siteAt? path = some holder) (member : child ∈ holder.tree.children) :
    ∃ i site, tree.siteAt? (path ++ [i]) = some site ∧ site.parent = some holder.tree.root ∧ site.tree = child := by
  obtain ⟨i, here⟩ := List.getElem?_of_mem member
  obtain ⟨site, isChild, same⟩ : ∃ site, holder.child? i = some site ∧ site.tree = child := by
    simp [Site.child?, here]
  exact ⟨i, site, siteAt?_append_singleton_iff.mpr ⟨holder, reached, isChild⟩,
    (Site.child?_eq_some_iff.mp isChild).1, same⟩

/-- Of two children of one node, what lies between. -/
theorem Site.exists_between {holder site later : Site} {i j : Nat} (first : holder.child? i = some site)
    (second : holder.child? j = some later) (order : i < j) :
    ∃ between, j = i + between.length + 1 ∧ site.after = between ++ later.tree :: later.after ∧
      later.before = between.reverse ++ site.tree :: site.before := by
  obtain ⟨-, rfl, children⟩ := Site.child?_eq_some_iff.mp first
  obtain ⟨-, rfl, sameChildren⟩ := Site.child?_eq_some_iff.mp second
  rw [children] at sameChildren
  rcases List.append_eq_append_iff.mp sameChildren with ⟨_ | ⟨own, between⟩, front, back⟩ | ⟨extra, front, -⟩
  · have length := congrArg List.length front
    simp at length
    omega
  · obtain ⟨rfl, after⟩ := List.cons.inj back
    have before := congrArg List.reverse front
    simp only [List.reverse_reverse, List.reverse_append, List.reverse_cons, List.append_assoc,
      List.singleton_append] at before
    refine ⟨between, ?_, after, before⟩
    rw [before]
    simp
    omega
  · have length := congrArg List.length front
    simp at length
    omega

/-! ## Both ways agree -/

/-- What parsers promise of a tree: only tokens are missing, siblings start one after the other, and
local declarations do not stand beside fields. -/
structure Recovered (tree : SyntaxTree) : Prop where
  tokens : tree.Every OnlyTokensMissing
  ordered : ∀ site ∈ tree.sites, site.tree.children.Pairwise fun left right => left.root.start ≤ right.root.start
  apart : ∀ site ∈ tree.sites, ∀ child ∈ site.tree.children, child.root.kind = "local_variable_declaration" →
    ∀ other ∈ site.tree.children, other.root.kind ≠ "field_declaration" ∧ other.root.kind ≠ "constant_declaration"

/-- A declaration that is no spill steps, on its way back, over an earlier sibling, the node at the
path. -/
def TakesIn (source : Array UInt8) (tree : SyntaxTree) (path : List Nat) (later : Site) : Prop :=
  later.tree.root.isDeclaration = true ∧ later.isSpill source = false ∧
    ∃ parent i j, path = parent ++ [i] ∧ tree.siteAt? (parent ++ [j]) = some later ∧ i < j ∧
      j ≤ i + (later.modifiersBack source).length

variable {tree : SyntaxTree} {path : List Nat} {site later : Site}

theorem Recovered.tokens_of_mem (recovered : tree.Recovered) {holder : Site}
    (reached : tree.siteAt? path = some holder) {child : SyntaxTree} (member : child ∈ holder.tree.children) :
    OnlyTokensMissing child.root := by
  obtain ⟨i, site, isChild, -, rfl⟩ := exists_siteAt?_of_mem_children reached member
  exact recovered.tokens site (mem_sites_of_siteAt? isChild)

theorem exists_takesIn_of_isSpill (recovered : tree.Recovered) (reached : tree.siteAt? path = some site)
    (spill : site.isSpill source = true) : ∃ later, TakesIn source tree path later := by
  simp only [Site.isSpill, Bool.and_eq_true] at spill
  obtain ⟨⟨fieldLike, cutShort⟩, follows⟩ := spill
  rcases List.eq_nil_or_concat' path with rfl | ⟨parent, i, rfl⟩
  · -- The root has no siblings.
    obtain rfl := Option.some.inj reached
    simp [Site.top, declarationFollows] at follows
  · obtain ⟨holder, above, isChild⟩ := siteAt?_append_singleton_iff.mp reached
    obtain ⟨isParent, position, children⟩ := Site.child?_eq_some_iff.mp isChild
    have tokens : ∀ tree ∈ site.after, OnlyTokensMissing tree.root := by
      intro tree member
      exact recovered.tokens_of_mem above (by rw [children]; simp [member])
    obtain ⟨between, target, rest, after, leads, real⟩ := exists_leadsTo_of_declarationFollows tokens follows
    let later : Site := ⟨site.parent, between.reverse ++ site.tree :: site.before, target, rest⟩
    have detached : site.tree.root.isDetachedModifiers source = true := by
      rw [SyntaxNode.isDetachedModifiers, if_pos fieldLike, cutShort]
    have passed : between.length < (later.modifiersBack source).length :=
      (lt_length_modifiersBack_iff leads.declares).mpr ⟨detached, leads⟩
    refine ⟨later, leads.declares, real _ _, parent, i, i + between.length + 1, rfl, ?_, by omega, by omega⟩
    refine siteAt?_append_singleton_iff.mpr ⟨holder, above, Site.child?_eq_some_iff.mpr ⟨isParent, ?_, ?_⟩⟩
    · simp [later, position]
      omega
    · simp [later, children, after]

theorem isSpill_of_takesIn (recovered : tree.Recovered) (reached : tree.siteAt? path = some site)
    (field : site.tree.root.kind = "field_declaration" ∨ site.tree.root.kind = "constant_declaration")
    (takes : TakesIn source tree path later) :
    site.isSpill source = true ∧
      ∃ last, (later.modifiersBack source).getLast? = some last ∧ last.start ≤ site.tree.root.start := by
  obtain ⟨declares, -, parent, i, j, rfl, reachedLater, order, passed⟩ := takes
  obtain ⟨holder, above, isChild⟩ := siteAt?_append_singleton_iff.mp reached
  obtain ⟨same, aboveLater, isLater⟩ := siteAt?_append_singleton_iff.mp reachedLater
  obtain rfl : holder = same := Option.some.inj (above.symm.trans aboveLater)
  obtain ⟨between, rfl, after, before⟩ := Site.exists_between isChild isLater order
  obtain ⟨-, -, children⟩ := Site.child?_eq_some_iff.mp isChild
  obtain ⟨-, -, laterChildren⟩ := Site.child?_eq_some_iff.mp isLater
  have holderListed := mem_sites_of_siteAt? above
  have steps : between.length < (modifiersBack source later.tree.root later.before).length := by
    rw [Site.modifiersBack] at passed
    omega
  have fieldLike := isFieldLike_iff.mpr (.inl field)
  constructor
  · rw [before] at steps
    obtain ⟨detached, leads⟩ := (lt_length_modifiersBack_iff declares).mp steps
    rw [SyntaxNode.isDetachedModifiers, if_pos fieldLike] at detached
    have tokens : OnlyTokensMissing later.tree.root :=
      recovered.tokens_of_mem above (by rw [laterChildren]; simp)
    have notLocal : ∀ tree ∈ between, tree.root.kind ≠ "local_variable_declaration" := by
      intro tree member isLocal
      have noField := recovered.apart holder holderListed tree (by rw [children, after]; simp [member]) isLocal
        site.tree (by rw [children]; simp)
      rcases field with kind | kind
      · exact noField.1 kind
      · exact noField.2 kind
    rw [Site.isSpill, fieldLike, detached, after, leads.declarationFollows tokens notLocal]
    rfl
  · have ordered : later.before.Pairwise fun near far => far.root.start ≤ near.root.start := by
      have all := recovered.ordered holder holderListed
      rw [laterChildren] at all
      exact List.pairwise_reverse.mp (List.pairwise_append.mp all).1
    have here : later.before[between.length]? = some site.tree := by
      rw [before]
      simp
    exact exists_last_modifiersBack_le ordered here steps

/-- In a tree as parsers give it, a field is skipped as a spill exactly where a declaration that is no
spill steps back over it. The header of such a declaration may then reach back to the field, as far as its way back goes
or to the start of an error that holds it, and the field is not reported. -/
theorem isSpill_iff_takenIn (source : Array UInt8) {tree : SyntaxTree} (recovered : tree.Recovered)
    {path : List Nat} {site : Site} (reached : tree.siteAt? path = some site)
    (field : site.tree.root.kind = "field_declaration" ∨ site.tree.root.kind = "constant_declaration") :
    (site.isSpill source = true ↔ ∃ later, TakesIn source tree path later) ∧
      ∀ later, TakesIn source tree path later →
        (∃ floor, later.floor? source = some floor ∧ floor ≤ site.tree.root.start) ∧
        (∃ last, (later.modifiersBack source).getLast? = some last ∧ last.start ≤ site.tree.root.start ∧
          later.FloorFrom source last) ∧
        Anchor.ofSite? source (TokenStream.ofTree source tree) site = none := by
  refine ⟨⟨exists_takesIn_of_isSpill recovered reached, ?_⟩, ?_⟩
  · rintro ⟨later, takes⟩
    exact (isSpill_of_takesIn recovered reached field takes).1
  · intro later takes
    obtain ⟨spill, last, back, bound⟩ := isSpill_of_takesIn recovered reached field takes
    have floor : later.FloorFrom source last := Site.floorFrom_of_last back
    obtain ⟨start, found, least⟩ := floor.exists_le
    refine ⟨⟨start, found, Nat.le_trans least bound⟩, ⟨last, back, bound, floor⟩, ?_⟩
    rw [Anchor.ofSite?]
    split
    · rfl
    · rw [if_pos spill]

/-- Two words taken for fields and a stray one between them, before a class. -/
private def spillChain : SyntaxTree :=
  .node (Trivia.leaf "program" 0 8) [
    .node { Trivia.leaf "field_declaration" 0 1 with hasError := true } [.node (Trivia.leaf "identifier" 0 1) []],
    .node { Trivia.leaf "ERROR" 2 3 with hasError := true } [.node (Trivia.leaf "identifier" 2 3) []],
    .node { Trivia.leaf "field_declaration" 4 5 with hasError := true } [.node (Trivia.leaf "identifier" 4 5) []],
    .node (Trivia.leaf "class_declaration" 6 8) [.node (Trivia.leaf "class_body" 6 8) []]]

/-- The first field is taken in by the class, past the second one. -/
theorem isSpill_iff_takenIn_chain :
    spillChain.Recovered ∧ ∃ site later, spillChain.siteAt? [0] = some site ∧
      site.tree.root.kind = "field_declaration" ∧
      site.isSpill #[112, 32, 113, 32, 114, 32, 123, 125] = true ∧
      TakesIn #[112, 32, 113, 32, 114, 32, 123, 125] spillChain [0] later ∧
      ∃ floor, later.floor? #[112, 32, 113, 32, 114, 32, 123, 125] = some floor ∧ floor ≤ site.tree.root.start := by
  have recovered : spillChain.Recovered := ⟨by decide, by decide, by decide⟩
  obtain ⟨site, reached⟩ : ∃ site, spillChain.siteAt? [0] = some site := ⟨_, rfl⟩
  have field : site.tree.root.kind = "field_declaration" := by
    obtain rfl := Option.some.inj reached
    rfl
  have spill : site.isSpill #[112, 32, 113, 32, 114, 32, 123, 125] = true := by
    obtain rfl := Option.some.inj reached
    decide
  obtain ⟨agree, covered⟩ :=
    isSpill_iff_takenIn #[112, 32, 113, 32, 114, 32, 123, 125] recovered reached (.inl field)
  obtain ⟨later, takes⟩ := agree.mp spill
  exact ⟨recovered, site, later, reached, field, spill, takes, (covered later takes).1⟩

end ApexComments.SyntaxTree
