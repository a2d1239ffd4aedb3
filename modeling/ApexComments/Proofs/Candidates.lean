import ApexComments.Proofs.Association
import Mathlib.Logic.Relation

/-!
# The choice among candidates

A lookup may ask any token source. Of the tokens that it answers with, those to the left first, the first documentation
comment of greatest index is taken (`IsFirstLatest`). Where an index names one token, this is the only documentation
comment of that index, so the choice depends on which candidates there are, and neither on their order nor on how often
they come (`nearestDoc_of_mem_iff`).
-/
namespace ApexComments.HiddenTokens

variable {source again : HiddenTokens} {anchor : Int} {left right newLeft newRight : Option (List Token)}
  {tokens others : List Token} {token doc : Token}

/-- Asked about the anchor, the source answers with these tokens, all of which have text. It may answer with no list
instead of an empty one. Right of the token before the anchor it is asked only where there may be such a token. -/
structure Gives (source : HiddenTokens) (anchor : Int) (left right : Option (List Token)) : Prop where
  toLeft : source.left anchor = .ok ((left.getD []).map some)
  toRight : 0 < anchor → source.right (anchor - 1) = .ok ((right.getD []).map some)

/-- The tokens to choose from. -/
def considered (anchor : Int) (left right : Option (List Token)) : List Token :=
  left.getD [] ++ if 0 < anchor then right.getD [] else []

/-- The first of the documentation comments of greatest index. -/
def IsFirstLatest (tokens : List Token) (doc : Token) : Prop :=
  Comment.isDoc doc.text = true ∧ ∃ before after, tokens = before ++ doc :: after ∧
    (∀ other ∈ before, Comment.isDoc other.text = true → other.index < doc.index) ∧
    ∀ other ∈ after, Comment.isDoc other.text = true → other.index ≤ doc.index

/-- One change in the order of two lists, in the place of a token, or in how often one comes. -/
inductive Rearranges (anchor : Int) : List Token × List Token → List Token × List Token → Prop
  | permute {left right newLeft newRight : List Token} (order : left.Perm newLeft) (otherOrder : right.Perm newRight) :
      Rearranges anchor (left, right) (newLeft, newRight)
  | moveRight {token : Token} {left right : List Token} (positive : 0 < anchor) :
      Rearranges anchor (token :: left, right) (left, token :: right)
  | moveLeft {token : Token} {left right : List Token} (positive : 0 < anchor) :
      Rearranges anchor (left, token :: right) (token :: left, right)
  | repeatLeft {token : Token} {left right : List Token} (member : token ∈ left) :
      Rearranges anchor (left, right) (token :: left, right)
  | repeatRight {token : Token} {left right : List Token} (member : token ∈ right) :
      Rearranges anchor (left, right) (left, token :: right)

/-- No two of the tokens have one index. -/
def IndexNamesOne (tokens : List Token) : Prop :=
  ∀ token ∈ tokens, ∀ other ∈ tokens, token.index = other.index → token = other

instance (tokens : List Token) : Decidable (IndexNamesOne tokens) :=
  inferInstanceAs (Decidable (∀ token ∈ tokens, ∀ other ∈ tokens, token.index = other.index → token = other))

/-! ## The first latest token -/

theorem latest?_cons_eq_some_iff {first : Token} :
    latest? (first :: tokens) = some token ↔
      (token = first ∧ ∀ other ∈ tokens, other.index ≤ first.index) ∨
        (latest? tokens = some token ∧ first.index < token.index) := by
  rw [latest?]
  cases found : latest? tokens with
  | none =>
    obtain rfl := latest?_eq_none_iff.mp found
    simp [eq_comm]
  | some later =>
    obtain ⟨member, greatest⟩ := latest?_eq_some found
    by_cases less : first.index < later.index
    · have low : ¬ ∀ other ∈ tokens, other.index ≤ first.index := by
        intro each
        have := each later member
        omega
      simp only [less, if_true, low, and_false, false_or, Option.some.injEq]
      constructor
      · rintro rfl
        exact ⟨rfl, less⟩
      · exact fun same => same.1
    · have high : ∀ other ∈ tokens, other.index ≤ first.index := by
        intro other among
        have := greatest other among
        omega
      simp only [less, if_false, Option.some.injEq]
      constructor
      · rintro rfl
        exact .inl ⟨rfl, high⟩
      · rintro (⟨rfl, -⟩ | ⟨rfl, more⟩)
        · rfl
        · exact absurd more less

/-- The latest token is the first one of greatest index. -/
theorem latest?_eq_some_iff : latest? tokens = some token ↔
    ∃ before after, tokens = before ++ token :: after ∧ (∀ other ∈ before, other.index < token.index) ∧
      ∀ other ∈ after, other.index ≤ token.index := by
  induction tokens with
  | nil => simp [latest?]
  | cons first rest ih =>
    rw [latest?_cons_eq_some_iff, ih]
    constructor
    · rintro (⟨rfl, greatest⟩ | ⟨⟨before, after, rfl, earlier, later⟩, less⟩)
      · exact ⟨[], rest, rfl, by simp, greatest⟩
      · exact ⟨first :: before, after, rfl, List.forall_mem_cons.mpr ⟨less, earlier⟩, later⟩
    · rintro ⟨before, after, split, earlier, later⟩
      cases before with
      | nil =>
        obtain ⟨rfl, rfl⟩ := List.cons.inj split
        exact .inl ⟨rfl, later⟩
      | cons head before =>
        obtain ⟨rfl, rfl⟩ := List.cons.inj split
        obtain ⟨less, between⟩ := List.forall_mem_cons.mp earlier
        exact .inr ⟨⟨before, after, rfl, between, later⟩, less⟩

theorem latest?_filter_eq_some_iff :
    latest? (tokens.filter fun token => Comment.isDoc token.text) = some doc ↔ IsFirstLatest tokens doc := by
  rw [latest?_eq_some_iff]
  constructor
  · rintro ⟨before, after, split, earlier, later⟩
    obtain ⟨front, back, rfl, rfl, ofBack⟩ := List.filter_eq_append_iff.mp split
    obtain ⟨passed, rest, rfl, none, isDoc, rfl⟩ := List.filter_eq_cons_iff.mp ofBack
    refine ⟨isDoc, front ++ passed, rest, by simp, ?_, ?_⟩
    · intro other member otherDoc
      rcases List.mem_append.mp member with inFront | inPassed
      · exact earlier other (List.mem_filter.mpr ⟨inFront, otherDoc⟩)
      · exact absurd otherDoc (none other inPassed)
    · intro other member otherDoc
      exact later other (List.mem_filter.mpr ⟨member, otherDoc⟩)
  · rintro ⟨isDoc, before, after, rfl, earlier, later⟩
    refine ⟨before.filter fun token => Comment.isDoc token.text, after.filter fun token => Comment.isDoc token.text,
      by simp [isDoc], ?_, ?_⟩
    · intro other member
      obtain ⟨among, otherDoc⟩ := List.mem_filter.mp member
      exact earlier other among otherDoc
    · intro other member
      obtain ⟨among, otherDoc⟩ := List.mem_filter.mp member
      exact later other among otherDoc

/-- Where an index names one token, the latest of the same tokens is the same. -/
theorem latest?_of_mem_iff (same : ∀ token, token ∈ tokens ↔ token ∈ others) (one : IndexNamesOne tokens) :
    latest? others = latest? tokens := by
  cases found : latest? tokens with
  | none =>
    obtain rfl := latest?_eq_none_iff.mp found
    rw [latest?_eq_none_iff, List.eq_nil_iff_forall_not_mem]
    intro token member
    exact absurd ((same token).mpr member) (by simp)
  | some token =>
    obtain ⟨member, greatest⟩ := latest?_eq_some found
    cases alsoFound : latest? others with
    | none =>
      obtain rfl := latest?_eq_none_iff.mp alsoFound
      exact absurd ((same token).mp member) (by simp)
    | some other =>
      obtain ⟨among, alsoGreatest⟩ := latest?_eq_some alsoFound
      have isToken := (same other).mpr among
      have low := greatest other isToken
      have high := alsoGreatest token ((same token).mp member)
      rw [one other isToken token member (by omega)]

/-! ## Lookups in what a source gives -/

theorem nearestDoc_of_gives (gives : source.Gives anchor left right) :
    source.nearestDoc anchor =
      .ok (latest? ((considered anchor left right).filter fun token => Comment.isDoc token.text)) := by
  have found : source.candidates anchor = .ok ((considered anchor left right).map some) := by
    rw [candidates, gives.toLeft, considered]
    by_cases positive : 0 < anchor
    · simp only [positive, if_true, gives.toRight positive, List.map_append]
    · simp only [positive, if_false, List.append_nil]
  rw [nearestDoc, found]
  simp only [readable_map_some, Except.map]

/-- What is chosen depends on which candidates there are. -/
theorem nearestDoc_of_mem_iff (gives : source.Gives anchor left right) (also : again.Gives anchor newLeft newRight)
    (same : ∀ token, token ∈ considered anchor left right ↔ token ∈ considered anchor newLeft newRight)
    (one : IndexNamesOne (considered anchor left right)) : again.nearestDoc anchor = source.nearestDoc anchor := by
  rw [nearestDoc_of_gives gives, nearestDoc_of_gives also]
  refine congrArg Except.ok (latest?_of_mem_iff ?_ ?_)
  · intro token
    rw [List.mem_filter, List.mem_filter, same]
  · intro token member other among
    exact one token (List.mem_filter.mp member).1 other (List.mem_filter.mp among).1

theorem Rearranges.mem_iff {given new : List Token × List Token} (rearranges : Rearranges anchor given new)
    (token : Token) :
    token ∈ (given.1 ++ if 0 < anchor then given.2 else []) ↔ token ∈ (new.1 ++ if 0 < anchor then new.2 else []) := by
  cases rearranges with
  | permute order otherOrder =>
    simp only [List.mem_append, order.mem_iff]
    split
    · rw [otherOrder.mem_iff]
    · rfl
  | moveRight positive =>
    simp only [positive, if_true, List.mem_append, List.mem_cons]
    tauto
  | moveLeft positive =>
    simp only [positive, if_true, List.mem_append, List.mem_cons]
    tauto
  | repeatLeft member =>
    simp only [List.mem_append, List.mem_cons]
    constructor
    · exact fun known => known.imp_left .inr
    · rintro ((rfl | known) | known)
      · exact .inl member
      · exact .inl known
      · exact .inr known
  | repeatRight member =>
    simp only [List.mem_append]
    split
    · rw [List.mem_cons]
      constructor
      · exact fun known => known.imp_right .inr
      · rintro (known | rfl | known)
        · exact .inl known
        · exact .inr member
        · exact .inr known
    · rfl

/-- However often the lists are changed, the candidates stay. -/
theorem mem_considered_of_rearranged
    (rearranged : Relation.ReflTransGen (Rearranges anchor) (left.getD [], right.getD [])
      (newLeft.getD [], newRight.getD [])) (token : Token) :
    token ∈ considered anchor left right ↔ token ∈ considered anchor newLeft newRight := by
  have run {given new : List Token × List Token} (steps : Relation.ReflTransGen (Rearranges anchor) given new) :
      token ∈ (given.1 ++ if 0 < anchor then given.2 else []) ↔
        token ∈ (new.1 ++ if 0 < anchor then new.2 else []) := by
    induction steps with
    | refl => rfl
    | tail _ step ih => exact ih.trans (step.mem_iff token)
  exact run rearranged

/-- A lookup in any source takes the first documentation comment of greatest index, left before right, and none only
where there is none. Where an index names one token, the order of the candidates, the list in which they come and how
often they come make no difference to it, nor to the span and the comment read from it. -/
theorem nearestDoc_selects (gives : source.Gives anchor left right) :
    (source.nearestDoc anchor = .ok none ↔
      ∀ token ∈ considered anchor left right, Comment.isDoc token.text = false) ∧
    (∀ doc, source.nearestDoc anchor = .ok (some doc) ↔ IsFirstLatest (considered anchor left right) doc) ∧
    (∃ found, source.nearestDoc anchor = .ok found) ∧
    (IndexNamesOne (considered anchor left right) →
      ∀ (again : HiddenTokens) (newLeft newRight : Option (List Token)), again.Gives anchor newLeft newRight →
        Relation.ReflTransGen (Rearranges anchor) (left.getD [], right.getD []) (newLeft.getD [], newRight.getD []) →
        again.nearestDoc anchor = source.nearestDoc anchor ∧ again.docSpan anchor = source.docSpan anchor ∧
          ∀ everyParam, again.docComment everyParam anchor = source.docComment everyParam anchor) := by
  refine ⟨?_, ?_, ⟨_, nearestDoc_of_gives gives⟩, ?_⟩
  · rw [nearestDoc_of_gives gives, Except.ok.injEq, latest?_eq_none_iff, List.filter_eq_nil_iff]
    simp only [Bool.not_eq_true]
  · intro doc
    rw [nearestDoc_of_gives gives, Except.ok.injEq, latest?_filter_eq_some_iff]
  · intro one again newLeft newRight also rearranged
    have same := nearestDoc_of_mem_iff gives also (mem_considered_of_rearranged rearranged) one
    refine ⟨same, ?_, ?_⟩
    · rw [docSpan, docSpan, same]
    · intro everyParam
      rw [docComment, docComment, same]

/-- A source that answers every question in the same way. -/
private def answering (left right : Option (List Token)) : HiddenTokens where
  left _ := .ok ((left.getD []).map some)
  right _ := .ok ((right.getD []).map some)

/-- Two documentation comments and a blank between them, the later comment on the left; and the same tokens on the
right alone, the later comment twice. -/
theorem nearestDoc_selects_moved :
    let first : Token := ⟨['/', '/', '/'], 1, 1, 0, 1, "", -1⟩
    let blank : Token := ⟨[' '], 2, 1, 3, 1, "", -1⟩
    let last : Token := ⟨['/', '*', '*', '/'], 3, 1, 4, 1, "", -1⟩
    let source := answering (some [last, blank]) (some [first])
    let again := answering none (some [first, last, blank, last])
    IndexNamesOne (considered 4 (some [last, blank]) (some [first])) ∧
      source.nearestDoc 4 = .ok (some last) ∧ again.nearestDoc 4 = source.nearestDoc 4 := by
  intro first blank last source again
  have gives : source.Gives 4 (some [last, blank]) (some [first]) := ⟨rfl, fun _ => rfl⟩
  have also : again.Gives 4 none (some [first, last, blank, last]) := ⟨rfl, fun _ => rfl⟩
  have one : IndexNamesOne (considered 4 (some [last, blank]) (some [first])) := by decide
  have moved : Relation.ReflTransGen (Rearranges 4) ([last, blank], [first]) ([], [blank, last, first]) :=
    .tail (.single (.moveRight (by decide))) (.moveRight (by decide))
  have twice : Relation.ReflTransGen (Rearranges 4) ([last, blank], [first]) ([], [last, blank, last, first]) :=
    .tail moved (.repeatRight (by decide))
  have turned : Relation.ReflTransGen (Rearranges 4) ([last, blank], [first]) ([], [first, last, blank, last]) :=
    .tail twice (.permute (.refl _) (by decide))
  obtain ⟨-, chosen, -, unmoved⟩ := nearestDoc_selects gives
  refine ⟨one, (chosen last).mpr ⟨by decide, [], [blank, first], rfl, by decide, by decide⟩, ?_⟩
  exact (unmoved one again none (some [first, last, blank, last]) also turned).1

end ApexComments.HiddenTokens
