import Mathlib.Data.List.Perm.Basic
import RecursiveQuery.Value

/-!
# Equality of values

Equality of values is an equivalence relation, and two bags are equal when
their elements can be paired off.  Equality of collections refers to equality
of their elements and greedy pairing needs the latter to be symmetric and
transitive, so all facts are proved together by induction on the nesting of
values.
-/

namespace RecursiveQuery

variable {α : Type}

/-- Removing an element that passes a test takes one element away. -/
theorem perm_of_removeFirst?_eq_some {test : α → Bool} {items rest : List α}
    (removed : removeFirst? test items = some rest) :
    ∃ item, test item = true ∧ items.Perm (item :: rest) := by
  induction items generalizing rest with
  | nil => simp [removeFirst?] at removed
  | cons head tail induction =>
      by_cases passed : test head = true
      · rw [removeFirst?, if_pos passed] at removed
        cases removed
        exact ⟨head, passed, List.Perm.refl _⟩
      · rw [removeFirst?, if_neg passed] at removed
        obtain ⟨tailRest, tailRemoved, rfl⟩ := Option.map_eq_some_iff.mp removed
        obtain ⟨item, itemPassed, permutation⟩ := induction tailRemoved
        refine ⟨item, itemPassed, ?_⟩
        exact (permutation.cons head).trans (List.Perm.swap item head tailRest)

theorem exists_removeFirst?_eq_some {test : α → Bool} {items : List α}
    {item : α} (member : item ∈ items) (passed : test item = true) :
    ∃ rest, removeFirst? test items = some rest := by
  induction items with
  | nil => cases member
  | cons head tail induction =>
      by_cases headPassed : test head = true
      · exact ⟨tail, by rw [removeFirst?, if_pos headPassed]⟩
      · rcases List.mem_cons.mp member with rfl | tailMember
        · exact absurd passed headPassed
        · obtain ⟨rest, removed⟩ := induction tailMember
          exact ⟨head ::
            rest, by rw [removeFirst?, if_neg headPassed, removed]; rfl⟩

/-- Put another partner in the place of one partner. -/
theorem forall₂_replace {β : Type} {related : α → β → Prop} {items : List α}
    {before after : List β} {taken meant : β}
    (exchange : ∀ item ∈ items, related item taken → related item meant)
    (pairs : List.Forall₂ related items (before ++ taken :: after)) :
    List.Forall₂ related items (before ++ meant :: after) := by
  induction before generalizing items with
  | nil =>
      cases pairs with
      | cons first rest =>
          exact .cons (exchange _ List.mem_cons_self first) rest
  | cons head before induction =>
      cases pairs with
      | cons first rest =>
          refine .cons first (induction ?_ rest)
          intro item member
          exact exchange item (List.mem_cons_of_mem _ member)

namespace Value

variable {left right : List Value}

/-- Equality of values as a proposition. -/
def Alike (left right : Value) : Prop :=
  left.same right = true

/-- The elements of two bags can be paired off. -/
def BagAlike (left right : List Value) : Prop :=
  ∃ middle, List.Forall₂ Alike left middle ∧ middle.Perm right

theorem sameList_iff :
    sameList left right = true ↔ List.Forall₂ Alike left right := by
  induction left generalizing right with
  | nil => cases right <;> simp [sameList]
  | cons head tail induction =>
      cases right with
      | nil => simp [sameList]
      | cons other others => simp [sameList, induction, Alike]

theorem bagAlike_of_sameBag (same : sameBag left right = true) :
    BagAlike left right := by
  induction left generalizing right with
  | nil =>
      have empty : right = [] := by simpa [sameBag] using same
      exact ⟨[], .nil, by rw [empty]⟩
  | cons head tail induction =>
      cases removed : removeFirst? (fun other => head.same other) right with
      | none => simp [sameBag, removed] at same
      | some rest =>
          obtain ⟨partner, alike, permutation⟩ :=
            perm_of_removeFirst?_eq_some removed
          have tailSame : sameBag tail rest = true := by
            simpa [sameBag, removed] using same
          obtain ⟨middle, pairs, middlePerm⟩ := induction tailSame
          exact ⟨partner :: middle, .cons alike pairs,
            (middlePerm.cons partner).trans permutation.symm⟩

/-- Pairing off elements one after another finds a pairing if there is one.
When an element takes a partner that was meant for another element, the latter
can take the partner that was meant for the former. -/
theorem sameBag_of_bagAlike
    (exchange : ∀ first ∈ left, ∀ second ∈ left, ∀ taken ∈ right,
      ∀ meant ∈ right,
      Alike first taken → Alike first meant → Alike second taken →
        Alike second meant)
    (alike : BagAlike left right) : sameBag left right = true := by
  induction left generalizing right with
  | nil =>
      obtain ⟨middle, pairs, permutation⟩ := alike
      cases pairs
      simp [sameBag, permutation.nil_eq]
  | cons head tail induction =>
      obtain ⟨middle, pairs, permutation⟩ := alike
      cases pairs with
      | @cons _ meant _ middle headAlike tailPairs =>
          have meantMember : meant ∈ right :=
            permutation.mem_iff.mp List.mem_cons_self
          obtain ⟨rest, removed⟩ :
              ∃ rest, removeFirst? (fun other => head.same other) right =
                some rest :=
            exists_removeFirst?_eq_some meantMember headAlike
          obtain ⟨taken, takenAlike, rightPerm⟩ :=
            perm_of_removeFirst?_eq_some removed
          have takenMember : taken ∈ right :=
            rightPerm.mem_iff.mpr List.mem_cons_self
          have whole : (meant :: middle).Perm (taken :: rest) :=
            permutation.trans rightPerm
          have tailAlike : BagAlike tail rest := by
            rcases List.mem_cons.mp (whole.mem_iff.mpr List.mem_cons_self) with
              rfl | later
            · exact ⟨middle, tailPairs, whole.cons_inv⟩
            · -- `taken` was meant for an element of `tail`, which gets `meant`
              obtain ⟨before, after, rfl⟩ := List.append_of_mem later
              refine ⟨before ++ meant :: after,
                forall₂_replace ?_ tailPairs, ?_⟩
              · intro item member itemTaken
                exact exchange head List.mem_cons_self item
                  (List.mem_cons_of_mem _ member)
                  taken takenMember meant meantMember takenAlike headAlike
                    itemTaken
              · have front : (taken :: meant :: (before ++ after)).Perm
                  (taken :: rest) := by
                  refine List.Perm.trans ?_ whole
                  exact (List.Perm.swap meant taken _).trans
                    (List.perm_middle.symm.cons meant)
                exact List.perm_middle.trans front.cons_inv
          have restExchange : ∀ first ∈ tail, ∀ second ∈ tail,
              ∀ taken ∈ rest, ∀ meant ∈ rest,
                Alike first taken → Alike first meant → Alike second taken →
                  Alike second meant := by
            intro first firstMember second secondMember taken takenRest meant
              meantRest
            exact exchange first (List.mem_cons_of_mem _ firstMember)
              second (List.mem_cons_of_mem _ secondMember)
              taken (rightPerm.mem_iff.mpr (List.mem_cons_of_mem _ takenRest))
              meant (rightPerm.mem_iff.mpr (List.mem_cons_of_mem _ meantRest))
          simpa [sameBag, removed] using induction restExchange tailAlike

mutual

/-- How deeply values are nested in a value. -/
def depth : Value → Nat
  | tuple items => depthList items + 1
  | collection _ rows => depthList rows + 1
  | iterateOn _ base => depth base + 1
  | _ => 0

def depthList : List Value → Nat
  | [] => 0
  | item :: items => max (depth item) (depthList items)

end

theorem depth_le_depthList {item : Value} {items : List Value}
    (member : item ∈ items) : item.depth ≤ depthList items := by
  induction items with
  | nil => cases member
  | cons head tail induction =>
      rw [depthList]
      rcases List.mem_cons.mp member with rfl | tailMember
      · exact Nat.le_max_left _ _
      · exact Nat.le_trans (induction tailMember) (Nat.le_max_right _ _)

/-- Equality is an equivalence relation on the values of a bounded depth. -/
structure EquivalentBelow (bound : Nat) : Prop where
  refl : ∀ value : Value, value.depth < bound → value.Alike value
  symm : ∀ left right : Value, left.depth < bound → right.depth < bound →
    left.Alike right → right.Alike left
  trans : ∀ left middle right : Value,
    left.depth < bound → middle.depth < bound → right.depth < bound →
      left.Alike middle → middle.Alike right → left.Alike right

namespace EquivalentBelow

variable {bound : Nat} {left middle right : List Value}

theorem forall₂_refl (equivalent : EquivalentBelow bound)
    (small : ∀ item ∈ left, item.depth < bound) :
    List.Forall₂ Alike left left :=
  List.forall₂_same.mpr fun item member =>
    equivalent.refl item (small item member)

theorem forall₂_symm (equivalent : EquivalentBelow bound)
    (leftSmall : ∀ item ∈ left, item.depth < bound)
    (rightSmall : ∀ item ∈ right, item.depth < bound)
    (pairs : List.Forall₂ Alike left right) :
    List.Forall₂ Alike right left := by
  induction pairs with
  | nil => exact .nil
  | @cons first second lefts rights alike _ induction =>
      refine .cons ?_ (induction ?_ ?_)
      · exact equivalent.symm first second (leftSmall first List.mem_cons_self)
          (rightSmall second List.mem_cons_self) alike
      · intro item member
        exact leftSmall item (List.mem_cons_of_mem _ member)
      · intro item member
        exact rightSmall item (List.mem_cons_of_mem _ member)

theorem forall₂_trans (equivalent : EquivalentBelow bound)
    (leftSmall : ∀ item ∈ left, item.depth < bound)
    (middleSmall : ∀ item ∈ middle, item.depth < bound)
    (rightSmall : ∀ item ∈ right, item.depth < bound)
    (first : List.Forall₂ Alike left middle)
    (second : List.Forall₂ Alike middle right) :
    List.Forall₂ Alike left right := by
  induction first generalizing right with
  | nil => exact second
  | @cons one two ones twos alike _ induction =>
      cases second with
      | @cons _ three _ threes alike' rest =>
          refine .cons ?_ (induction ?_ ?_ ?_ rest)
          · exact equivalent.trans one two three
              (leftSmall one List.mem_cons_self)
              (middleSmall two List.mem_cons_self)
              (rightSmall three List.mem_cons_self)
              alike alike'
          · intro item member
            exact leftSmall item (List.mem_cons_of_mem _ member)
          · intro item member
            exact middleSmall item (List.mem_cons_of_mem _ member)
          · intro item member
            exact rightSmall item (List.mem_cons_of_mem _ member)

theorem sameBag_iff (equivalent : EquivalentBelow bound)
    (leftSmall : ∀ item ∈ left, item.depth < bound)
    (rightSmall : ∀ item ∈ right, item.depth < bound) :
    sameBag left right = true ↔ BagAlike left right := by
  refine ⟨bagAlike_of_sameBag, sameBag_of_bagAlike ?_⟩
  intro first firstMember second secondMember taken takenMember meant
    meantMember firstTaken firstMeant secondTaken
  have firstSmall := leftSmall first firstMember
  have secondSmall := leftSmall second secondMember
  have takenSmall := rightSmall taken takenMember
  have meantSmall := rightSmall meant meantMember
  have takenFirst : taken.Alike first :=
    equivalent.symm first taken firstSmall takenSmall firstTaken
  have takenMeant : taken.Alike meant :=
    equivalent.trans taken first meant takenSmall firstSmall meantSmall
      takenFirst firstMeant
  exact equivalent.trans second taken meant secondSmall takenSmall meantSmall
    secondTaken takenMeant

theorem bagAlike_symm (equivalent : EquivalentBelow bound)
    (leftSmall : ∀ item ∈ left, item.depth < bound)
    (rightSmall : ∀ item ∈ right, item.depth < bound)
    (alike : BagAlike left right) : BagAlike right left := by
  obtain ⟨paired, pairs, permutation⟩ := alike
  have reversed : List.Forall₂ Alike paired left := by
    refine equivalent.forall₂_symm leftSmall ?_ pairs
    intro item member
    exact rightSmall item (permutation.mem_iff.mp member)
  exact List.perm_comp_forall₂ permutation.symm reversed

theorem bagAlike_trans (equivalent : EquivalentBelow bound)
    (leftSmall : ∀ item ∈ left, item.depth < bound)
    (middleSmall : ∀ item ∈ middle, item.depth < bound)
    (rightSmall : ∀ item ∈ right, item.depth < bound)
    (first : BagAlike left middle) (second : BagAlike middle right) :
    BagAlike left right := by
  obtain ⟨firstPaired, firstPairs, firstPerm⟩ := first
  obtain ⟨secondPaired, secondPairs, secondPerm⟩ := second
  obtain ⟨paired, pairs, permutation⟩ :=
    List.perm_comp_forall₂ firstPerm secondPairs
  refine ⟨paired, ?_, permutation.trans secondPerm⟩
  refine equivalent.forall₂_trans leftSmall ?_ ?_ firstPairs pairs
  · intro item member
    exact middleSmall item (firstPerm.mem_iff.mp member)
  · intro item member
    exact rightSmall item ((permutation.trans secondPerm).mem_iff.mp member)

private theorem items_small {items : List Value}
    (small : depthList items + 1 < bound + 1) :
    ∀ item ∈ items, item.depth < bound := by
  intro item member
  have := depth_le_depthList member
  omega

/-- One more level of nesting. -/
theorem succ (equivalent : EquivalentBelow bound) :
    EquivalentBelow (bound + 1) where
  refl := by
    intro value small
    cases value with
    | tuple items =>
        simp only [Alike, same, sameList_iff]
        exact equivalent.forall₂_refl (items_small small)
    | collection kind rows =>
        have rowsSmall := items_small small
        cases kind with
        | list =>
            simp only [Alike, same, sameList_iff]
            exact equivalent.forall₂_refl rowsSmall
        | bag =>
            simp only [Alike, same, equivalent.sameBag_iff rowsSmall rowsSmall]
            exact ⟨rows, equivalent.forall₂_refl rowsSmall, List.Perm.refl _⟩
    | iterateOn kind base =>
        simp only [depth] at small
        simpa [Alike, same] using equivalent.refl base (by omega)
    | _ => simp [Alike, same]
  symm := by
    intro left right leftSmall rightSmall alike
    cases left <;> cases right <;>
      simp only [Alike, same, Bool.false_eq_true] at alike ⊢
    case tuple.tuple lefts rights =>
      rw [sameList_iff] at alike ⊢
      exact equivalent.forall₂_symm (items_small leftSmall)
        (items_small rightSmall) alike
    case collection.collection leftKind lefts rightKind rights =>
      have leftsSmall := items_small leftSmall
      have rightsSmall := items_small rightSmall
      cases leftKind <;> cases rightKind <;>
        simp only [same, Bool.false_eq_true] at alike ⊢
      · rw [sameList_iff] at alike ⊢
        exact equivalent.forall₂_symm leftsSmall rightsSmall alike
      · rw [equivalent.sameBag_iff leftsSmall rightsSmall] at alike
        rw [equivalent.sameBag_iff rightsSmall leftsSmall]
        exact equivalent.bagAlike_symm leftsSmall rightsSmall alike
    case iterateOn.iterateOn leftKind left rightKind right =>
      simp only [depth] at leftSmall rightSmall
      simp only [Bool.and_eq_true, beq_iff_eq] at alike ⊢
      exact ⟨alike.1.symm,
        equivalent.symm left right (by omega) (by omega) alike.2⟩
    all_goals simp_all
  trans := by
    intro left middle right leftSmall middleSmall rightSmall first second
    cases left <;> cases middle <;>
      simp only [Alike, same, Bool.false_eq_true] at first <;>
      cases right <;> simp only [Alike, same, Bool.false_eq_true] at second ⊢
    case tuple.tuple.tuple lefts middles rights =>
      rw [sameList_iff] at first second ⊢
      exact equivalent.forall₂_trans (items_small leftSmall)
        (items_small middleSmall) (items_small rightSmall) first second
    case collection.collection.collection leftKind lefts middleKind middles
        rightKind rights =>
      have leftsSmall := items_small leftSmall
      have middlesSmall := items_small middleSmall
      have rightsSmall := items_small rightSmall
      cases leftKind <;> cases middleKind <;>
        simp only [same, Bool.false_eq_true] at first <;>
        cases rightKind <;> simp only [same, Bool.false_eq_true] at second ⊢
      · rw [sameList_iff] at first second ⊢
        exact equivalent.forall₂_trans leftsSmall middlesSmall rightsSmall
          first second
      · rw [equivalent.sameBag_iff leftsSmall middlesSmall] at first
        rw [equivalent.sameBag_iff middlesSmall rightsSmall] at second
        rw [equivalent.sameBag_iff leftsSmall rightsSmall]
        exact equivalent.bagAlike_trans leftsSmall middlesSmall rightsSmall
          first second
    case iterateOn.iterateOn.iterateOn leftKind left middleKind middle
        rightKind right =>
      simp only [depth] at leftSmall middleSmall rightSmall
      simp only [Bool.and_eq_true, beq_iff_eq] at first second ⊢
      exact ⟨first.1.trans second.1,
        equivalent.trans left middle right (by omega) (by omega) (by omega)
          first.2 second.2⟩
    all_goals simp_all

theorem all (bound : Nat) : EquivalentBelow bound := by
  induction bound with
  | zero =>
      exact ⟨fun _ small => absurd small (Nat.not_lt_zero _),
        fun _ _ small => absurd small (Nat.not_lt_zero _),
        fun _ _ _ small => absurd small (Nat.not_lt_zero _)⟩
  | succ bound induction => exact induction.succ

end EquivalentBelow

namespace Alike

theorem refl (value : Value) : value.Alike value :=
  (EquivalentBelow.all (value.depth + 1)).refl value (Nat.lt_succ_self _)

theorem symm {left right : Value} (alike : left.Alike right) :
    right.Alike left :=
  (EquivalentBelow.all (left.depth + right.depth + 1)).symm left right
    (by omega) (by omega) alike

theorem trans {left middle right : Value}
    (first : left.Alike middle) (second : middle.Alike right) :
    left.Alike right :=
  (EquivalentBelow.all (left.depth + middle.depth + right.depth + 1)).trans
    left middle right (by omega) (by omega) (by omega) first second

end Alike

/-- Two bags are equal exactly when their elements can be paired off. -/
theorem sameBag_iff :
    sameBag left right = true ↔ BagAlike left right := by
  refine (EquivalentBelow.all
    (depthList left + depthList right + 1)).sameBag_iff ?_ ?_
  · intro item member
    have := depth_le_depthList member
    omega
  · intro item member
    have := depth_le_depthList member
    omega

theorem alike_equivalence : Equivalence Alike :=
  ⟨Alike.refl, Alike.symm, Alike.trans⟩

theorem forall₂_alike_symm (pairs : List.Forall₂ Alike left right) :
    List.Forall₂ Alike right left :=
  pairs.flip.imp fun _ _ => Alike.symm

/-- It does not matter which of two bags is reordered to pair them off. -/
theorem bagAlike_iff_permuted :
    BagAlike left right ↔ ∃ permuted, permuted.Perm left ∧
      List.Forall₂ Alike permuted right := by
  constructor
  · intro alike
    obtain ⟨middle, pairs, permutation⟩ := alike
    obtain ⟨permuted, permutedPairs, permutedPerm⟩ :=
      List.perm_comp_forall₂ permutation.symm (forall₂_alike_symm pairs)
    exact ⟨permuted, permutedPerm, forall₂_alike_symm permutedPairs⟩
  · intro paired
    obtain ⟨permuted, permutation, pairs⟩ := paired
    obtain ⟨middle, middlePairs, middlePerm⟩ :=
      List.perm_comp_forall₂ permutation.symm pairs
    exact ⟨middle, middlePairs, middlePerm⟩

/-- Equality of values, functions included, is an equivalence relation, and two
bags are equal exactly if the elements of the one can be permuted so that they
equal those of the other one by one.  Whatever the orders in which the elements
can be paired off, pairing them off greedily succeeds in the orders at hand. -/
theorem bag_equality_finds_every_pairing (left right : List Value) :
    Equivalence Alike ∧
      ((collection .bag left).Alike (collection .bag right) ↔
        ∃ permuted, permuted.Perm left ∧ List.Forall₂ Alike permuted right) ∧
      (sameBag left right = true ↔ ∃ lefts rights : List Value,
        lefts.Perm left ∧ rights.Perm right ∧
        List.Forall₂ Alike lefts rights) := by
  have isPaired : sameBag left right = true ↔
      ∃ permuted, permuted.Perm left ∧ List.Forall₂ Alike permuted right :=
    sameBag_iff.trans bagAlike_iff_permuted
  refine ⟨alike_equivalence, isPaired, isPaired.trans ?_⟩
  constructor
  · intro paired
    obtain ⟨permuted, permutation, pairs⟩ := paired
    exact ⟨permuted, right, permutation, List.Perm.refl _, pairs⟩
  · intro paired
    obtain ⟨lefts, rights, leftPerm, rightPerm, pairs⟩ := paired
    obtain ⟨permuted, permutedPairs, permutedPerm⟩ :=
      List.perm_comp_forall₂ rightPerm.symm (forall₂_alike_symm pairs)
    exact ⟨permuted, permutedPerm.trans leftPerm,
      forall₂_alike_symm permutedPairs⟩

-- The first inner bag on the left takes the one that is spelled like the
-- second.
example :
    (collection .bag
      [collection .bag [int 1, int 2], collection .bag [int 2, int 1],
        unit]).same
      (collection .bag [unit, collection .bag [int 2, int 1],
        collection .bag [int 1, int 2]]) = true := by
  decide

end Value

end RecursiveQuery
