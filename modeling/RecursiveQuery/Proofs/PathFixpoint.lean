import Mathlib.Data.List.ProdSigma
import RecursiveQuery.Proofs.EdgeRows

/-!
# Fixpoints of path predicates

A step that puts hops in front of or behind the rows of the increment keeps
within the connected pairs, and no connected pair is missed: each stands in the
increment of some round, and the steps of that round are found in the end.
-/

namespace RecursiveQuery

namespace PathPredicate

variable {predicate : PathPredicate}
variable {found hops : List Value} {start target : Int64}

/-- The rows that a step adds to an increment by hops. -/
def Adds (predicate : PathPredicate) (hops increment : List Value)
    (row : Value) : Prop :=
  match predicate.linearity with
  | .right => ∃ start joint target, Edge.value (start, joint) ∈ hops ∧
      Edge.value (joint, target) ∈ increment ∧ row = Edge.value (start, target)
  | .left => ∃ start joint target, Edge.value (start, joint) ∈ increment ∧
      Edge.value (joint, target) ∈ hops ∧ row = Edge.value (start, target)

/-- Hops are the rows of the step relation, or the rows found so far if the
base relation takes steps in front of a path. -/
inductive Hops (predicate : PathPredicate) (found : List Value) :
    List Value → Prop where
  | relation : Hops predicate found (predicate.stepEdges.map Edge.value)
  | accumulated (linear : predicate.linearity = .right)
      (same : predicate.stepEdges = predicate.base) : Hops predicate found found

theorem Hops.rows (hop : predicate.Hops found hops) (edges : Edge.Rows found) :
    Edge.Rows hops := by
  cases hop with
  | relation => exact Edge.rows_map _
  | accumulated => exact edges

theorem connects_base (member : (start, target) ∈ predicate.base) :
    predicate.Connects start target := by
  rw [Connects]
  split
  · exact ⟨start, .refl, member⟩
  · exact ⟨target, member, .refl⟩

theorem not_connects_of_base_nil (empty : predicate.base = []) :
    ¬ predicate.Connects start target := by
  intro connection
  rw [Connects] at connection
  split at connection
  · obtain ⟨_, _, member⟩ := connection
    simp [empty] at member
  · obtain ⟨_, member, _⟩ := connection
    simp [empty] at member

/-- The rows of a step over connected pairs are connected. -/
theorem connects_of_adds {increment : List Value} {row : Value}
    (hop : predicate.Hops found hops) (included : increment ⊆ found)
    (connected : ∀ row ∈ found, ∃ start target, row =
      Edge.value (start, target) ∧ predicate.Connects start target)
    (added : predicate.Adds hops increment row) :
    ∃ start target, row = Edge.value (start, target) ∧
      predicate.Connects start target := by
  have connects : ∀ start target, Edge.value (start, target) ∈ found →
      predicate.Connects start target := by
    intro start target member
    obtain ⟨otherStart, otherTarget, equality, connection⟩ := connected _ member
    cases Edge.value_injective equality
    exact connection
  rw [Adds] at added
  cases linear : predicate.linearity with
  | right =>
      simp only [linear] at added
      obtain ⟨start, joint, target, hopMember, member, rfl⟩ := added
      have path := connects joint target (included member)
      refine ⟨start, target, rfl, ?_⟩
      rw [Connects, linear] at path ⊢
      obtain ⟨last, steps, baseMember⟩ := path
      cases hop with
      | relation =>
          have step : predicate.Steps start joint := by
            simpa [Steps, Edge.value_injective.eq_iff] using hopMember
          exact ⟨last, .head step steps, baseMember⟩
      | accumulated _ same =>
          have front := connects start joint hopMember
          rw [Connects, linear] at front
          obtain ⟨frontLast, frontSteps, frontMember⟩ := front
          have step : predicate.Steps frontLast joint := by
            rw [Steps, same]
            exact frontMember
          exact ⟨last, frontSteps.trans (.head step steps), baseMember⟩
  | left =>
      simp only [linear] at added
      obtain ⟨start, joint, target, member, hopMember, rfl⟩ := added
      have path := connects start joint (included member)
      refine ⟨start, target, rfl, ?_⟩
      rw [Connects, linear] at path ⊢
      obtain ⟨first, baseMember, steps⟩ := path
      cases hop with
      | relation =>
          have step : predicate.Steps joint target := by
            simpa [Steps, Edge.value_injective.eq_iff] using hopMember
          exact ⟨first, baseMember, steps.tail step⟩
      | accumulated right =>
          rw [linear] at right
          cases right

/-- Rows that hold the base and that steps do not leave hold all connections. -/
theorem mem_of_connects {holds : Int64 → Int64 → Prop}
    (base : ∀ start target, (start, target) ∈ predicate.base →
      holds start target)
    (front : predicate.linearity = .right → ∀ start joint target,
      predicate.Steps start joint → holds joint target → holds start target)
    (behind : predicate.linearity = .left → ∀ start joint target,
      holds start joint → predicate.Steps joint target → holds start target)
    {start target : Int64} (connection : predicate.Connects start target) :
    holds start target := by
  rw [Connects] at connection
  cases linear : predicate.linearity with
  | right =>
      simp only [linear] at connection
      obtain ⟨last, steps, member⟩ := connection
      induction steps using Relation.ReflTransGen.head_induction_on with
      | refl => exact base last target member
      | head step _ induction => exact front linear _ _ _ step induction
  | left =>
      simp only [linear] at connection
      obtain ⟨first, member, steps⟩ := connection
      induction steps with
      | refl => exact base start first member
      | tail _ step induction => exact behind linear _ _ _ induction step

/-- All pairs of a start and an end of the relations. -/
def space (predicate : PathPredicate) : List Edge :=
  let edges := predicate.base ++ predicate.stepEdges
  edges.map Prod.fst ×ˢ edges.map Prod.snd

theorem length_space : predicate.space.length = predicate.pairBound := by
  simp [space, pairBound, List.length_product]

theorem mem_space_of_mem {edge : Edge}
    (member : edge ∈ predicate.base ++ predicate.stepEdges) :
    edge ∈ predicate.space := by
  obtain ⟨start, target⟩ := edge
  exact List.mem_product.mpr
    ⟨List.mem_map.mpr ⟨_, member, rfl⟩, List.mem_map.mpr ⟨_, member, rfl⟩⟩

theorem space_of_adds {increment : List Value} {row : Value}
    (hop : predicate.Hops found hops) (included : increment ⊆ found)
    (inside : ∀ row ∈ found, ∃ edge ∈ predicate.space, row = Edge.value edge)
    (added : predicate.Adds hops increment row) :
    ∃ edge ∈ predicate.space, row = Edge.value edge := by
  have pairs : ∀ start target, Edge.value (start, target) ∈ found →
      (start, target) ∈ predicate.space := by
    intro start target member
    obtain ⟨edge, inSpace, equality⟩ := inside _ member
    cases Edge.value_injective equality
    exact inSpace
  have hopPairs : ∀ start target, Edge.value (start, target) ∈ hops →
      (start, target) ∈ predicate.space := by
    intro start target member
    cases hop with
    | relation =>
        refine mem_space_of_mem (List.mem_append_right _ ?_)
        simpa [Edge.value_injective.eq_iff] using member
    | accumulated => exact pairs start target member
  have composed : ∀ start joint target, (start, joint) ∈ predicate.space →
      (joint, target) ∈ predicate.space →
      (start, target) ∈ predicate.space := by
    intro start joint target front back
    exact List.mem_product.mpr
      ⟨(List.mem_product.mp front).1, (List.mem_product.mp back).2⟩
  rw [Adds] at added
  split at added
  · obtain ⟨start, joint, target, hopMember, member, rfl⟩ := added
    exact ⟨_, composed start joint target (hopPairs _ _ hopMember)
      (pairs _ _ (included member)), rfl⟩
  · obtain ⟨start, joint, target, member, hopMember, rfl⟩ := added
    exact ⟨_, composed start joint target (pairs _ _ (included member))
      (hopPairs _ _ hopMember), rfl⟩

/-- A step function that adds hops to the increment. -/
def AddsHops (predicate : PathPredicate) (step : RowStep) : Prop :=
  ∀ round found increment, Edge.Rows found → Edge.Rows increment →
    ∃ hops rows, predicate.Hops found hops ∧
    step round found increment = .ok rows ∧
      ∀ row, row ∈ rows ↔ predicate.Adds hops increment row

section Fixpoint

variable {step : RowStep} {rounds : Nat} {result : List Value}
variable {row : Value}

theorem listed_space_iff :
    Listed (predicate.space.map Edge.value) row ↔
      ∃ edge ∈ predicate.space, row = Edge.value edge := by
  constructor
  · rintro ⟨other, member, alike⟩
    obtain ⟨edge, inSpace, rfl⟩ := List.mem_map.mp member
    exact ⟨edge, inSpace, Edge.alike_value_iff.mp alike⟩
  · rintro ⟨edge, inSpace, rfl⟩
    exact Listed.of_mem (List.mem_map.mpr ⟨edge, inSpace, rfl⟩)

/-- The fixpoint is reached, because there are only so many pairs of nodes. -/
theorem exists_fixpoint (adds : predicate.AddsHops step)
    (enough : predicate.pairBound < rounds) :
    ∃ result, fixpoint step rounds (predicate.base.map Edge.value) =
      .ok result := by
  have enoughSpace : (predicate.space.map Edge.value).length < rounds := by
    rw [List.length_map, length_space]
    exact enough
  refine exists_fixpoint_eq_ok ?_ ?_ enoughSpace
  · intro round found increment included inside
    simp only [listed_space_iff] at inside ⊢
    have foundEdges : Edge.Rows found := by
      intro row member
      obtain ⟨edge, _, equality⟩ := inside row member
      exact ⟨edge, equality⟩
    obtain ⟨hops, rows, hop, done, members⟩ :=
      adds round found increment foundEdges
      fun row member => foundEdges row (included member)
    refine ⟨rows, done, ?_⟩
    intro row member
    exact space_of_adds hop included inside ((members row).mp member)
  · intro row member
    obtain ⟨edge, inBase, rfl⟩ := List.mem_map.mp member
    exact listed_space_iff.mpr
      ⟨edge, mem_space_of_mem (List.mem_append_left _ inBase), rfl⟩

theorem connects_of_fixpoint (adds : predicate.AddsHops step)
    (reached : fixpoint step rounds (predicate.base.map Edge.value) =
      .ok result) :
    ∀ row ∈ result, ∃ start target, row = Edge.value (start, target) ∧
      predicate.Connects start target := by
  refine fixpoint_forall_mem reached _ ?_ ?_
  · intro round found increment rows included connected stepped row member
    have foundEdges : Edge.Rows found := by
      intro row member
      obtain ⟨start, target, equality, _⟩ := connected row member
      exact ⟨(start, target), equality⟩
    obtain ⟨hops, others, hop, done, members⟩ :=
      adds round found increment foundEdges
      fun row member => foundEdges row (included member)
    rw [stepped] at done
    cases done
    exact connects_of_adds hop included connected ((members row).mp member)
  · intro row member
    obtain ⟨⟨start, target⟩, inBase, rfl⟩ := List.mem_map.mp member
    exact ⟨start, target, rfl, connects_base inBase⟩

/-- What a step adds to a row of the result is in the result too. -/
theorem mem_fixpoint_of_adds (adds : predicate.AddsHops step)
    (edges : Edge.Rows result)
    (reached : fixpoint step rounds (predicate.base.map Edge.value) =
      .ok result)
    (member : row ∈ result) {edge : Edge}
    (added : ∀ increment hops, row ∈ increment →
      predicate.stepEdges.map Edge.value ⊆ hops →
      predicate.Adds hops increment edge.value) :
    edge.value ∈ result := by
  obtain ⟨round, found, increment, rows, roundOf, here⟩ :=
    fixpoint_exists_round reached member
  have foundEdges : Edge.Rows found :=
    fun row member => edges row (roundOf.found_subset member)
  obtain ⟨hops, others, hop, done, members⟩ :=
    adds round found increment foundEdges
    fun row member => foundEdges row (roundOf.increment_subset member)
  rw [roundOf.stepped] at done
  cases done
  have included : predicate.stepEdges.map Edge.value ⊆ hops := by
    cases hop with
    | relation => exact List.Subset.refl _
    | accumulated _ same =>
        rw [same]
        intro row member
        obtain ⟨step, _, rfl⟩ := List.mem_map.mp member
        exact roundOf.first_subset
          (Edge.listed_value_iff.mp (listed_base _ member))
  have inRows := (members _).mpr (added increment hops here included)
  exact Edge.listed_value_iff.mp (roundOf.rows_listed _ inRows)

theorem mem_fixpoint_of_connects (adds : predicate.AddsHops step)
    (edges : Edge.Rows result)
    (reached : fixpoint step rounds (predicate.base.map Edge.value) =
      .ok result)
    (connection : predicate.Connects start target) :
    Edge.value (start, target) ∈ result := by
  refine @mem_of_connects predicate
    (fun start target => Edge.value (start, target) ∈ result)
    ?_ ?_ ?_ start target connection
  · intro start target member
    exact Edge.listed_value_iff.mp
      (fixpoint_listed_base reached _ (List.mem_map.mpr ⟨_, member, rfl⟩))
  · intro linear start joint target step member
    refine mem_fixpoint_of_adds adds edges reached member ?_
    intro increment hops here included
    rw [Adds, linear]
    exact ⟨start, joint, target, included (List.mem_map.mpr ⟨_, step, rfl⟩),
      here, rfl⟩
  · intro linear start joint target member step
    refine mem_fixpoint_of_adds adds edges reached member ?_
    intro increment hops here included
    rw [Adds, linear]
    exact ⟨start, joint, target, here,
      included (List.mem_map.mpr ⟨_, step, rfl⟩), rfl⟩

/-- A fixpoint whose steps add hops to the increment lists every connection
once. -/
theorem exists_fixpoint_eq_connections (adds : predicate.AddsHops step)
    (enough : predicate.pairBound < rounds) :
    ∃ edges : List Edge,
      fixpoint step rounds (predicate.base.map Edge.value) =
        .ok (edges.map Edge.value) ∧
      edges.Nodup ∧
      ∀ start target, (start, target) ∈ edges ↔
        predicate.Connects start target := by
  obtain ⟨result, reached⟩ := exists_fixpoint adds enough
  have connected := connects_of_fixpoint adds reached
  have rows : Edge.Rows result := by
    intro row member
    obtain ⟨start, target, equality, _⟩ := connected row member
    exact ⟨(start, target), equality⟩
  obtain ⟨edges, rfl⟩ := rows.exists_eq_map
  refine ⟨edges, reached, Edge.nodup_of_apart (fixpoint_apart reached), ?_⟩
  intro start target
  constructor
  · intro member
    obtain ⟨otherStart, otherTarget, equality, connection⟩ :=
      connected _ (List.mem_map.mpr ⟨_, member, rfl⟩)
    cases Edge.value_injective equality
    exact connection
  · intro connection
    have member := mem_fixpoint_of_connects adds rows reached connection
    simpa [Edge.value_injective.eq_iff] using member

end Fixpoint

end PathPredicate

end RecursiveQuery
