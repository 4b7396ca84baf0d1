import Mathlib.Data.List.Basic
import RecursiveQuery.Evaluation.Fixpoint
import RecursiveQuery.Proofs.ValueEquality

/-!
# Fixpoints of row functions

Every row of a fixpoint stands in the increment of one round, whose step gave
rows that the fixpoint has too.  Conversely a property of the base rows that
every step keeps holds for all rows.  The rows of a fixpoint are pairwise
different, so that inside a finite universe the rounds come to an end.
-/

namespace RecursiveQuery

variable {known rows found : List Value} {row : Value}

/-- One of some rows equals a given row. -/
def Listed (rows : List Value) (row : Value) : Prop :=
  ∃ other ∈ rows, other.Alike row

/-- No two rows are equal. -/
def Apart (rows : List Value) : Prop :=
  rows.Pairwise fun left right => ¬ left.Alike right

namespace Listed

variable {rows others : List Value} {row other : Value}

theorem of_mem (member : row ∈ rows) : Listed rows row :=
  ⟨row, member, Value.Alike.refl row⟩

theorem mono (included : rows ⊆ others) (listed : Listed rows row) :
    Listed others row := by
  obtain ⟨found, member, alike⟩ := listed
  exact ⟨found, included member, alike⟩

theorem congr (listed : Listed rows row) (alike : row.Alike other) :
    Listed rows other := by
  obtain ⟨found, member, foundAlike⟩ := listed
  exact ⟨found, member, foundAlike.trans alike⟩

end Listed

theorem known_any_iff :
    (known.any fun other => other.same row) = true ↔ Listed known row := by
  simp [Listed, Value.Alike]

theorem newRows_subset (known rows : List Value) :
    newRows known rows ⊆ rows := by
  induction rows generalizing known with
  | nil => simp [newRows]
  | cons row rows induction =>
      rw [newRows]
      split
      · exact List.subset_cons_of_subset row (induction known)
      · exact List.cons_subset_cons row (induction (row :: known))

theorem listed_newRows (member : row ∈ rows) :
    Listed known row ∨ Listed (newRows known rows) row := by
  induction rows generalizing known with
  | nil => cases member
  | cons head tail induction =>
      rw [newRows]
      split
      · rename_i present
        rcases List.mem_cons.mp member with rfl | tailMember
        · exact .inl (known_any_iff.mp present)
        · exact induction tailMember
      · rcases List.mem_cons.mp member with rfl | tailMember
        · exact .inr (.of_mem List.mem_cons_self)
        · rcases @induction (head :: known) tailMember with old | new
          · obtain ⟨other, otherMember, alike⟩ := old
            rcases List.mem_cons.mp otherMember with rfl | knownMember
            · exact .inr ⟨other, List.mem_cons_self, alike⟩
            · exact .inl ⟨other, knownMember, alike⟩
          · exact .inr (new.mono (List.subset_cons_self _ _))

theorem not_listed_of_mem_newRows (member : row ∈ newRows known rows) :
    ¬ Listed known row := by
  induction rows generalizing known with
  | nil => simp [newRows] at member
  | cons head tail induction =>
      rw [newRows] at member
      split at member
      · exact induction member
      · rename_i absent
        rcases List.mem_cons.mp member with rfl | tailMember
        · intro listed
          exact absent (known_any_iff.mpr listed)
        · intro listed
          exact induction tailMember (listed.mono (List.subset_cons_self _ _))

theorem apart_newRows (known rows : List Value) :
    Apart (newRows known rows) := by
  induction rows generalizing known with
  | nil => simp [newRows, Apart]
  | cons head tail induction =>
      rw [newRows]
      split
      · exact induction known
      · refine List.pairwise_cons.mpr ⟨?_, induction (head :: known)⟩
        intro row member alike
        exact not_listed_of_mem_newRows member ⟨head, List.mem_cons_self, alike⟩

theorem apart_append_newRows (apart : Apart found) :
    Apart (found ++ newRows found rows) := by
  refine List.pairwise_append.mpr ⟨apart, apart_newRows found rows, ?_⟩
  intro left leftMember right rightMember alike
  exact not_listed_of_mem_newRows rightMember ⟨left, leftMember, alike⟩

/-- Rows that are pairwise different and all listed in a universe are not more
than the rows of the universe. -/
theorem length_le_of_apart {space : List Value} (apart : Apart rows)
    (inside : ∀ row ∈ rows, Listed space row) : rows.length ≤ space.length := by
  induction rows generalizing space with
  | nil => exact Nat.zero_le _
  | cons row rows induction =>
      obtain ⟨headApart, tailApart⟩ := List.pairwise_cons.mp apart
      obtain ⟨place, placeMember, placeAlike⟩ := inside row List.mem_cons_self
      obtain ⟨before, after, rfl⟩ := List.append_of_mem placeMember
      have tailInside : ∀ other ∈ rows, Listed (before ++ after) other := by
        intro other member
        obtain ⟨seat, seatMember, seatAlike⟩ :=
          inside other (List.mem_cons_of_mem _ member)
        rcases List.mem_append.mp seatMember with front | back
        · exact ⟨seat, List.mem_append_left _ front, seatAlike⟩
        · rcases List.mem_cons.mp back with rfl | behind
          · exact absurd (placeAlike.symm.trans seatAlike)
              (headApart other member)
          · exact ⟨seat, List.mem_append_right _ behind, seatAlike⟩
      have bound := induction tailApart tailInside
      simp only [List.length_append, List.length_cons] at bound ⊢
      omega

/-- A step of a fixpoint: the rows it gives for the number of its round, the
rows found so far and the last increment. -/
abbrev RowStep :=
  (round : Nat) → (found increment : List Value) → Outcome (List Value)

/-- A property that holds for the new rows if it holds for the old ones. -/
def RowStep.Keeps (step : RowStep) (holds : Value → Prop) : Prop :=
  ∀ round found increment rows, increment ⊆ found →
    (∀ row ∈ found, holds row) → step round found increment = .ok rows →
      ∀ row ∈ rows, holds row

/-- The rounds from a state on, with their number. -/
inductive Saturates (step : RowStep) :
    (count round : Nat) → (found increment result : List Value) → Prop where
  | done {round : Nat} {found : List Value} :
      Saturates step 0 round found [] found
  | next {count round : Nat} {found increment rows result : List Value} :
      increment ≠ [] →
      step round found increment = .ok rows →
      Saturates step count (round + 1) (found ++ newRows found rows)
        (newRows found rows) result →
      Saturates step (count + 1) round found increment result

theorem saturate_nil (step : RowStep) (rounds round : Nat)
    (found : List Value) : saturate step rounds round found [] = .ok found := by
  cases rounds <;> rfl

theorem saturate_eq_ok_iff {step : RowStep} {rounds round : Nat}
    {increment result : List Value} :
    saturate step rounds round found increment = .ok result ↔
      ∃ count ≤ rounds, Saturates step count round found increment result := by
  constructor
  · intro saturated
    induction rounds generalizing round found increment with
    | zero =>
        cases increment with
        | nil =>
            cases saturated
            exact ⟨0, Nat.le_refl 0, .done⟩
        | cons row rows => cases saturated
    | succ rounds induction =>
        cases increment with
        | nil =>
            cases saturated
            exact ⟨0, Nat.zero_le _, .done⟩
        | cons row increment =>
            rw [saturate] at saturated
            · cases stepped : step round found (row :: increment) with
              | error halt =>
                  rw [stepped] at saturated
                  cases saturated
              | ok rows =>
                  rw [stepped] at saturated
                  obtain ⟨count, bound, rest⟩ := induction saturated
                  exact ⟨count + 1, Nat.succ_le_succ bound,
                    .next (List.cons_ne_nil _ _) stepped rest⟩
            · exact List.cons_ne_nil _ _
  · rintro ⟨count, bound, run⟩
    induction run generalizing rounds with
    | done => exact saturate_nil step rounds _ _
    | @next count round found increment rows result nonempty stepped rest
        induction =>
        cases rounds with
        | zero => omega
        | succ rounds =>
            rw [saturate, stepped]
            · exact induction (Nat.le_of_succ_le_succ bound)
            · exact nonempty

/-- A round of a fixpoint: its increment is part of the rows found so far, to
which the first rows belong, and the rows of its step are found in the end. -/
structure RoundOf (step : RowStep) (first result : List Value)
    (round : Nat) (found increment rows : List Value) : Prop where
  stepped : step round found increment = .ok rows
  increment_subset : increment ⊆ found
  first_subset : first ⊆ found
  found_subset : found ⊆ result
  rows_listed : ∀ row ∈ rows, Listed result row

namespace Saturates

variable {step : RowStep} {count round : Nat}
  {found increment result : List Value}

theorem found_prefix (run : Saturates step count round found increment result) :
    found <+: result := by
  induction run with
  | done => exact List.prefix_rfl
  | next _ _ _ induction => exact (List.prefix_append _ _).trans induction

theorem found_subset (run : Saturates step count round found increment result) :
    found ⊆ result :=
  run.found_prefix.subset

/-- The rows that a step gives are found in the end. -/
theorem rows_listed
    (rest : Saturates step count round (found ++ newRows found rows) increment
      result) :
    ∀ row ∈ rows, Listed result row := by
  intro row member
  have grown := rest.found_subset
  rcases listed_newRows member with old | added
  · exact old.mono (List.Subset.trans (List.subset_append_left _ _) grown)
  · exact added.mono (List.Subset.trans (List.subset_append_right _ _) grown)

theorem apart (run : Saturates step count round found increment result)
    (foundApart : Apart found) : Apart result := by
  induction run with
  | done => exact foundApart
  | next _ _ _ induction => exact induction (apart_append_newRows foundApart)

/-- A property that every step keeps holds for all rows in the end. -/
theorem forall_mem (run : Saturates step count round found increment result)
    (holds : Value → Prop)
    (kept : RowStep.Keeps step holds)
    (included : increment ⊆ found) (foundHolds : ∀ row ∈ found, holds row) :
    ∀ row ∈ result, holds row := by
  induction run with
  | done => exact foundHolds
  | @next _ round found increment rows _ _ stepped _ induction =>
      have rowsHold :=
        kept round found increment rows included foundHolds stepped
      refine induction (List.subset_append_right _ _) ?_
      intro row member
      rcases List.mem_append.mp member with old | new
      · exact foundHolds row old
      · exact rowsHold row (newRows_subset found rows new)

/-- Every row that is not known from the beginning, and every row of the first
increment, stands in the increment of a round. -/
theorem exists_round (run : Saturates step count round found increment result)
    {first : List Value} (firstSubset : first ⊆ found)
    (included : increment ⊆ found) (member : row ∈ result)
    (fresh : row ∈ found → row ∈ increment) :
    ∃ round found increment rows,
      RoundOf step first result round found increment rows ∧
      row ∈ increment := by
  induction run with
  | done => exact absurd (fresh member) List.not_mem_nil
  | @next _ round found increment rows result nonempty stepped rest induction =>
      by_cases here : row ∈ increment
      · refine ⟨round, found, increment, rows, ?_, here⟩
        exact ⟨stepped, included, firstSubset,
          List.Subset.trans (List.subset_append_left _ _) rest.found_subset,
          rest.rows_listed⟩
      · refine induction
          (List.Subset.trans firstSubset (List.subset_append_left _ _))
          (List.subset_append_right _ _) member ?_
        intro grownMember
        rcases List.mem_append.mp grownMember with old | new
        · exact absurd (fresh old) here
        · exact new

end Saturates

/-- A step that stays inside a finite universe comes to an end, because each
round but the last adds a row; or it fails in a round. -/
theorem saturate_cases {step : RowStep} {space : List Value}
    {holds : Value → Prop} (inside : ∀ row, holds row → Listed space row)
    (kept : RowStep.Keeps step holds)
    {rounds round : Nat} {increment : List Value} (included : increment ⊆ found)
    (apart : Apart found) (foundHolds : ∀ row ∈ found, holds row)
    (enough : space.length < found.length + rounds) :
    (∃ result, saturate step rounds round found increment = .ok result) ∨
      ∃ last others new halt, new ⊆ others ∧ (∀ row ∈ others, holds row) ∧
        step last others new = .error halt ∧
        saturate step rounds round found increment = .error halt := by
  induction rounds generalizing round found increment with
  | zero =>
      have bound := length_le_of_apart apart fun row member =>
        inside row (foundHolds row member)
      omega
  | succ rounds induction =>
      by_cases empty : increment = []
      · subst empty
        exact .inl ⟨found, rfl⟩
      cases stepped : step round found increment with
      | error halt =>
          refine .inr
            ⟨round, found, increment, halt, included, foundHolds, stepped, ?_⟩
          rw [saturate, stepped]
          · rfl
          · exact empty
      | ok rows =>
          have unfolded : saturate step (rounds + 1) round found increment =
              saturate step rounds (round + 1) (found ++ newRows found rows)
                (newRows found rows) := by
            rw [saturate, stepped]
            · rfl
            · exact empty
          rw [unfolded]
          by_cases last : newRows found rows = []
          · rw [last]
            exact .inl ⟨_, saturate_nil step rounds (round + 1) _⟩
          · have grows : 0 < (newRows found rows).length :=
              List.length_pos_of_ne_nil last
            refine induction (List.subset_append_right _ _)
              (apart_append_newRows apart) ?_ ?_
            · intro row member
              rcases List.mem_append.mp member with old | new
              · exact foundHolds row old
              · exact kept round found increment rows included foundHolds
                  stepped row (newRows_subset found rows new)
            · rw [List.length_append]
              omega

section Fixpoint

variable {step : RowStep} {rounds : Nat} {base result : List Value}
variable {space : List Value}

theorem exists_saturates_of_fixpoint
    (reached : fixpoint step rounds base = .ok result) :
    ∃ count ≤ rounds,
      Saturates step count 0 (newRows [] base) (newRows [] base) result :=
  saturate_eq_ok_iff.mp reached

theorem fixpoint_apart (reached : fixpoint step rounds base = .ok result) :
    Apart result := by
  obtain ⟨_, _, run⟩ := exists_saturates_of_fixpoint reached
  exact run.apart (apart_newRows [] base)

theorem listed_base (row : Value) (member : row ∈ base) :
    Listed (newRows [] base) row := by
  rcases listed_newRows member with known | new
  · obtain ⟨_, knownMember, _⟩ := known
    exact absurd knownMember List.not_mem_nil
  · exact new

/-- The base rows are among the rows of a fixpoint. -/
theorem fixpoint_listed_base
    (reached : fixpoint step rounds base = .ok result) :
    ∀ row ∈ base, Listed result row := by
  obtain ⟨_, _, run⟩ := exists_saturates_of_fixpoint reached
  intro row member
  exact (listed_base row member).mono run.found_subset

/-- A property of the base rows that every step keeps holds for all rows of a
fixpoint. -/
theorem fixpoint_forall_mem (reached : fixpoint step rounds base = .ok result)
    (holds : Value → Prop)
    (kept : RowStep.Keeps step holds)
    (baseHolds : ∀ row ∈ base, holds row) :
    ∀ row ∈ result, holds row := by
  obtain ⟨_, _, run⟩ := exists_saturates_of_fixpoint reached
  refine run.forall_mem holds kept (List.Subset.refl _) ?_
  intro row member
  exact baseHolds row (newRows_subset [] base member)

/-- Every row of a fixpoint stands in the increment of a round. -/
theorem fixpoint_exists_round (reached : fixpoint step rounds base = .ok result)
    (member : row ∈ result) :
    ∃ round found increment rows,
      RoundOf step (newRows [] base) result round found increment rows ∧
        row ∈ increment := by
  obtain ⟨_, _, run⟩ := exists_saturates_of_fixpoint reached
  exact run.exists_round (List.Subset.refl _) (List.Subset.refl _) member id

/-- Inside a finite universe the fixpoint is reached, or a step fails. -/
theorem fixpoint_cases {holds : Value → Prop}
    (inside : ∀ row, holds row → Listed space row)
    (kept : RowStep.Keeps step holds)
    (baseHolds : ∀ row ∈ base, holds row) (enough : space.length < rounds) :
    (∃ result, fixpoint step rounds base = .ok result) ∨
      ∃ last others new halt, new ⊆ others ∧ (∀ row ∈ others, holds row) ∧
        step last others new = .error halt ∧
        fixpoint step rounds base = .error halt := by
  refine saturate_cases inside kept (List.Subset.refl _)
    (apart_newRows [] base) ?_ ?_
  · intro row member
    exact baseHolds row (newRows_subset [] base member)
  · omega

theorem exists_fixpoint_eq_ok
    (closed : ∀ round found increment, increment ⊆ found →
      (∀ row ∈ found, Listed space row) →
        ∃ rows, step round found increment = .ok rows ∧
        ∀ row ∈ rows, Listed space row)
    (baseInside : ∀ row ∈ base, Listed space row)
    (enough : space.length < rounds) :
    ∃ result, fixpoint step rounds base = .ok result := by
  have kept : RowStep.Keeps step (Listed space) := by
    intro round found increment rows included inside stepped
    obtain ⟨others, isStepped, areInside⟩ :=
      closed round found increment included inside
    cases stepped.symm.trans isStepped
    exact areInside
  rcases fixpoint_cases (fun _ listed => listed) kept baseInside enough with
    reached | ⟨round, found, increment, halt, included, inside, failed, _⟩
  · exact reached
  · obtain ⟨rows, stepped, _⟩ := closed round found increment included inside
    cases stepped.symm.trans failed

/-- A step that goes on to a row which is new in each round runs out of
rounds. -/
theorem fixpoint_outOfRounds {row : Nat → Value}
    (different : ∀ depth other, depth ≠ other → ¬ (row depth).Alike (row other))
    (stepped : ∀ round found depth, step round found [row depth] =
      .ok [row (depth + 1)])
    (rounds : Nat) : fixpoint step rounds [row 0] = .error .outOfRounds := by
  have goesOn (round depth : Nat) :
      saturate step rounds round ((List.range (depth + 1)).map row)
        [row depth] = .error .outOfRounds := by
    induction rounds generalizing round depth with
    | zero => rfl
    | succ rounds induction =>
        have isNew :
          newRows ((List.range (depth + 1)).map row) [row (depth + 1)] =
            [row (depth + 1)] := by
          rw [newRows, if_neg]
          · rfl
          · rw [known_any_iff]
            rintro ⟨_, member, alike⟩
            obtain ⟨other, isOther, rfl⟩ := List.mem_map.mp member
            have before := List.mem_range.mp isOther
            exact different other (depth + 1) (by omega) alike
        have later := induction (round + 1) (depth + 1)
        rw [List.range_succ, List.map_append] at later
        rw [saturate, stepped]
        · change saturate step rounds (round + 1) (_ ++ newRows _ _)
            (newRows _ _) = _
          rw [isNew]
          exact later
        · exact List.cons_ne_nil _ _
  exact goesOn 0 0

end Fixpoint

end RecursiveQuery
