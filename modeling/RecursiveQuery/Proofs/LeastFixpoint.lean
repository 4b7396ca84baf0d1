import Mathlib.Order.Bounds.Basic
import RecursiveQuery.Proofs.Comprehension
import RecursiveQuery.Proofs.Fixpoint

/-!
# Least fixpoints

`iterate` removes repetitions from its base, keeps every row that a round gives
and no equal rows.  A step whose rows follow one by one from the rows of the
increment needs to see each row in one increment only, so the rows in the end
are the least set that has the base and whatever follows.  Rows are compared by
the equality of values throughout.
-/

namespace RecursiveQuery

/-- The accumulator of the library function holds the rows that are known. -/
theorem eraseDupsBy_loop_eq (rows known : List Value) :
    List.eraseDupsBy.loop Value.same rows known =
      known.reverse ++ newRows known rows := by
  induction rows generalizing known with
  | nil => simp [List.eraseDupsBy.loop, newRows]
  | cons row rows induction =>
      have swapped : (known.any fun other => row.same other) =
          known.any fun other => other.same row := by
        rw [Bool.eq_iff_iff, List.any_eq_true, List.any_eq_true]
        constructor
        · rintro ⟨other, member, alike⟩
          exact ⟨other, member, Value.Alike.symm alike⟩
        · rintro ⟨other, member, alike⟩
          exact ⟨other, member, Value.Alike.symm alike⟩
      rw [List.eraseDupsBy.loop, newRows, swapped]
      cases present : known.any fun other => other.same row with
      | true => simpa using induction known
      | false => simpa using induction (row :: known)

theorem newRows_nil_eq_eraseDupsBy (rows : List Value) :
    newRows [] rows = rows.eraseDupsBy Value.same := by
  rw [List.eraseDupsBy, eraseDupsBy_loop_eq, List.reverse_nil, List.nil_append]

/-- The states in which the rounds of a fixpoint begin: the rows found so far
and the last increment. -/
inductive BeginsRound (step : RowStep) (base : List Value) :
    (round : Nat) → (found increment : List Value) → Prop where
  | first : BeginsRound step base 0 (newRows [] base) (newRows [] base)
  | next {round : Nat} {found increment rows : List Value} :
      BeginsRound step base round found increment →
      increment ≠ [] →
      step round found increment = .ok rows →
      BeginsRound step base (round + 1) (found ++ newRows found rows)
        (newRows found rows)

namespace BeginsRound

variable {step : RowStep} {base found increment result : List Value}
  {round rounds : Nat}

/-- From every round on, the rounds lead to the rows in the end. -/
theorem exists_saturates (begins : BeginsRound step base round found increment)
    (reached : fixpoint step rounds base = .ok result) :
    ∃ count, Saturates step count round found increment result := by
  induction begins with
  | first =>
      obtain ⟨count, _, run⟩ := exists_saturates_of_fixpoint reached
      exact ⟨count, run⟩
  | next _ nonempty stepped induction =>
      obtain ⟨count, run⟩ := induction
      cases run with
      | done => exact absurd rfl nonempty
      | next _ sameStepped rest =>
          cases stepped.symm.trans sameStepped
          exact ⟨_, rest⟩

/-- A round whose increment has rows makes its step, and what the step gives is
found in the end. -/
theorem exists_rows_listed
    (begins : BeginsRound step base round found increment)
    (nonempty : increment ≠ [])
    (reached : fixpoint step rounds base = .ok result) :
    ∃ rows, step round found increment = .ok rows ∧
      ∀ row ∈ rows, Listed result row := by
  obtain ⟨count, run⟩ := begins.exists_saturates reached
  cases run with
  | done => exact absurd rfl nonempty
  | next _ stepped rest => exact ⟨_, stepped, rest.rows_listed⟩

end BeginsRound

/-- A set of rows that has the base, with each row what follows from it, and
equal rows together. -/
structure ClosedUnder (follows : Value → Value → Prop) (base : List Value)
    (rows : Set Value) : Prop where
  base_mem : ∀ row ∈ base, row ∈ rows
  follows_mem : ∀ row ∈ rows, ∀ next, follows row next → next ∈ rows
  alike_mem : ∀ row ∈ rows, ∀ other, row.Alike other → other ∈ rows

/-- A step gives the rows that follow from the rows of its increment, up to
equality; the same follows from equal rows. -/
structure RowStep.Distributes (step : RowStep)
    (follows : Value → Value → Prop) : Prop where
  congr : ∀ row other next, row.Alike other → follows row next →
    ∃ same, follows other same ∧ same.Alike next
  rows_iff : ∀ round found increment rows, step round found increment =
    .ok rows → ∀ next, Listed rows next ↔
      ∃ row ∈ increment, ∃ given, follows row given ∧ given.Alike next

/-- Every row of a fixpoint was expanded in the round whose increment it stands
in, so that the fixpoint is closed; and no round leaves a closed set. -/
theorem fixpoint_isLeast {step : RowStep} {follows : Value → Value → Prop}
    {rounds : Nat} {base result : List Value}
    (distributes : step.Distributes follows)
    (reached : fixpoint step rounds base = .ok result) :
    IsLeast {rows | ClosedUnder follows base rows}
      {row | Listed result row} := by
  constructor
  · refine ⟨fixpoint_listed_base reached, ?_, ?_⟩
    · rintro row ⟨found, member, alike⟩ next derived
      obtain ⟨same, sameDerived, sameAlike⟩ :=
        distributes.congr row found next alike.symm derived
      obtain ⟨round, earlier, increment, rows, isRound, expanded⟩ :=
        fixpoint_exists_round reached member
      obtain ⟨given, givenMember, givenAlike⟩ : Listed rows next :=
        (distributes.rows_iff _ _ _ _ isRound.stepped next).mpr
          ⟨found, expanded, same, sameDerived, sameAlike⟩
      exact (isRound.rows_listed given givenMember).congr givenAlike
    · intro row listed other alike
      exact Listed.congr listed alike
  · rintro rows closed row ⟨found, member, alike⟩
    refine closed.alike_mem found ?_ row alike
    refine fixpoint_forall_mem reached (· ∈ rows) ?_ closed.base_mem
      found member
    intro round earlier increment given included earlierMem stepped next
      nextMember
    obtain ⟨origin, originMember, same, derived, sameAlike⟩ :=
      (distributes.rows_iff _ _ _ _ stepped next).mp (.of_mem nextMember)
    have originMem : origin ∈ rows := earlierMem origin (included originMember)
    exact closed.alike_mem same
      (closed.follows_mem origin originMem same derived) next sameAlike

namespace Value

/-- The rows that a step function gives in a round of `iterate`. -/
def rowStep (step : Site → Value → Outcome Value) (kind : CollectionKind)
    (site : Site) : RowStep := fun round found increment => do
  match ← step (round :: site)
    (tuple [collection kind found, collection kind increment]) with
  | collection _ rows => return rows
  | other => .mismatch .collection other

variable {step : Site → Value → Outcome Value} {kind : CollectionKind}
  {site : Site}

theorem rowStep_eq_ok_iff {round : Nat} {found increment rows : List Value} :
    rowStep step kind site round found increment = .ok rows ↔
      ∃ given, step (round :: site)
        (tuple [collection kind found, collection kind increment]) =
          .ok (collection given rows) := by
  rw [rowStep, Outcome.bind_eq_ok_iff]
  constructor
  · rintro ⟨value, stepped, matched⟩
    cases value with
    | collection given others =>
        cases matched
        exact ⟨given, stepped⟩
    | _ => cases matched
  · rintro ⟨given, stepped⟩
    exact ⟨collection given rows, stepped, rfl⟩

theorem iterate_collection (rounds : Nat) (base : List Value) :
    iterate rounds step kind (collection kind base) site =
      (fixpoint (rowStep step kind site) rounds base >>= fun rows =>
        return collection kind rows) := by
  rw [iterate, if_pos rfl]
  rfl

theorem iterate_eq_ok_iff {rounds : Nat} {base : List Value} {value : Value} :
    iterate rounds step kind (collection kind base) site = .ok value ↔
      ∃ rows, fixpoint (rowStep step kind site) rounds base = .ok rows ∧
        collection kind rows = value := by
  simp only [iterate_collection, Outcome.bind_eq_ok_iff, Outcome.pure_eq_ok_iff]

/-- `iterate` returns the base rows and all rows of all rounds, each once; for a
step that works row by row this is the least closed set; and inside a finite
universe it returns. -/
theorem iterate_computes_least_fixpoint (step : Site → Value → Outcome Value)
    (kind : CollectionKind) (base : List Value) (site : Site) :
    (∀ rounds value, iterate rounds step kind (collection kind base) site =
      .ok value → ∃ rows, value = collection kind rows ∧ Apart rows ∧
        base.eraseDupsBy same <+: rows ∧
        (∀ round found increment,
          BeginsRound (rowStep step kind site) base round found increment →
          increment ≠ [] →
            ∃ given givenRows, step (round :: site)
                (tuple [collection kind found, collection kind increment]) =
                  .ok (collection given givenRows) ∧
              ∀ row ∈ givenRows, Listed rows row) ∧
        ∀ follows, (rowStep step kind site).Distributes follows →
          IsLeast {set | ClosedUnder follows base set}
            {row | Listed rows row}) ∧
    ∀ space : List Value, (∀ row ∈ base, Listed space row) →
      (∀ site found increment, (∀ row ∈ found ++ increment, Listed space row) →
        ∃ given rows,
        step site (tuple [collection kind found, collection kind increment]) =
          .ok (collection given rows) ∧ ∀ row ∈ rows, Listed space row) →
      ∀ rounds, space.length + 1 ≤ rounds →
        ∃ rows, iterate rounds step kind (collection kind base) site =
          .ok (collection kind rows) := by
  constructor
  · intro rounds value returned
    obtain ⟨rows, reached, rfl⟩ := iterate_eq_ok_iff.mp returned
    refine ⟨rows, rfl, fixpoint_apart reached, ?_, ?_, ?_⟩
    · obtain ⟨_, _, run⟩ := exists_saturates_of_fixpoint reached
      rw [← newRows_nil_eq_eraseDupsBy]
      exact run.found_prefix
    · intro round found increment begins nonempty
      obtain ⟨givenRows, stepped, listed⟩ :=
        begins.exists_rows_listed nonempty reached
      obtain ⟨given, returned⟩ := rowStep_eq_ok_iff.mp stepped
      exact ⟨given, givenRows, returned, listed⟩
    · intro follows distributes
      exact fixpoint_isLeast distributes reached
  · intro space baseInside inside rounds enough
    have closed : ∀ round found increment, increment ⊆ found →
        (∀ row ∈ found, Listed space row) →
          ∃ rows, rowStep step kind site round found increment = .ok rows ∧
            ∀ row ∈ rows, Listed space row := by
      intro round found increment included foundInside
      obtain ⟨given, rows, stepped, rowsInside⟩ :=
        inside (round :: site) found increment (by
        intro row member
        rcases List.mem_append.mp member with old | new
        · exact foundInside row old
        · exact foundInside row (included new))
      exact ⟨rows, rowStep_eq_ok_iff.mpr ⟨given, stepped⟩, rowsInside⟩
    obtain ⟨rows, reached⟩ := exists_fixpoint_eq_ok closed baseInside enough
    exact ⟨rows, iterate_eq_ok_iff.mpr ⟨rows, reached, rfl⟩⟩

/-- The number above a number, up to three. -/
def above : Value → List Value
  | int number => if number < 3 then [int (number + 1)] else []
  | _ => []

def climb (_ : Site) : Value → Outcome Value
  | tuple [_, collection kind rows] =>
      return collection kind (rows.flatMap above)
  | other => .mismatch .collection other

theorem above_congr {row other : Value} (alike : row.Alike other) :
    above row = above other := by
  cases row <;> cases other <;> simp_all [Alike, same, above]

theorem climb_distributes (kind : CollectionKind) (site : Site) :
    (rowStep climb kind site).Distributes fun row next => next ∈ above row where
  congr := by
    intro row other next alike member
    rw [above_congr alike] at member
    exact ⟨next, member, .refl next⟩
  rows_iff := by
    intro round found increment rows stepped next
    cases stepped
    simp only [Listed, List.mem_flatMap]
    constructor
    · rintro ⟨given, ⟨row, member, follows⟩, alike⟩
      exact ⟨row, member, given, follows, alike⟩
    · rintro ⟨row, member, given, follows, alike⟩
      exact ⟨given, ⟨row, member, follows⟩, alike⟩

/-- Climbing from a repeated one: the universe has three numbers, and the bag of
them is the least closed set. -/
theorem iterate_computes_least_fixpoint_climb :
    let base := [int 1, int 1]
    let rows := [int 1, int 2, int 3]
    iterate 4 climb .bag (collection .bag base) [] =
      .ok (collection .bag rows) ∧ base.eraseDupsBy same <+: rows ∧
      IsLeast {set | ClosedUnder (fun row next => next ∈ above row) base set}
        {row | Listed rows row} ∧
      ∃ again, iterate 4 climb .bag (collection .bag base) [] =
        .ok (collection .bag again) := by
  intro base rows
  have evaluated : iterate 4 climb .bag (collection .bag base) [] =
      .ok (collection .bag rows) := by
    rfl
  obtain ⟨returns, ends⟩ := iterate_computes_least_fixpoint climb .bag base []
  obtain ⟨others, same, _, begins, _, least⟩ := returns 4 _ evaluated
  cases same
  refine ⟨evaluated, begins, least _ (climb_distributes .bag []), ?_⟩
  refine ends rows ?_ ?_ 4 (by decide)
  · intro row member
    refine .of_mem ?_
    simp_all [base, rows]
  · intro site found increment inside
    refine ⟨.bag, _, rfl, ?_⟩
    intro next member
    obtain ⟨row, rowMember, follows⟩ := List.mem_flatMap.mp member
    obtain ⟨known, knownMember, alike⟩ :=
      inside row (List.mem_append_right _ rowMember)
    rw [← above_congr alike] at follows
    refine .of_mem ?_
    simp only [rows, List.mem_cons, List.not_mem_nil, or_false] at knownMember ⊢
    rcases knownMember with rfl | rfl | rfl
    · exact .inr (.inl (List.mem_singleton.mp follows))
    · exact .inr (.inr (List.mem_singleton.mp follows))
    · cases follows

end Value

end RecursiveQuery
