import RecursiveQuery.Proofs.Fixpoint

/-!
# Related outcomes

Two evaluations run side by side as long as their values are related.  What one
of them is stopped by stops both or is a cut-off, after which the other may go
on as it likes.
-/

namespace RecursiveQuery

/-- How the outcome of an evaluation is related to that of another one: related
values, errors of both, which are the same if they have to be, or a cut-off,
where only the other one goes on. -/
inductive Outcome.Follows (cut : Halt → Prop) (strict : Prop) {α β : Type}
    (related : α → β → Prop) : Outcome α → Outcome β → Prop where
  | ok {value : α} {other : β} : related value other →
      Follows cut strict related (.ok value) (.ok other)
  | error {halt other : Halt} : (strict → halt = other) →
      Follows cut strict related (.error halt) (.error other)
  | cutOff {halt : Halt} {other : Outcome β} : cut halt →
      Follows cut strict related (.error halt) other

/-- The second evaluation goes on where the first is cut off, and stops with the
same error elsewhere. -/
abbrev Outcome.Persists (cut : Halt → Prop) {α β : Type}
    (related : α → β → Prop) : Outcome α → Outcome β → Prop :=
  Follows cut True related

/-- Both outcomes are values and related, or neither is a value. -/
abbrev Outcome.Agree {α β : Type} (related : α → β → Prop) :
    Outcome α → Outcome β → Prop :=
  Follows (fun _ => False) False related

namespace Outcome

variable {cut : Halt → Prop} {strict : Prop} {α β γ δ : Type}
  {related : α → β → Prop} {next : γ → δ → Prop}

namespace Follows

theorem refl (outcome : Outcome α) : Follows cut strict Eq outcome outcome := by
  cases outcome with
  | error halt => exact .error fun _ => rfl
  | ok value => exact .ok rfl

theorem halted {halt other : Halt} :
    Follows cut False related (.error halt) (.error other) :=
  .error False.elim

theorem bind {outcome : Outcome α} {other : Outcome β} {step : α → Outcome γ}
    {otherStep : β → Outcome δ}
    (first : Follows cut strict related outcome other)
    (rest : ∀ left right, related left right →
      Follows cut strict next (step left) (otherStep right)) :
    Follows cut strict next (outcome >>= step) (other >>= otherStep) := by
  cases first with
  | ok pair => exact rest _ _ pair
  | error both => exact .error both
  | cutOff isCut => exact .cutOff isCut

/-- The form of `bind` in which the first results are the same. -/
theorem andThen {outcome other : Outcome α} {step : α → Outcome γ}
    {otherStep : α → Outcome δ} (first : Follows cut strict Eq outcome other)
    (rest : ∀ value, Follows cut strict next (step value) (otherStep value)) :
    Follows cut strict next (outcome >>= step) (other >>= otherStep) := by
  refine first.bind ?_
  rintro value _ rfl
  exact rest value

theorem mapM {run : α → Outcome γ} {otherRun : β → Outcome δ} {items : List α}
    {others : List β} (pairs : List.Forall₂ related items others)
    (each : ∀ item other, related item other →
      Follows cut strict next (run item) (otherRun other)) :
    Follows cut strict (List.Forall₂ next) (items.mapM run)
      (others.mapM otherRun) := by
  induction pairs with
  | nil => exact .ok .nil
  | cons pair _ induction =>
      rw [List.mapM_cons, List.mapM_cons]
      refine (each _ _ pair).bind fun _ _ first => ?_
      refine induction.bind fun _ _ rest => ?_
      exact .ok (.cons first rest)

theorem anyM {run : α → Outcome Bool} {otherRun : β → Outcome Bool}
    {items : List α} {others : List β}
    (pairs : List.Forall₂ related items others)
    (each : ∀ item other, related item other →
      Follows cut strict Eq (run item) (otherRun other)) :
    Follows cut strict Eq (items.anyM run) (others.anyM otherRun) := by
  induction pairs with
  | nil => exact .ok rfl
  | cons pair _ induction =>
      rw [List.anyM_cons, List.anyM_cons]
      refine (each _ _ pair).andThen fun found => ?_
      cases found with
      | true => exact .ok rfl
      | false => exact induction

end Follows

namespace Persists

theorem mapM_same {narrow wide : α → Outcome β} (items : List α)
    (each : ∀ item, Persists cut Eq (narrow item) (wide item)) :
    Persists cut Eq (items.mapM narrow) (items.mapM wide) := by
  rw [← List.forall₂_eq_eq_eq]
  refine Follows.mapM (List.forall₂_same.mpr fun _ _ => rfl) ?_
  rintro item _ rfl
  exact each item

theorem anyM_same {narrow wide : α → Outcome Bool} (items : List α)
    (each : ∀ item, Persists cut Eq (narrow item) (wide item)) :
    Persists cut Eq (items.anyM narrow) (items.anyM wide) := by
  refine Follows.anyM (List.forall₂_same.mpr fun _ _ => rfl) ?_
  rintro item _ rfl
  exact each item

/-- What is no cut-off is the outcome under wide limits too. -/
theorem eq_of_not_cut {narrow wide : Outcome α}
    (persists : Persists cut Eq narrow wide)
    (kept : ∀ halt, cut halt → narrow ≠ .error halt) : wide = narrow := by
  cases persists with
  | ok same => rw [same]
  | error same => rw [same trivial]
  | cutOff isCut => exact absurd rfl (kept _ isCut)

end Persists

namespace Agree

theorem exists_ok {right : Outcome β} {value : α}
    (agree : Agree related (.ok value) right) :
    ∃ other, right = .ok other ∧ related value other := by
  cases agree with
  | ok pair => exact ⟨_, rfl, pair⟩

theorem exists_ok_left {left : Outcome α} {value : β}
    (agree : Agree related left (.ok value)) :
    ∃ other, left = .ok other ∧ related other value := by
  cases agree with
  | ok pair => exact ⟨_, rfl, pair⟩
  | cutOff isCut => exact isCut.elim

end Agree

end Outcome

open Outcome (Follows)

/-- Related values are equal to the same related values. -/
def KeepsEquality (related : Value → Value → Prop) : Prop :=
  ∀ ⦃left left' right right' : Value⦄, related left left' →
    related right right' → left.same right = left'.same right'

section Rounds

variable {cut : Halt → Prop} {strict : Prop} {related : Value → Value → Prop}
  {narrow wide : RowStep} {rounds more : Nat}
  {found found' increment increment' base base' : List Value}

theorem KeepsEquality.any_same (keeps : KeepsEquality related)
    {row row' : Value} (known : List.Forall₂ related found found')
    (pair : related row row') : (found.any fun other => other.same row) =
    found'.any fun other => other.same row' := by
  induction known with
  | nil => rfl
  | cons first _ induction =>
      rw [List.any_cons, List.any_cons, keeps first pair, induction]

theorem KeepsEquality.newRows (keeps : KeepsEquality related)
    {rows rows' : List Value} (known : List.Forall₂ related found found')
    (pairs : List.Forall₂ related rows rows') :
    List.Forall₂ related (newRows found rows) (newRows found' rows') := by
  induction pairs generalizing found found' with
  | nil => exact .nil
  | cons pair _ induction =>
      rw [RecursiveQuery.newRows, RecursiveQuery.newRows,
        keeps.any_same known pair]
      split
      · exact induction known
      · exact .cons pair (induction (.cons pair known))

/-- Steps go on side by side from related rows. -/
def RowStep.Follows (cut : Halt → Prop) (strict : Prop)
    (related : Value → Value → Prop) (narrow wide : RowStep) : Prop :=
  ∀ round {found found' increment increment'},
    List.Forall₂ related found found' →
    List.Forall₂ related increment increment' →
    Outcome.Follows cut strict (List.Forall₂ related)
      (narrow round found increment) (wide round found' increment')

/-- Rounds go on side by side if their steps do. -/
theorem saturate_follows (keeps : KeepsEquality related)
    (ends : rounds ≤ more ∧ cut .outOfRounds ∨ rounds = more)
    (steps : RowStep.Follows cut strict related narrow wide)
    (round : Nat) (foundPairs : List.Forall₂ related found found')
    (newPairs : List.Forall₂ related increment increment') :
    Follows cut strict (List.Forall₂ related)
      (saturate narrow rounds round found increment)
      (saturate wide more round found' increment') := by
  induction rounds generalizing more round found found' increment
    increment' with
  | zero =>
      cases newPairs with
      | nil =>
          rw [saturate_nil, saturate_nil]
          exact .ok foundPairs
      | cons _ _ =>
          rcases ends with ⟨-, isCut⟩ | rfl
          · exact .cutOff isCut
          · exact .error fun _ => rfl
  | succ rounds induction =>
      cases newPairs with
      | nil =>
          rw [saturate_nil, saturate_nil]
          exact .ok foundPairs
      | cons pair pairs =>
          obtain ⟨more, rfl⟩ : ∃ fewer, more = fewer + 1 :=
            ⟨more - 1, by omega⟩
          rw [Nat.add_le_add_iff_right, Nat.add_right_cancel_iff] at ends
          rw [saturate, saturate]
          · refine (steps round foundPairs (.cons pair pairs)).bind
              fun rows rows' rowPairs => ?_
            have next := keeps.newRows foundPairs rowPairs
            exact induction ends _ (List.rel_append foundPairs next) next
          · exact List.cons_ne_nil _ _
          · exact List.cons_ne_nil _ _

theorem fixpoint_follows (keeps : KeepsEquality related)
    (ends : rounds ≤ more ∧ cut .outOfRounds ∨ rounds = more)
    (steps : RowStep.Follows cut strict related narrow wide)
    (pairs : List.Forall₂ related base base') :
    Follows cut strict (List.Forall₂ related) (fixpoint narrow rounds base)
      (fixpoint wide more base') :=
  have start := keeps.newRows .nil pairs
  saturate_follows keeps ends steps 0 start start

end Rounds

end RecursiveQuery
