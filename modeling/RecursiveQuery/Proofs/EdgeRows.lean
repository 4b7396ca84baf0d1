import RecursiveQuery.Proofs.Comprehension
import RecursiveQuery.Proofs.Fixpoint
import RecursiveQuery.Proofs.PathPredicate

/-!
# Rows of integer pairs

A pair of integers equals only itself, so rows of such pairs are compared by
membership, and joining two of them composes the relations.
-/

namespace RecursiveQuery

namespace Edge

variable {edge other : Edge} {rows : List Value} {row : Value}

theorem value_injective : Function.Injective value := by
  rintro ⟨start, target⟩ ⟨otherStart, otherTarget⟩ equality
  simpa [value] using equality

theorem alike_value_iff : edge.value.Alike row ↔ row = edge.value := by
  obtain ⟨start, target⟩ := edge
  have component : ∀ (number : Int64) (other : Value),
      Value.same (.int number) other = true ↔ other = .int number := by
    intro number other
    cases other with
    | int value =>
        simp only [Value.same, beq_iff_eq, Value.int.injEq]
        exact eq_comm
    | _ => simp [Value.same]
  constructor
  · intro alike
    rcases row with _ | _ | _ | _ | items | _ | _ | _ | _ <;> try cases alike
    rcases items with _ | ⟨first, _ | ⟨second, _ | ⟨third, rest⟩⟩⟩ <;>
      simp [value, Value.Alike, Value.same, Value.sameList, component] at alike
    obtain ⟨rfl, rfl⟩ := alike
    rfl
  · rintro rfl
    exact .refl _

theorem listed_value_iff : Listed rows edge.value ↔ edge.value ∈ rows := by
  constructor
  · rintro ⟨found, member, alike⟩
    rw [alike_value_iff.mp alike.symm] at member
    exact member
  · exact Listed.of_mem

/-- All of some rows are pairs of integers. -/
def Rows (rows : List Value) : Prop :=
  ∀ row ∈ rows, ∃ edge : Edge, row = edge.value

theorem rows_map (edges : List Edge) : Rows (edges.map value) := by
  intro row member
  obtain ⟨edge, _, rfl⟩ := List.mem_map.mp member
  exact ⟨edge, rfl⟩

theorem Rows.exists_eq_map (edges : Rows rows) :
    ∃ edges : List Edge, rows = edges.map value := by
  induction rows with
  | nil => exact ⟨[], rfl⟩
  | cons row rows induction =>
      obtain ⟨edge, rfl⟩ := edges row List.mem_cons_self
      obtain ⟨rest, rfl⟩ := induction fun other member =>
        edges other (List.mem_cons_of_mem _ member)
      exact ⟨edge :: rest, rfl⟩

theorem nodup_of_apart {edges : List Edge} (apart : Apart (edges.map value)) :
    edges.Nodup := by
  rw [Apart, List.pairwise_map] at apart
  refine apart.imp ?_
  rintro left right different rfl
  exact different (.refl _)

/-- Joining pairs of integers composes them. -/
theorem join_iff {left right : List Value} {test : Value → Value → Bool}
    (leftEdges : Rows left) (rightEdges : Rows right)
    (tests : ∀ joint copy, test (.int joint) (.int copy) = true ↔
      joint = copy) :
    (∃ start joint copy target, .tuple [start, joint] ∈ left ∧
      .tuple [copy, target] ∈ right ∧
      test joint copy = true ∧ row = .tuple [start, target]) ↔
    ∃ start joint target, value (start, joint) ∈ left ∧
      value (joint, target) ∈ right ∧ row = value (start, target) := by
  constructor
  · rintro ⟨start, joint, copy, target, leftMember, rightMember, tested, rfl⟩
    obtain ⟨⟨leftStart, leftEnd⟩, leftEq⟩ := leftEdges _ leftMember
    obtain ⟨⟨rightStart, rightEnd⟩, rightEq⟩ := rightEdges _ rightMember
    cases leftEq
    cases rightEq
    cases (tests leftEnd rightStart).mp tested
    exact ⟨leftStart, leftEnd, rightEnd, leftMember, rightMember, rfl⟩
  · rintro ⟨start, joint, target, leftMember, rightMember, rfl⟩
    exact ⟨_, _, _, _, leftMember, rightMember,
      (tests joint joint).mpr rfl, rfl⟩

section Literals

variable {session : Session} {call : Caller} {env : Env}

theorem evalList_literals (edges : List Edge) (site : Site) :
    Expr.evalList session call env site (edges.map literal) =
      .ok (edges.map value) := by
  induction edges generalizing site with
  | nil => rfl
  | cons edge edges induction =>
      have head : Expr.eval session call env (0 :: site) edge.literal =
        .ok edge.value := rfl
      rw [List.map_cons, Expr.evalList, head, Outcome.ok_bind, induction]
      rfl

theorem eval_literals (edges : List Edge) (site : Site) :
    Expr.eval session call env site (literals edges) =
      .ok (relation edges) := by
  rw [literals, Expr.eval, evalList_literals]
  rfl

end Literals

end Edge

end RecursiveQuery
