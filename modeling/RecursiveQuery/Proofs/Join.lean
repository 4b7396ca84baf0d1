import RecursiveQuery.Inversion.Generator
import RecursiveQuery.Proofs.Comprehension

/-!
# Joins of relations of pairs

A comprehension over two relations of pairs that compares the inner components
and puts out the outer ones: its rows are the compositions of the two relations.
-/

namespace RecursiveQuery

variable {first : Name}

theorem Pattern.bind_pair_eq_some_iff {second : Name} {row : Value}
    {env inner : Env} :
    (Pattern.tuple [.var first, .var second]).bind row env = some inner ↔
      ∃ left right, row = .tuple [left, right] ∧
        inner = (second, right) :: (first, left) :: env := by
  constructor
  · intro binds
    cases row with
    | tuple items =>
        rcases items with _ | ⟨left, _ | ⟨right, _ | ⟨more, rest⟩⟩⟩
        · cases binds
        · cases binds
        · exact ⟨left, right, rfl, (Option.some.inj binds).symm⟩
        · cases binds
    | _ => cases binds
  · rintro ⟨left, right, rfl, rfl⟩
    rfl

namespace Session

variable {session : Session} {env : Env} {name other : Name} {value : Value}

theorem lookup_cons_self :
    session.lookup ((name, value) :: env) name = .ok value := by
  simp only [lookup, List.lookup_cons, beq_self_eq_true]
  rfl

theorem lookup_cons_ne (different : name ≠ other) :
    session.lookup ((other, value) :: env) name = session.lookup env name := by
  have unequal : (name == other) = false := by simpa using different
  simp only [lookup, List.lookup_cons, unequal]

end Session

namespace Expr

variable {session : Session} {call : Caller} {env : Env} {site : Site}

theorem eval_equals {left right : Expr} {leftValue rightValue : Value}
    (leftEval : eval session call env (0 :: site) left = .ok leftValue)
    (rightEval : eval session call env (1 :: site) right = .ok rightValue) :
    eval session call env site (.equals left right) =
      .ok (.bool (leftValue.same rightValue)) := by
  rw [equals, eval, leftEval, Outcome.ok_bind, rightEval]
  rfl

/-- The last steps of a comprehension with one condition. -/
theorem evalSteps_filter_yield {condition output : Expr} {passed : Bool}
    {scanned result : Value}
    (conditionEval : eval session call env (0 :: site) condition =
      .ok (.bool passed))
    (outputEval : eval session call env (0 :: 1 :: site) output = .ok result) :
    evalSteps session call env site scanned [.filter condition, .yield output] =
      .ok (if passed then some result else none) := by
  rw [evalSteps, conditionEval, Outcome.ok_bind]
  cases passed with
  | false => rfl
  | true =>
      change evalSteps session call env (1 :: site) scanned [.yield output] = _
      rw [evalSteps, outputEval, Outcome.ok_bind]
      rfl

/-- The rows of a scan of pairs are those below its pairs. -/
theorem collectScans_pair_yields {second : Name} {source : Expr}
    {scans : List Scan}
    {finish : Env → Site → List Value → Outcome (Option Value)}
    {scanned : List Value} {kind : CollectionKind} {rows : List Value}
    {holds : Value → Value → Value → Prop}
    (evaluated : eval session call env (0 :: site) source =
      .ok (.collection kind rows))
    (below : ∀ index left right,
      Yields (collectScans session call finish
        ((second, right) :: (first, left) :: env)
        (index :: site) (scanned ++ [.tuple [left, right]]) scans)
        (holds left right)) :
    Yields (collectScans session call finish env site scanned
        (⟨.tuple [.var first, .var second], some source⟩ :: scans))
      fun output => ∃ left right, .tuple [left, right] ∈ rows ∧
      holds left right output := by
  have yields : Yields (collectScans session call finish env site scanned
      (⟨.tuple [.var first, .var second], some source⟩ :: scans))
      fun output => ∃ row ∈ rows, ∃ inner,
        (Pattern.tuple [.var first, .var second]).bind row env = some inner ∧
          ∃ left right, row = .tuple [left, right] ∧
          holds left right output := by
    refine collectScans_cons_yields (evalSource_some evaluated) ?_
    intro index row inner _ binds
    obtain ⟨left, right, rfl, rfl⟩ := Pattern.bind_pair_eq_some_iff.mp binds
    obtain ⟨found, done, members⟩ := below (index + 1) left right
    refine ⟨found, done, ?_⟩
    intro output
    rw [members]
    constructor
    · intro holdsOutput
      exact ⟨left, right, rfl, holdsOutput⟩
    · rintro ⟨otherLeft, otherRight, equality, holdsOutput⟩
      cases equality
      exact holdsOutput
  obtain ⟨found, done, members⟩ := yields
  refine ⟨found, done, ?_⟩
  intro output
  rw [members]
  constructor
  · rintro ⟨_, member, _, _, left, right, rfl, holdsOutput⟩
    exact ⟨left, right, member, holdsOutput⟩
  · rintro ⟨left, right, member, holdsOutput⟩
    exact ⟨_, member, _,
      Pattern.bind_pair_eq_some_iff.mpr ⟨left, right, rfl, rfl⟩,
      left, right, rfl, holdsOutput⟩

section Joined

variable {first middle other last : Name} {start joint copy target : Value}

/-- The first inner component in the environment of a joined row. -/
theorem eval_joint (distinct : [first, middle, other, last].Nodup) :
    eval session call ((last, target) :: (other, copy) :: (middle, joint) ::
      (first, start) :: env) site (.var middle) = .ok joint := by
  simp only [List.nodup_cons, List.mem_cons, List.not_mem_nil, or_false,
    not_or] at distinct
  obtain ⟨_, ⟨middleOther, middleLast⟩, _⟩ := distinct
  rw [eval, Session.lookup_cons_ne middleLast,
    Session.lookup_cons_ne middleOther, Session.lookup_cons_self]

/-- The second inner component in the environment of a joined row. -/
theorem eval_copy (distinct : [first, middle, other, last].Nodup) :
    eval session call ((last, target) :: (other, copy) :: (middle, joint) ::
      (first, start) :: env) site (.var other) = .ok copy := by
  simp only [List.nodup_cons, List.mem_cons, List.not_mem_nil, or_false,
    not_or] at distinct
  obtain ⟨_, _, otherLast, _⟩ := distinct
  rw [eval, Session.lookup_cons_ne otherLast, Session.lookup_cons_self]

/-- The outer components in the environment of a joined row. -/
theorem eval_ends (distinct : [first, middle, other, last].Nodup) :
    eval session call ((last, target) :: (other, copy) :: (middle, joint) ::
      (first, start) :: env) site (.row [first, last]) =
      .ok (.tuple [start, target]) := by
  simp only [List.nodup_cons, List.mem_cons, List.not_mem_nil, or_false,
    not_or] at distinct
  obtain ⟨⟨firstMiddle, firstOther, firstLast⟩, _⟩ := distinct
  simp only [row, bracketed, List.map_cons, List.map_nil, eval, evalList,
    Session.lookup_cons_ne firstLast, Session.lookup_cons_ne firstOther,
    Session.lookup_cons_ne firstMiddle, Session.lookup_cons_self,
    Outcome.ok_bind]
  rfl

end Joined

/-- The join of two relations of pairs by a test on their inner components. -/
theorem eval_join {middle other last : Name} {left right condition : Expr}
    {leftKind rightKind : CollectionKind} {leftRows rightRows : List Value}
    {test : Value → Value → Bool}
    (leftEval : ∀ site, eval session call env site left =
      .ok (.collection leftKind leftRows))
    (rightEval : ∀ start joint site,
      eval session call ((middle, joint) :: (first, start) :: env) site right =
        .ok (.collection rightKind rightRows))
    (conditionEval : ∀ start joint copy target site,
      eval session call ((last, target) :: (other, copy) :: (middle, joint) ::
        (first, start) :: env) site condition = .ok (.bool (test joint copy)))
    (distinct : [first, middle, other, last].Nodup) (site : Site) :
    ∃ kind rows,
      eval session call env site (.collect (.filtered
        [⟨.tuple [.var first, .var middle], some left⟩,
          ⟨.tuple [.var other, .var last], some right⟩] [condition]
          (.row [first, last]))) = .ok (.collection kind rows) ∧
      ∀ row, row ∈ rows ↔ ∃ start joint copy target,
        .tuple [start, joint] ∈ leftRows ∧ .tuple [copy, target] ∈ rightRows ∧
          test joint copy = true ∧ row = .tuple [start, target] := by
  have inner : ∀ start joint site scanned,
      Yields (collectScans session call
        (fun env site scanned =>
          evalSteps session call env site (.ofScanned scanned)
          [.filter condition, .yield (.row [first, last])])
        ((middle, joint) :: (first, start) :: env) site scanned
        [⟨.tuple [.var other, .var last], some right⟩])
        fun output => ∃ copy target, .tuple [copy, target] ∈ rightRows ∧
          (if test joint copy = true then some (Value.tuple [start, target])
            else none) = some output := by
    intro start joint site scanned
    refine collectScans_pair_yields (rightEval start joint _) ?_
    intro index copy target
    exact collectScans_nil_yields (evalSteps_filter_yield
      (conditionEval start joint copy target _) (eval_ends distinct))
  obtain ⟨found, done, members⟩ :=
    collectScans_pair_yields (leftEval (0 :: site))
    (fun index start joint =>
      inner start joint (index :: site) ([] ++ [.tuple [start, joint]]))
  refine ⟨found.kind, found.rows, ?_, ?_⟩
  · simp only [Query.filtered, conjunction, List.foldl_nil, eval, done,
      Outcome.ok_bind]
    rfl
  · intro row
    rw [members]
    constructor
    · rintro ⟨start, joint, leftMember, copy, target, rightMember, output⟩
      split at output
      case isTrue tested =>
          cases output
          exact ⟨start, joint, copy, target, leftMember, rightMember,
            tested, rfl⟩
      case isFalse => cases output
    · rintro ⟨start, joint, copy, target, leftMember, rightMember, tested, rfl⟩
      exact ⟨start, joint, leftMember, copy, target,
        rightMember, by rw [if_pos tested]⟩

end Expr

end RecursiveQuery
