import RecursiveQuery.Proofs.Connectives
import RecursiveQuery.Proofs.CorrespondingRuns
import RecursiveQuery.Proofs.FreshenedPatterns

/-!
# Scans of joined generators

The rows of a join come from rows of its generators, one after another, that
satisfy all conditions.  A row is found whatever the sites at which the sources
are evaluated, and each row that is found belongs to some sites.
-/

namespace RecursiveQuery

namespace Pattern

mutual

theorem exists_lookup_of_bind {pattern : Pattern} {value : Value}
    {env inner : Env} (binds : pattern.bind value env = some inner)
    {name : Name} (occurs : name ∈ pattern.occurrences) :
    ∃ found, inner.lookup name = some found := by
  cases pattern with
  | wildcard => cases occurs
  | literal expected => cases occurs
  | var other =>
      cases binds
      rw [List.mem_singleton.mp occurs]
      exact ⟨value, List.lookup_cons_self⟩
  | tuple patterns =>
      cases value with
      | tuple items => exact exists_lookup_of_bindList binds occurs
      | _ => cases binds

theorem exists_lookup_of_bindList {patterns : List Pattern} {items : List Value}
    {env inner : Env} (binds : bindList patterns items env = some inner)
    {name : Name} (occurs : name ∈ occurrencesList patterns) :
    ∃ found, inner.lookup name = some found := by
  match patterns, items with
  | [], _ => cases occurs
  | _ :: _, [] => cases binds
  | pattern :: patterns, item :: items =>
      obtain ⟨middle, first, binds⟩ := of_bindList_cons binds
      by_cases later : name ∈ occurrencesList patterns
      · exact exists_lookup_of_bindList binds later
      · have here := (List.mem_append.mp occurs).resolve_right later
        obtain ⟨found, lookedUp⟩ := exists_lookup_of_bind first here
        exact ⟨found, (lookup_of_bindList binds later).trans lookedUp⟩

end

end Pattern

namespace Generator

variable {goal : Env → Prop}

/-- A row of a generator leads from one environment to another. -/
def Scans (session : Session) (site : Site) (generator : Generator)
    (env inner : Env) : Prop :=
  ∃ kind rows row, session.evalIn site env generator.source =
    .ok (.collection kind rows) ∧
    row ∈ rows ∧ generator.pattern.bind row env = some inner

/-- Rows of some generators lead from one environment to another. -/
inductive Reaches (session : Session) : List Generator → Env → Env → Prop where
  | nil (env : Env) : Reaches session [] env env
  | cons {part : Generator} {parts : List Generator} {env inner last : Env}
      {site : Site} : Session.Started site → part.Scans session site env inner →
      Reaches session parts inner last →
        Reaches session (part :: parts) env last

/-- Wherever the sources of some generators are evaluated, their rows lead to a
goal. -/
def Leads (session : Session) :
    List Generator → Env → (goal : Env → Prop) → Prop
  | [], env, goal => goal env
  | part :: parts, env, goal => ∀ site, Session.Started site →
      ∃ inner, part.Scans session site env inner ∧
      Leads session parts inner goal

/-- Wherever the sources of some generators evaluate, one of their rows leads on
to a goal. -/
def Guides (session : Session) :
    List Generator → Env → (goal : Env → Prop) → Prop
  | [], env, goal => goal env
  | part :: parts, env, goal => ∀ site kind rows, Session.Started site →
      session.evalIn site env part.source = .ok (.collection kind rows) →
      ∃ row ∈ rows, ∃ inner, part.pattern.bind row env = some inner ∧
        Guides session parts inner goal

variable {session : Session} {part : Generator} {parts : List Generator}
  {env last : Env}

theorem Reaches.of_snoc (reaches : Reaches session (parts ++ [part]) env last) :
    ∃ middle site, Reaches session parts env middle ∧ Session.Started site ∧
      part.Scans session site middle last := by
  induction parts generalizing env with
  | nil =>
      cases reaches with
      | cons started scans rest =>
          cases rest
          exact ⟨env, _, .nil env, started, scans⟩
  | cons first parts induction =>
      cases reaches with
      | cons started scans rest =>
          obtain ⟨middle, site, before, startedLast, scansLast⟩ :=
            induction rest
          exact ⟨middle, site, .cons started scans before, startedLast,
            scansLast⟩

/-- Variables that no generator binds keep their values. -/
theorem Reaches.lookup (reaches : Reaches session parts env last) {name : Name}
    (absent : ∀ part ∈ parts, name ∉ part.pattern.occurrences) :
    last.lookup name = env.lookup name := by
  induction reaches with
  | nil => rfl
  | cons _ scans _ induction =>
      obtain ⟨kind, rows, row, _, _, binds⟩ := scans
      rw [List.forall_mem_cons] at absent
      exact (induction absent.2).trans (Pattern.lookup_of_bind binds absent.1)

theorem Reaches.exists_lookup (reaches : Reaches session parts env last)
    {name : Name} (occurs : ∃ part ∈ parts, name ∈ part.pattern.occurrences) :
    ∃ value, last.lookup name = some value := by
  induction reaches with
  | nil =>
      obtain ⟨_, member, _⟩ := occurs
      cases member
  | @cons part parts env inner last site _ scans rest induction =>
      by_cases later : ∃ part ∈ parts, name ∈ part.pattern.occurrences
      · exact induction later
      · obtain ⟨kind, rows, row, _, _, binds⟩ := scans
        have here : name ∈ part.pattern.occurrences := by
          obtain ⟨other, member, inOther⟩ := occurs
          rcases List.mem_cons.mp member with isFirst | isLater
          · exact isFirst ▸ inOther
          · exact absurd ⟨other, isLater, inOther⟩ later
        obtain ⟨value, found⟩ := Pattern.exists_lookup_of_bind binds here
        refine ⟨value, (rest.lookup ?_).trans found⟩
        intro other member inOther
        exact later ⟨other, member, inOther⟩

theorem Leads.snoc {more : Env → Prop} (leads : Leads session parts env goal)
    (next : ∀ last, goal last → ∀ site, Session.Started site →
      ∃ inner, part.Scans session site last inner ∧ more inner) :
    Leads session (parts ++ [part]) env more := by
  induction parts generalizing env with
  | nil => exact next env leads
  | cons first parts induction =>
      intro site started
      obtain ⟨inner, scans, rest⟩ := leads site started
      exact ⟨inner, scans, induction rest⟩

theorem Leads.mono {more : Env → Prop} (leads : Leads session parts env goal)
    (weaker : ∀ last, goal last → more last) :
    Leads session parts env more := by
  induction parts generalizing env with
  | nil => exact weaker env leads
  | cons first parts induction =>
      intro site started
      obtain ⟨inner, scans, rest⟩ := leads site started
      exact ⟨inner, scans, induction rest⟩

theorem Leads.guides (leads : Leads session parts env goal) :
    Guides session parts env goal := by
  induction parts generalizing env with
  | nil => exact leads
  | cons first parts induction =>
      intro site kind rows started evaluated
      obtain ⟨inner, ⟨_, _, row, evaluatedSource, member, binds⟩, rest⟩ :=
        leads site started
      rw [evaluated] at evaluatedSource
      cases evaluatedSource
      exact ⟨row, member, inner, binds, induction rest⟩

/-- The rows of a scan are those of its source. -/
theorem exists_evalIn_of_evalSource {site : Site} {pattern : Pattern}
    {source : Expr} {sourced : Rows}
    (evaluated : Expr.evalSource session (session.call session.limits.maxDepth)
      env site pattern (some source) = .ok sourced) :
    ∃ kind, session.evalIn site env source =
      .ok (.collection kind sourced.rows) := by
  obtain ⟨value, evaluatedSource, isRows⟩ := Outcome.bind_eq_ok_iff.mp evaluated
  cases value with
  | collection kind rows =>
      cases isRows
      exact ⟨kind, evaluatedSource⟩
  | _ => cases isRows

section Collect

variable {site : Site} {scanned : List Value} {found : Rows}
  {finish : Env → Site → List Value → Outcome (Option Value)}
variable {goal : Env → Prop}

/-- A comprehension that evaluates reaches a goal to which its generators
guide. -/
theorem Guides.exists_finish (guides : Guides session parts env goal)
    (started : Session.Started site)
    (collected : Expr.collectScans session
      (session.call session.limits.maxDepth) finish env site
      scanned (parts.map scan) = .ok found) :
    ∃ last site' scanned' output, goal last ∧ Session.Started site' ∧
      finish last site' scanned' = .ok output ∧ output.toList ⊆ found.rows := by
  induction parts generalizing env site scanned found with
  | nil =>
      obtain ⟨output, finished, equality⟩ :=
        Expr.collectScans_nil_eq_ok_iff.mp collected
      refine ⟨env, site, scanned, output, guides, started, finished, ?_⟩
      rw [← equality]
      exact List.Subset.refl _
  | cons part parts induction =>
      obtain ⟨sourced, evaluated, below, _⟩ :=
        Expr.mem_collectScans_cons collected
      obtain ⟨kind, evaluatedSource⟩ := exists_evalIn_of_evalSource evaluated
      obtain ⟨row, member, inner, binds, rest⟩ :=
        guides (0 :: site) kind sourced.rows (started.cons 0) evaluatedSource
      obtain ⟨index, atIndex⟩ := List.getElem?_of_mem member
      obtain ⟨part, collectedPart, subset⟩ :=
        below index row inner atIndex binds
      obtain ⟨last, site', scanned', output, reached, started', finished,
        inPart⟩ :=
        induction rest (started.cons (index + 1)) collectedPart
      exact ⟨last, site', scanned', output, reached, started', finished,
        List.Subset.trans inPart subset⟩

/-- Each row of a comprehension is reached. -/
theorem exists_reaches_of_mem (started : Session.Started site)
    (collected : Expr.collectScans session
      (session.call session.limits.maxDepth) finish env site
      scanned (parts.map scan) = .ok found) {output : Value}
      (member : output ∈ found.rows) :
    ∃ last site' scanned', Reaches session parts env last ∧
      Session.Started site' ∧
      finish last site' scanned' = .ok (some output) := by
  induction parts generalizing env site scanned found with
  | nil =>
      obtain ⟨result, finished, equality⟩ :=
        Expr.collectScans_nil_eq_ok_iff.mp collected
      rw [← equality, Option.mem_toList] at member
      cases member
      exact ⟨env, site, scanned, .nil env, started, finished⟩
  | cons part parts induction =>
      obtain ⟨sourced, evaluated, _, above⟩ :=
        Expr.mem_collectScans_cons collected
      obtain ⟨index, row, inner, rows, atIndex, binds, collectedPart, inPart⟩ :=
        above output member
      obtain ⟨last, site', scanned', reaches, started', finished⟩ :=
        induction (started.cons (index + 1)) collectedPart inPart
      obtain ⟨kind, evaluatedSource⟩ := exists_evalIn_of_evalSource evaluated
      exact ⟨last, site', scanned', .cons (started.cons 0)
        ⟨kind, _, row, evaluatedSource, List.mem_of_getElem? atIndex, binds⟩
        reaches,
        started', finished⟩

/-- A search that finds nothing has been at each goal to which its generators
guide. -/
theorem Guides.exists_finish_of_not_found
    (guides : Guides session parts env goal) (started : Session.Started site)
    (searched : Expr.existsScans session (session.call session.limits.maxDepth)
      finish env site scanned (parts.map scan) = .ok false) :
    ∃ last site' scanned', goal last ∧ Session.Started site' ∧
      finish last site' scanned' = .ok none := by
  induction parts generalizing env site scanned with
  | nil =>
      obtain ⟨output, finished, absent⟩ := Outcome.bind_eq_ok_iff.mp searched
      rw [Outcome.pure_eq_ok_iff, Option.isSome_eq_false_iff,
        Option.isNone_iff_eq_none] at absent
      subst absent
      exact ⟨env, site, scanned, guides, started, finished⟩
  | cons part parts induction =>
      obtain ⟨sourced, evaluated, none⟩ := Outcome.bind_eq_ok_iff.mp searched
      obtain ⟨kind, evaluatedSource⟩ := exists_evalIn_of_evalSource evaluated
      obtain ⟨row, member, inner, binds, rest⟩ :=
        guides (0 :: site) kind sourced.rows (started.cons 0) evaluatedSource
      obtain ⟨index, atIndex⟩ := List.getElem?_of_mem member
      have searchedBelow :=
        Outcome.forall_of_anyM_eq_false none (index, row, inner)
        (Pattern.mem_matching_iff.mpr ⟨atIndex, binds⟩)
      exact induction rest (started.cons (index + 1)) searchedBelow

/-- What a search finds is reached. -/
theorem exists_reaches_of_found (started : Session.Started site)
    (searched : Expr.existsScans session (session.call session.limits.maxDepth)
      finish env site scanned (parts.map scan) = .ok true) :
    ∃ last site' scanned' output, Reaches session parts env last ∧
      Session.Started site' ∧
      finish last site' scanned' = .ok (some output) := by
  induction parts generalizing env site scanned with
  | nil =>
      obtain ⟨output, finished, present⟩ := Outcome.bind_eq_ok_iff.mp searched
      rw [Outcome.pure_eq_ok_iff, Option.isSome_iff_exists] at present
      obtain ⟨value, rfl⟩ := present
      exact ⟨env, site, scanned, value, .nil env, started, finished⟩
  | cons part parts induction =>
      obtain ⟨sourced, evaluated, some⟩ := Outcome.bind_eq_ok_iff.mp searched
      obtain ⟨kind, evaluatedSource⟩ := exists_evalIn_of_evalSource evaluated
      obtain ⟨⟨index, row, inner⟩, entry, searchedBelow⟩ :=
        Outcome.exists_of_anyM_eq_true some
      obtain ⟨atIndex, binds⟩ := Pattern.mem_matching_iff.mp entry
      obtain ⟨last, site', scanned', output, reaches, started', finished⟩ :=
        induction (started.cons (index + 1)) searchedBelow
      exact ⟨last, site', scanned', output, .cons (started.cons 0)
        ⟨kind, _, row, evaluatedSource, List.mem_of_getElem? atIndex, binds⟩
        reaches,
        started', finished⟩

end Collect

end Generator

namespace Session

variable {session : Session} {env : Env} {site : Site}
variable {holds : Bool} {conditions : List Expr}

theorem asBool_eq_ok_iff {value : Value} :
    value.asBool = .ok holds ↔ value = .bool holds := by
  cases value with
  | bool other => simp [Value.asBool, Outcome.pure_eq_ok_iff]
  | _ => simp [Value.asBool, Outcome.mismatch, Outcome.fail]

/-- A conjunction stops at its left side if that is false. -/
theorem evalIn_andAlso_iff {left right : Expr} :
    session.evalIn site env (.andAlso left right) = .ok (.bool holds) ↔
      (session.evalIn (0 :: site) env left = .ok (.bool false) ∧
        holds = false) ∨
      (session.evalIn (0 :: site) env left = .ok (.bool true) ∧
        session.evalIn (1 :: site) env right = .ok (.bool holds)) := by
  simp only [evalIn, Expr.eval, Outcome.bind_eq_ok_iff, asBool_eq_ok_iff]
  constructor
  · intro evaluated
    obtain ⟨value, evaluatedLeft, leftHolds, isBool, rest⟩ := evaluated
    subst isBool
    cases leftHolds with
    | false =>
        cases rest
        exact .inl ⟨evaluatedLeft, rfl⟩
    | true =>
        obtain ⟨rightValue, evaluatedRight, rest⟩ :=
          Outcome.bind_eq_ok_iff.mp rest
        obtain ⟨rightHolds, isBool, equality⟩ := Outcome.bind_eq_ok_iff.mp rest
        cases equality
        cases asBool_eq_ok_iff.mp isBool
        exact .inr ⟨evaluatedLeft, evaluatedRight⟩
  · intro either
    rcases either with
      ⟨evaluatedLeft, equality⟩ | ⟨evaluatedLeft, evaluatedRight⟩
    · subst equality
      exact ⟨_, evaluatedLeft, false, rfl, rfl⟩
    · refine ⟨_, evaluatedLeft, true, rfl, ?_⟩
      exact Outcome.bind_eq_ok_iff.mpr ⟨_, evaluatedRight, rfl⟩

/-- A condition holds, wherever it is evaluated. -/
def Holds (session : Session) (env : Env) (condition : Expr) : Prop :=
  ∀ site, Started site → session.evalIn site env condition = .ok (.bool true)

/-- A condition was evaluated and holds. -/
def Held (session : Session) (env : Env) (condition : Expr) : Prop :=
  ∃ site, Started site ∧ session.evalIn site env condition = .ok (.bool true)

theorem holds_conjunction
    (all : ∀ condition ∈ conditions, session.Holds env condition) :
    session.Holds env (.conjunction conditions) := by
  refine Expr.conjunction_of_forall (fun _ _ => rfl) ?_ all
  intro left right leftHolds rightHolds site started
  exact evalIn_andAlso_iff.mpr
    (.inr ⟨leftHolds _ (started.cons 0), rightHolds _ (started.cons 1)⟩)

theorem held_of_conjunction
    (held : session.Held env (.conjunction conditions)) :
    ∀ condition ∈ conditions, session.Held env condition := by
  have parts {left right : Expr}
    (both : session.Held env (.andAlso left right)) :
      session.Held env left ∧ session.Held env right := by
    obtain ⟨site, started, evaluated⟩ := both
    rcases evalIn_andAlso_iff.mp evaluated with
      ⟨_, absurdity⟩ | ⟨leftTrue, rightTrue⟩
    · cases absurdity
    · exact ⟨⟨_, started.cons 0, leftTrue⟩, ⟨_, started.cons 1, rightTrue⟩⟩
  cases conditions with
  | nil => exact nofun
  | cons first rest =>
      rw [Expr.conjunction] at held
      induction rest generalizing first with
      | nil => simpa using held
      | cons second rest induction =>
          have later := induction (.andAlso first second) held
          rw [List.forall_mem_cons] at later ⊢
          obtain ⟨firstHeld, secondHeld⟩ := parts later.1
          exact ⟨firstHeld, List.forall_mem_cons.mpr ⟨secondHeld, later.2⟩⟩

/-- A row of variables that have values matches the pattern of these variables
again. -/
theorem exists_bind_row {names : List Name} {row : Value}
    (evaluated : session.evalIn site env (.row names) = .ok row)
    (nonempty : names ≠ [])
    (given : ∀ name ∈ names, ∃ value, env.lookup name = some value)
    (bound : Env) : ∃ inner, (Pattern.row names).bind row bound = some inner ∧
      ∀ name ∈ names, inner.lookup name = env.lookup name := by
  have each {names : List Name} {values : List Value} {site : Site}
    {bound : Env}
      (evaluated :
        Expr.evalList session (session.call session.limits.maxDepth) env site
        (names.map .var) = .ok values)
      (given : ∀ name ∈ names, ∃ value, env.lookup name = some value) :
      ∃ inner, Pattern.bindList (names.map .var) values bound = some inner ∧
        ∀ name, name ∈ names ∨ bound.lookup name = env.lookup name →
          inner.lookup name = env.lookup name := by
    induction names generalizing values site bound with
    | nil =>
        cases evaluated
        exact ⟨bound, rfl,
          fun name either => either.resolve_left List.not_mem_nil⟩
    | cons name names induction =>
        obtain ⟨first, evaluatedFirst, rest⟩ :=
          Outcome.bind_eq_ok_iff.mp evaluated
        obtain ⟨others, evaluatedRest, equality⟩ :=
          Outcome.bind_eq_ok_iff.mp rest
        cases equality
        rw [List.forall_mem_cons] at given
        obtain ⟨⟨value, found⟩, givenRest⟩ := given
        have isValue : value = first := by
          have lookedUp : session.lookup env name = .ok first := evaluatedFirst
          rw [lookup_of_env found] at lookedUp
          exact Except.ok.inj lookedUp
        subst isValue
        obtain ⟨inner, binds, keeps⟩ :=
          @induction others _ ((name, value) :: bound) evaluatedRest givenRest
        refine ⟨inner, binds, ?_⟩
        intro other either
        apply keeps
        by_cases equal : other = name
        · subst equal
          right
          rw [List.lookup_cons_self, found]
        · have different : (other == name) = false := by simpa using equal
          rw [List.lookup_cons, different]
          exact either.imp_left fun member =>
            (List.mem_cons.mp member).resolve_left equal
  rcases names with _ | ⟨name, _ | ⟨second, rest⟩⟩
  · exact absurd rfl nonempty
  · obtain ⟨value, found⟩ := given name List.mem_cons_self
    have isValue : value = row := by
      have lookedUp : session.lookup env name = .ok row := evaluated
      rw [lookup_of_env found] at lookedUp
      exact Except.ok.inj lookedUp
    refine ⟨(name, row) :: bound, rfl, ?_⟩
    intro other member
    rw [List.mem_singleton.mp member, List.lookup_cons_self, found, isValue]
  · obtain ⟨values, evaluatedRow, equality⟩ :=
      Outcome.bind_eq_ok_iff.mp evaluated
    cases equality
    obtain ⟨inner, binds, keeps⟩ :=
      @each (name :: second :: rest) values site bound evaluatedRow given
    exact ⟨inner, binds, fun other member => keeps other (.inl member)⟩

end Session

namespace Generator

variable {session : Session} {env last bound : Env} {site : Site}
  {residual : List Expr}
variable {output : Expr} {scanned : Value}

/-- The output of a filtered query, if its conditions hold. -/
theorem exists_output_of_holds (scans : List Scan) {result : Option Value}
    (started : Session.Started site)
    (all : ∀ condition ∈ residual, session.Holds env condition)
    (finished : Expr.evalSteps session (session.call session.limits.maxDepth)
      env site scanned
      (Query.filtered scans residual output).steps = .ok result) :
    ∃ row site', result = some row ∧ Session.Started site' ∧
      session.evalIn site' env output = .ok row := by
  have yields {site : Site} (started : Session.Started site)
      (finished : Expr.evalSteps session (session.call session.limits.maxDepth)
        env site scanned [.yield output] = .ok result) :
      ∃ row site', result = some row ∧ Session.Started site' ∧
        session.evalIn site' env output = .ok row := by
    obtain ⟨row, evaluated, equality⟩ := Outcome.bind_eq_ok_iff.mp finished
    cases equality
    exact ⟨row, _, rfl, started.cons 0, evaluated⟩
  cases residual with
  | nil => exact yields started finished
  | cons first rest =>
      have passes :
        session.evalIn (0 :: site) env (.conjunction (first :: rest)) =
          .ok (.bool true) := Session.holds_conjunction all _ (started.cons 0)
      rw [Session.evalIn] at passes
      simp only [Query.filtered] at finished
      rw [Expr.evalSteps, passes] at finished
      exact yields (started.cons 1) finished

/-- The conditions of a filtered query hold if it has an output. -/
theorem held_of_output (scans : List Scan) {row : Value}
    (started : Session.Started site)
    (finished : Expr.evalSteps session (session.call session.limits.maxDepth)
      env site scanned
      (Query.filtered scans residual output).steps = .ok (some row)) :
    (∀ condition ∈ residual, session.Held env condition) ∧
      ∃ site', Session.Started site' ∧
      session.evalIn site' env output = .ok row := by
  have yields {site : Site} (started : Session.Started site)
      (finished : Expr.evalSteps session (session.call session.limits.maxDepth)
        env site scanned [.yield output] = .ok (some row)) :
      ∃ site', Session.Started site' ∧
      session.evalIn site' env output = .ok row := by
    obtain ⟨value, evaluated, equality⟩ := Outcome.bind_eq_ok_iff.mp finished
    cases equality
    exact ⟨_, started.cons 0, evaluated⟩
  cases residual with
  | nil => exact ⟨nofun, yields started finished⟩
  | cons first rest =>
      simp only [Query.filtered] at finished
      rw [Expr.evalSteps] at finished
      obtain ⟨value, evaluated, finished⟩ := Outcome.bind_eq_ok_iff.mp finished
      obtain ⟨passed, isBool, finished⟩ := Outcome.bind_eq_ok_iff.mp finished
      cases Session.asBool_eq_ok_iff.mp isBool
      cases passed with
      | false => cases finished
      | true =>
          exact ⟨Session.held_of_conjunction ⟨_, started.cons 0, evaluated⟩,
            yields (started.cons 1) finished⟩

variable {parts : List Generator} {outputs : List Name} {kind : CollectionKind}
  {rows : List Value}

/-- A join that evaluates has a row with the outputs of each goal to which its
parts lead. -/
theorem Leads.exists_join_row {goal : Env → Prop}
    (leads : Leads session parts bound goal) (passes : ∀ last, goal last →
      (∀ condition ∈ residual, session.Holds last condition) ∧
      ∀ name ∈ outputs, ∃ value, last.lookup name = some value)
    (nonempty : outputs ≠ []) (started : Session.Started site)
    (evaluated :
      session.evalIn site bound (join parts residual outputs).source =
      .ok (.collection kind rows)) :
    ∃ last, goal last ∧ ∃ row ∈ rows, ∃ inner,
      (join parts residual outputs).pattern.bind row bound = some inner ∧
      ∀ name ∈ outputs, inner.lookup name = last.lookup name := by
  obtain ⟨found, collected, equality⟩ := Outcome.bind_eq_ok_iff.mp evaluated
  cases equality
  obtain ⟨last, site', scanned, output, reached, started', finished, subset⟩ :=
    leads.guides.exists_finish started collected
  obtain ⟨hold, given⟩ := passes last reached
  obtain ⟨row, inside, equality, startedInside, evaluatedRow⟩ :=
    exists_output_of_holds (parts.map scan) started' hold finished
  subst equality
  obtain ⟨inner, binds, keeps⟩ :=
    Session.exists_bind_row evaluatedRow nonempty given bound
  exact ⟨last, reached, row, subset (by simp), inner, binds, keeps⟩

/-- Each row of a join is the row of outputs of a place that its parts reach and
where the conditions hold. -/
theorem exists_reaches_of_join_row (started : Session.Started site)
    (evaluated :
      session.evalIn site bound (join parts residual outputs).source =
      .ok (.collection kind rows)) {row : Value} (member : row ∈ rows) :
    ∃ last site', Reaches session parts bound last ∧
      (∀ condition ∈ residual, session.Held last condition) ∧
      Session.Started site' ∧
      session.evalIn site' last (.row outputs) = .ok row := by
  obtain ⟨found, collected, equality⟩ := Outcome.bind_eq_ok_iff.mp evaluated
  cases equality
  obtain ⟨last, inside, scanned, reaches, startedInside, finished⟩ :=
    exists_reaches_of_mem started collected member
  obtain ⟨held, site', started', evaluatedRow⟩ :=
    held_of_output (parts.map scan) startedInside finished
  exact ⟨last, site', reaches, held, started', evaluatedRow⟩

end Generator

end RecursiveQuery
