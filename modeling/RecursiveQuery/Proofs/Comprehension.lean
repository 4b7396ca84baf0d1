import Mathlib.Data.List.Forall2
import RecursiveQuery.Evaluation.Eval

/-!
# Rows of comprehensions

A comprehension succeeds when the sources of its scans and the rows below each
matching row do; its rows are then the rows below all of them.  `Yields` is the
view of such a result that later proofs use: its rows are described by a
predicate.
-/

namespace RecursiveQuery

namespace Outcome

variable {α β : Type}

theorem bind_eq_ok_iff {first : Outcome α} {next : α → Outcome β} {result : β} :
    (first >>= next) = .ok result ↔
      ∃ value, first = .ok value ∧ next value = .ok result := by
  cases first with
  | error halt =>
      constructor
      · intro absurdity
        cases absurdity
      · rintro ⟨value, absurdity, _⟩
        cases absurdity
  | ok value =>
      constructor
      · intro continued
        exact ⟨value, rfl, continued⟩
      · rintro ⟨other, equality, continued⟩
        cases equality
        exact continued

theorem ok_bind (value : α) (next : α → Outcome β) :
    ((.ok value : Outcome α) >>= next) = next value :=
  rfl

theorem pure_eq_ok_iff {value result : α} :
    (pure value : Outcome α) = .ok result ↔ value = result :=
  ⟨Except.ok.inj, congrArg Except.ok⟩

theorem mapM_eq_ok_iff {f : α → Outcome β} {items : List α} {results : List β} :
    items.mapM f = .ok results ↔
      List.Forall₂ (fun item result => f item = .ok result) items results := by
  induction items generalizing results with
  | nil =>
      rw [List.mapM_nil, pure_eq_ok_iff, List.forall₂_nil_left_iff]
      exact eq_comm
  | cons item items induction =>
      simp only [List.mapM_cons, bind_eq_ok_iff, pure_eq_ok_iff, induction]
      constructor
      · rintro ⟨result, done, rest, restDone, rfl⟩
        exact .cons done restDone
      · intro pairs
        cases pairs with
        | cons done restDone => exact ⟨_, done, _, restDone, rfl⟩

theorem forall_of_anyM_eq_false {test : α → Outcome Bool} {items : List α}
    (none : items.anyM test = .ok false) :
    ∀ item ∈ items, test item = .ok false := by
  induction items with
  | nil =>
      intro item member
      cases member
  | cons head tail induction =>
      rw [List.anyM_cons, bind_eq_ok_iff] at none
      obtain ⟨found, tested, rest⟩ := none
      cases found with
      | true => cases rest
      | false =>
          intro item member
          rcases List.mem_cons.mp member with rfl | tailMember
          · exact tested
          · exact induction rest item tailMember

theorem exists_of_anyM_eq_true {test : α → Outcome Bool} {items : List α}
    (some : items.anyM test = .ok true) :
    ∃ item ∈ items, test item = .ok true := by
  induction items with
  | nil => cases some
  | cons head tail induction =>
      rw [List.anyM_cons, bind_eq_ok_iff] at some
      obtain ⟨found, tested, rest⟩ := some
      cases found with
      | true => exact ⟨head, List.mem_cons_self, tested⟩
      | false =>
          obtain ⟨item, member, itemTested⟩ := induction rest
          exact ⟨item, List.mem_cons_of_mem _ member, itemTested⟩

end Outcome

theorem exists_mem_left {α β : Type} {relation : α → β → Prop} {lefts : List α}
    {rights : List β} (pairs : List.Forall₂ relation lefts rights) {right : β}
    (member : right ∈ rights) : ∃ left ∈ lefts, relation left right := by
  induction pairs with
  | nil => cases member
  | cons related _ induction =>
      rcases List.mem_cons.mp member with rfl | later
      · exact ⟨_, List.mem_cons_self, related⟩
      · obtain ⟨left, leftMember, leftRelated⟩ := induction later
        exact ⟨left, List.mem_cons_of_mem _ leftMember, leftRelated⟩

namespace Pattern

variable {pattern : Pattern} {env : Env} {rows : List Value}

theorem mem_matching_iff {inner : Env} {index : Nat} {row : Value} :
    (index, row, inner) ∈ pattern.matching env rows ↔
      rows[index]? = some row ∧ pattern.bind row env = some inner := by
  simp only [matching, List.mem_filterMap, Prod.exists, Option.map_eq_some_iff,
    Prod.mk.injEq, List.mem_zipIdx_iff_getElem?]
  constructor
  · rintro ⟨candidate, position, found, bound, binds, rfl, rfl, rfl⟩
    exact ⟨found, binds⟩
  · rintro ⟨found, binds⟩
    exact ⟨row, index, found, inner, binds, rfl, rfl, rfl⟩

/-- Where every row matches, each row has a part of its own. -/
theorem forall₂_matching
    (matched : ∀ row ∈ rows, ∃ inner, pattern.bind row env = some inner) :
    List.Forall₂ (fun (entry : Nat × Value × Env) row => entry.2.1 = row)
      (pattern.matching env rows) rows := by
  have shifted : ∀ start,
    List.Forall₂ (fun (entry : Nat × Value × Env) row => entry.2.1 = row)
      ((rows.zipIdx start).filterMap fun numbered =>
        (pattern.bind numbered.1 env).map fun inner =>
        (numbered.2, numbered.1, inner)) rows := by
    induction rows with
    | nil =>
        intro start
        exact .nil
    | cons row rows induction =>
        intro start
        obtain ⟨inner, binds⟩ := matched row List.mem_cons_self
        have rest := induction
          (fun other member => matched other (List.mem_cons_of_mem _ member))
          (start + 1)
        simp only [List.zipIdx_cons, List.filterMap_cons, binds,
          Option.map_some]
        exact .cons rfl rest
  exact shifted 0

end Pattern

theorem Rows.mem_below_iff {kind : CollectionKind} {parts : List Rows}
    {row : Value} :
    row ∈ (below kind parts).rows ↔ ∃ part ∈ parts, row ∈ part.rows := by
  simp [below]

theorem Rows.below_singletons {kind : CollectionKind} (rows : List Value) :
    below kind (rows.map fun row => ⟨.list, [row]⟩) = ⟨kind, rows⟩ := by
  have kinds : ∀ kind : CollectionKind, kind.join .list = kind := by
    rintro (_ | _) <;> rfl
  have folded : (rows.map fun row => (⟨.list, [row]⟩ : Rows)).foldl
      (fun kind part => kind.join part.kind) kind = kind := by
    induction rows with
    | nil => rfl
    | cons row rows induction =>
        rw [List.map_cons, List.foldl_cons, kinds, induction]
  have flat : (rows.map fun row => (⟨.list, [row]⟩ : Rows)).flatMap Rows.rows =
    rows := by
    simp [List.flatMap_map]
  rw [below, folded, flat]

/-- A result whose rows are those with a given property. -/
def Yields (outcome : Outcome Rows) (holds : Value → Prop) : Prop :=
  ∃ found, outcome = .ok found ∧ ∀ row, row ∈ found.rows ↔ holds row

namespace Expr

variable {session : Session} {call : Caller} {env : Env} {site : Site}
  {finish : Env → Site → List Value → Outcome (Option Value)}
    {scanned : List Value}
  {pattern : Pattern} {source : Option Expr} {scans : List Scan}
variable {kind : CollectionKind} {rows : List Value} {found : Rows}

theorem evalSource_some {source : Expr}
    (evaluated : eval session call env site source =
      .ok (.collection kind rows)) :
    evalSource session call env site pattern (some source) =
      .ok ⟨kind, rows⟩ := by
  rw [evalSource, evaluated]
  rfl

theorem collectScans_nil_eq_ok_iff :
    collectScans session call finish env site scanned [] = .ok found ↔
      ∃ output, finish env site scanned = .ok output ∧
      ⟨.list, output.toList⟩ = found := by
  simp only [collectScans, Outcome.bind_eq_ok_iff, Outcome.pure_eq_ok_iff]

theorem collectScans_cons_eq_ok_iff :
    collectScans session call finish env site scanned
      (⟨pattern, source⟩ :: scans) = .ok found ↔
      ∃ sourced parts,
        evalSource session call env (0 :: site) pattern source = .ok sourced ∧
        List.Forall₂
          (fun (entry : Nat × Value × Env) part =>
            collectScans session call finish entry.2.2 ((entry.1 + 1) :: site)
              (scanned ++ [entry.2.1]) scans = .ok part)
          (pattern.matching env sourced.rows) parts ∧
        found = .below sourced.kind parts := by
  simp only [collectScans, Outcome.bind_eq_ok_iff, Outcome.pure_eq_ok_iff,
    Outcome.mapM_eq_ok_iff]
  constructor
  · rintro ⟨sourced, evaluated, parts, pairs, rfl⟩
    exact ⟨sourced, parts, evaluated, pairs, rfl⟩
  · rintro ⟨sourced, parts, evaluated, pairs, rfl⟩
    exact ⟨sourced, evaluated, parts, pairs, rfl⟩

/-- The rows of a scan that returns come from its matching rows, all of which
have returned. -/
theorem mem_collectScans_cons
    (collected : collectScans session call finish env site scanned
      (⟨pattern, source⟩ :: scans) = .ok found) :
    ∃ sourced, evalSource session call env (0 :: site) pattern source =
      .ok sourced ∧
      (∀ index row inner, sourced.rows[index]? = some row →
        pattern.bind row env = some inner →
        ∃ part, collectScans session call finish inner ((index + 1) :: site)
          (scanned ++ [row]) scans = .ok part ∧ part.rows ⊆ found.rows) ∧
      ∀ output ∈ found.rows, ∃ index row inner part, sourced.rows[index]? =
        some row ∧ pattern.bind row env = some inner ∧
        collectScans session call finish inner ((index + 1) :: site)
          (scanned ++ [row]) scans = .ok part ∧ output ∈ part.rows := by
  obtain ⟨sourced, parts, evaluated, pairs, rfl⟩ :=
    collectScans_cons_eq_ok_iff.mp collected
  refine ⟨sourced, evaluated, ?_, ?_⟩
  · intro index row inner found binds
    obtain ⟨part, member, done⟩ := exists_mem_left pairs.flip
      (Pattern.mem_matching_iff.mpr ⟨found, binds⟩)
    refine ⟨part, done, ?_⟩
    intro output inPart
    exact Rows.mem_below_iff.mpr ⟨part, member, inPart⟩
  · intro output member
    obtain ⟨part, inParts, inPart⟩ := Rows.mem_below_iff.mp member
    obtain ⟨⟨index, row, inner⟩, matched, done⟩ := exists_mem_left pairs inParts
    obtain ⟨found, binds⟩ := Pattern.mem_matching_iff.mp matched
    exact ⟨index, row, inner, part, found, binds, done, inPart⟩

theorem collectScans_nil_yields {output : Option Value}
    (finished : finish env site scanned = .ok output) :
    Yields (collectScans session call finish env site scanned [])
      fun row => output = some row := by
  refine ⟨_, collectScans_nil_eq_ok_iff.mpr ⟨output, finished, rfl⟩, ?_⟩
  intro row
  simp

/-- The rows of a scan are those below its matching rows. -/
theorem collectScans_cons_yields {sourced : Rows}
    {holds : Value → Env → Value → Prop}
    (evaluated : evalSource session call env (0 :: site) pattern source =
      .ok sourced) (below : ∀ index row inner, sourced.rows[index]? = some row →
      pattern.bind row env = some inner →
      Yields (collectScans session call finish inner ((index + 1) :: site)
        (scanned ++ [row]) scans) (holds row inner)) :
    Yields (collectScans session call finish env site scanned
      (⟨pattern, source⟩ :: scans)) fun output => ∃ row ∈ sourced.rows, ∃ inner,
        pattern.bind row env = some inner ∧ holds row inner output := by
  have parts : ∀ entries : List (Nat × Value × Env),
      (∀ entry ∈ entries, sourced.rows[entry.1]? = some entry.2.1 ∧
        pattern.bind entry.2.1 env = some entry.2.2) →
      ∃ parts,
        List.Forall₂
          (fun (entry : Nat × Value × Env) part =>
            collectScans session call finish entry.2.2 ((entry.1 + 1) :: site)
              (scanned ++ [entry.2.1]) scans = .ok part) entries parts ∧
        ∀ output, (∃ part ∈ parts, output ∈ part.rows) ↔
          ∃ entry ∈ entries, holds entry.2.1 entry.2.2 output := by
    intro entries matched
    induction entries with
    | nil => exact ⟨[], .nil, by simp⟩
    | cons entry entries induction =>
        obtain ⟨found, binds⟩ := matched entry List.mem_cons_self
        obtain ⟨first, done, members⟩ :=
          below entry.1 entry.2.1 entry.2.2 found binds
        obtain ⟨rest, pairs, restMembers⟩ := induction
          fun other member => matched other (List.mem_cons_of_mem _ member)
        refine ⟨first :: rest, .cons done pairs, ?_⟩
        intro output
        simp only [List.mem_cons, exists_eq_or_imp, members, restMembers]
  obtain ⟨parts, pairs, members⟩ := parts (pattern.matching env sourced.rows)
    fun entry member => Pattern.mem_matching_iff.mp member
  refine ⟨_, collectScans_cons_eq_ok_iff.mpr
    ⟨sourced, parts, evaluated, pairs, rfl⟩, ?_⟩
  intro output
  rw [Rows.mem_below_iff, members]
  constructor
  · rintro ⟨⟨index, row, inner⟩, member, holdsOutput⟩
    obtain ⟨found, binds⟩ := Pattern.mem_matching_iff.mp member
    exact ⟨row, List.mem_of_getElem? found, inner, binds, holdsOutput⟩
  · rintro ⟨row, member, inner, binds, holdsOutput⟩
    obtain ⟨index, found⟩ := List.getElem?_of_mem member
    exact ⟨(index, row, inner), Pattern.mem_matching_iff.mpr ⟨found, binds⟩,
      holdsOutput⟩

/-- A query that only scans puts out the rows of its source. -/
theorem eval_collect_scan {source : Expr}
    (evaluated : eval session call env (0 :: site) source =
      .ok (.collection kind rows))
    (matched : ∀ row ∈ rows, ∃ inner, pattern.bind row env = some inner) :
    eval session call env site (.collect ⟨[⟨pattern, some source⟩], []⟩) =
      .ok (.collection kind rows) := by
  have collected : collectScans session call
      (fun env site scanned =>
        evalSteps session call env site (.ofScanned scanned) [])
      env site [] [⟨pattern, some source⟩] = .ok ⟨kind, rows⟩ := by
    refine collectScans_cons_eq_ok_iff.mpr
      ⟨_, _, evalSource_some evaluated, ?_, (Rows.below_singletons rows).symm⟩
    rw [List.forall₂_map_right_iff]
    refine (Pattern.forall₂_matching matched).imp ?_
    rintro ⟨index, row, inner⟩ _ rfl
    rfl
  rw [eval, collected]
  rfl

end Expr

end RecursiveQuery
