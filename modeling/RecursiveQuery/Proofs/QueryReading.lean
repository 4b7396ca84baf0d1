import RecursiveQuery.Proofs.ExprReading

/-!
# Reading comprehensions

Comprehensions are open forms: a scan or a step ends where the next one begins,
and the last of them where the surrounding form ends.  With them every
well-formed expression is read back.
-/

namespace RecursiveQuery

namespace Expr

/-- The text of a scan. -/
def charsScan : Scan → List Char
  | ⟨pattern, none⟩ => pattern.chars
  | ⟨pattern, some source⟩ =>
      pattern.chars ++ " in ".toList ++ source.bracketBelow 1 source.chars

theorem charsScans_eq_map (scans : List Scan) :
    charsScans scans = scans.map charsScan := by
  induction scans with
  | nil => rfl
  | cons scan scans induction =>
      obtain ⟨pattern, source⟩ := scan
      cases source with
      | none => exact congrArg (pattern.chars :: ·) induction
      | some source =>
          exact congrArg (charsScan ⟨pattern, some source⟩ :: ·) induction

end Expr

namespace Reader

variable {rest : List Char}

/-- A scan whose parts are read back. -/
structure ReadableScan (scan : Scan) : Prop where
  pattern : scan.pattern.isWellFormed = true
  source : ∀ source, scan.source = some source → Readable source

theorem ReadableScan.reads {scan : Scan} {nesting : Nat}
    (readable : ReadableScan scan)
    (enough : (Expr.charsScan scan).length < nesting) (stops : Stops 1 rest) :
    Reads (Reader.scan (operatorsWithin nesting)) (Expr.charsScan scan) scan
      rest := by
  obtain ⟨inner, rfl⟩ : ∃ inner, nesting = inner + 1 := ⟨nesting - 1, by omega⟩
  obtain ⟨pattern, source⟩ := scan
  cases source with
  | none =>
      have ends := endsWord_of_endsToken stops.endsToken
      have readPattern := @Reads.pattern pattern rest readable.pattern ends
      have noSource :
        Mismatches (do keyword "in"; operatorsWithin (inner + 1)) rest :=
        (stops.noIn (by omega)).bind _
      constructor
      · apply (bind_of_ok readPattern.plain).trans
        exact (bind_of_ok (optional_of_mismatches noSource)).trans rfl
      · apply (bind_of_ok readPattern.blank).trans
        exact (bind_of_ok (optional_of_mismatches noSource)).trans rfl
  | some source =>
      simp only [Expr.charsScan, List.length_append] at enough ⊢
      have readSource :=
        @Readable.operand source inner 1 rest (readable.source source rfl)
        (by omega) (by omega) (by omega) stops
      have readPattern := @Reads.pattern pattern
        (" in ".toList ++ (source.bracketBelow 1 source.chars ++ rest))
        readable.pattern rfl
      have readKeyword : keyword "in"
          (" in ".toList ++ (source.bracketBelow 1 source.chars ++ rest)) =
            .ok () (' ' :: (source.bracketBelow 1 source.chars ++ rest)) := rfl
      have readsSource :
        (do keyword "in"; operatorsWithin (inner + 1) : Reader Expr) _ =
          .ok source rest := (bind_of_ok readKeyword).trans readSource.blank
      constructor
      · rw [List.append_assoc, List.append_assoc]
        apply (bind_of_ok readPattern.plain).trans
        exact (bind_of_ok (optional_of_ok readsSource)).trans rfl
      · rw [List.append_assoc, List.append_assoc]
        apply (bind_of_ok readPattern.blank).trans
        exact (bind_of_ok (optional_of_ok readsSource)).trans rfl

theorem step_filter {expr : Reader Expr} {condition : Expr} {text : List Char}
    (read : Reads expr text condition rest) :
    step expr (" where ".toList ++ (text ++ rest)) =
      .ok (.filter condition) rest := by
  have readKeyword : keyword "where" (" where ".toList ++ (text ++ rest)) =
      .ok () (' ' :: (text ++ rest)) := rfl
  apply or_of_ok
  apply (bind_of_ok readKeyword).trans
  exact (bind_of_ok read.blank).trans rfl

theorem step_yield {expr : Reader Expr} {value : Expr} {text : List Char}
    (read : Reads expr text value rest) :
    step expr (" yield ".toList ++ (text ++ rest)) =
      .ok (.yield value) rest := by
  have noFilter : Mismatches (keyword "where")
    (" yield ".toList ++ (text ++ rest)) := ⟨_, rfl⟩
  have readKeyword : keyword "yield" (" yield ".toList ++ (text ++ rest)) =
      .ok () (' ' :: (text ++ rest)) := rfl
  rw [step, or_of_mismatches (noFilter.bind _)]
  apply (bind_of_ok readKeyword).trans
  exact (bind_of_ok read.blank).trans rfl

/-- The steps of a comprehension are read, and each of them ends what stands
before it. -/
theorem readsEach_step {steps : List Step} {nesting : Nat} {rest : List Char}
    (readable : ∀ step ∈ steps, Readable step.expr)
    (enough : (Expr.charsSteps steps).length < nesting) (stops : Stops 0 rest) :
    Stops 1 (Expr.charsSteps steps ++ rest) ∧
      Mismatches (symbol ",") (Expr.charsSteps steps ++ rest) ∧
      ReadsEach (step (exprWithin nesting)) (Expr.charsSteps steps ++ rest)
        steps rest := by
  induction steps with
  | nil => exact ⟨stops.mono (by omega), stops.noComma, .nil rest⟩
  | cons step steps induction =>
      have readableStep := readable step List.mem_cons_self
      have readableLater : ∀ other ∈ steps, Readable other.expr :=
        fun other member => readable other (List.mem_cons_of_mem _ member)
      cases step with
      | filter condition =>
          have spelled : Expr.charsSteps (.filter condition :: steps) =
              " where ".toList ++ (condition.bracketBelow 1 condition.chars ++
                Expr.charsSteps steps) := List.append_assoc _ _ _
          rw [spelled] at enough ⊢
          simp only [List.length_append] at enough
          obtain ⟨nextStops, _, later⟩ := induction readableLater (by omega)
          have read := step_filter
            (@Readable.item condition nesting _ readableStep (by omega)
              nextStops)
          rw [List.append_assoc, List.append_assoc]
          exact ⟨.filter _ (by omega), ⟨_, rfl⟩,
            .cons read (length_lt_append (by decide) _ _) later⟩
      | yield value =>
          have spelled : Expr.charsSteps (.yield value :: steps) =
              " yield ".toList ++ (value.bracketBelow 1 value.chars ++
                Expr.charsSteps steps) := List.append_assoc _ _ _
          rw [spelled] at enough ⊢
          simp only [List.length_append] at enough
          obtain ⟨nextStops, _, later⟩ := induction readableLater (by omega)
          have read := step_yield
            (@Readable.item value nesting _ readableStep (by omega) nextStops)
          rw [List.append_assoc, List.append_assoc]
          exact ⟨.yield _ (by omega), ⟨_, rfl⟩,
            .cons read (length_lt_append (by decide) _ _) later⟩

/-- A comprehension whose parts are read back. -/
structure ReadableQuery (query : Query) : Prop where
  nonempty : query.scans ≠ []
  scans : ∀ scan ∈ query.scans, ReadableScan scan
  steps : ∀ step ∈ query.steps, Readable step.expr

theorem ReadableQuery.read {query : Query} {nesting : Nat}
    (readable : ReadableQuery query)
    (enough : (Expr.charsQuery query).length < nesting) (stops : Stops 0 rest) :
    Reader.query (exprWithin nesting) (operatorsWithin nesting)
      (' ' :: (Expr.charsQuery query ++ rest)) = .ok query rest := by
  obtain ⟨scans, steps⟩ := query
  have spelled : Expr.charsQuery ⟨scans, steps⟩ =
      List.intercalate ", ".toList (scans.map Expr.charsScan) ++
        Expr.charsSteps steps := by
    rw [← Expr.charsScans_eq_map]
    rfl
  rw [spelled] at enough ⊢
  rw [List.length_append] at enough
  obtain ⟨scansStop, noComma, readSteps⟩ :=
    @readsEach_step steps nesting rest readable.steps (by omega) stops
  have readsScans : ∀ scan ∈ scans, ∀ rest, Stops 1 rest →
      Reads (Reader.scan (operatorsWithin nesting)) (Expr.charsScan scan) scan
        rest := by
    intro scan member rest stops
    have shorter := length_le_intercalate ", ".toList
      (List.mem_map_of_mem (f := Expr.charsScan) member)
    exact (readable.scans scan member).reads (by omega) stops
  have gapStops : ∀ rest, Stops 1 (", ".toList ++ rest) :=
    fun _ => .comma _ (Nat.le_refl 1)
  have readScans :
    Reads (separated (symbol ",") (Reader.scan (operatorsWithin nesting)))
      (List.intercalate ", ".toList (scans.map Expr.charsScan)) scans
      (Expr.charsSteps steps ++ rest) :=
    separated_intercalate (Stops 1) (fun _ => rfl) (by decide) gapStops
      readsScans scansStop noComma readable.nonempty
  rw [List.append_assoc]
  apply (bind_of_ok readScans.blank).trans
  exact (bind_of_ok (many_of_readsEach readSteps (stops.noStep _))).trans rfl

namespace Readable

/-- An open form that is read as an atom, as long as nothing goes on with it. -/
theorem of_atom {expr : Expr} (isOpen : expr.level = 0)
    (solid : Solid expr.chars)
    (noLambda : ∀ rest, Mismatches (keyword "fn") (expr.chars ++ rest))
    (read : ∀ nesting rest, expr.chars.length ≤ nesting → Stops 0 rest →
      atomWithin nesting (expr.chars ++ rest) = .ok expr rest) :
      Readable expr := by
  refine ⟨solid, ?_, ?_⟩
  · intro positive
    omega
  · intro nesting rest enough stops
    rw [isOpen] at stops ⊢
    apply atLevel_zero_of_one (noLambda rest)
    exact atLevel_of_le (by omega) (by omega) (Nat.le_refl 7)
      (stops.mono (by simp [behind])) (read nesting rest enough stops)

theorem collect {query : Query} (readable : ReadableQuery query) :
    Readable (.collect query) := by
  have spelled : (Expr.collect query).chars =
    "from ".toList ++ Expr.charsQuery query := rfl
  apply of_atom rfl
  · rw [spelled]
    exact Solid.of_head (by decide) (by decide) (by decide)
  · intro rest
    rw [spelled]
    exact ⟨_, rfl⟩
  · intro nesting rest enough stops
    rw [spelled] at enough ⊢
    rw [List.length_append] at enough
    rw [List.append_assoc]
    have opening : "from ".toList.length = 5 := rfl
    have noLiteral : Mismatches Reader.literal
        ("from ".toList ++ (Expr.charsQuery query ++ rest)) := ⟨_, rfl⟩
    have readKeyword :
      keyword "from" ("from ".toList ++ (Expr.charsQuery query ++ rest)) =
        .ok () (' ' :: (Expr.charsQuery query ++ rest)) := rfl
    rw [atomWithin, atom, choice_of_mismatches (noLiteral.bind _)]
    apply choice_of_ok
    apply (bind_of_ok readKeyword).trans
    exact (bind_of_ok (readable.read (by omega) stops)).trans rfl

theorem existence {query : Query} (readable : ReadableQuery query) :
    Readable (.existence query) := by
  have spelled : (Expr.existence query).chars =
    "exists ".toList ++ Expr.charsQuery query := rfl
  apply of_atom rfl
  · rw [spelled]
    exact Solid.of_head (by decide) (by decide) (by decide)
  · intro rest
    rw [spelled]
    exact ⟨_, rfl⟩
  · intro nesting rest enough stops
    rw [spelled] at enough ⊢
    rw [List.length_append] at enough
    rw [List.append_assoc]
    have opening : "exists ".toList.length = 7 := rfl
    have noLiteral : Mismatches Reader.literal
        ("exists ".toList ++ (Expr.charsQuery query ++ rest)) := ⟨_, rfl⟩
    have noFrom : Mismatches (keyword "from")
        ("exists ".toList ++ (Expr.charsQuery query ++ rest)) := ⟨_, rfl⟩
    have readKeyword :
      keyword "exists" ("exists ".toList ++ (Expr.charsQuery query ++ rest)) =
        .ok () (' ' :: (Expr.charsQuery query ++ rest)) := rfl
    rw [atomWithin, atom, choice_of_mismatches (noLiteral.bind _),
      choice_of_mismatches (noFrom.bind _)]
    apply choice_of_ok
    apply (bind_of_ok readKeyword).trans
    exact (bind_of_ok (readable.read (by omega) stops)).trans rfl

end Readable

mutual

/-- Every well-formed expression is read back wherever it may stand. -/
theorem readable (expr : Expr) (wellFormed : expr.isWellFormed = true) :
    Readable expr := by
  match expr with
  | .literal value =>
      simp only [Expr.isWellFormed] at wellFormed
      exact Readable.literal wellFormed
  | .var name =>
      simp only [Expr.isWellFormed] at wellFormed
      exact Readable.var wellFormed
  | .tuple items =>
      simp only [Expr.isWellFormed, Bool.and_eq_true,
        decide_eq_true_eq] at wellFormed
      exact Readable.tuple wellFormed.1 (readableItems items wellFormed.2)
  | .list items =>
      simp only [Expr.isWellFormed] at wellFormed
      exact Readable.list (readableItems items wellFormed)
  | .apply function argument =>
      simp only [Expr.isWellFormed, Bool.and_eq_true] at wellFormed
      exact Readable.apply (readable function wellFormed.1)
        (readable argument wellFormed.2)
  | .lambda param body =>
      simp only [Expr.isWellFormed, Bool.and_eq_true] at wellFormed
      exact Readable.lambda wellFormed.1 (readable body wellFormed.2)
  | .andAlso left right =>
      simp only [Expr.isWellFormed, Bool.and_eq_true] at wellFormed
      exact Readable.andAlso (readable left wellFormed.1)
        (readable right wellFormed.2)
  | .orElse left right =>
      simp only [Expr.isWellFormed, Bool.and_eq_true] at wellFormed
      exact Readable.orElse (readable left wellFormed.1)
        (readable right wellFormed.2)
  | .binary op left right =>
      simp only [Expr.isWellFormed, Bool.and_eq_true] at wellFormed
      have readableLeft := readable left wellFormed.1
      have readableRight := readable right wellFormed.2
      cases op with
      | append => exact Readable.append readableLeft readableRight
      | add | sub => exact Readable.sum readableLeft readableRight rfl
      | _ => exact Readable.comparison readableLeft readableRight rfl
  | .collect ⟨scans, steps⟩ =>
      simp only [Expr.isWellFormed, Expr.isWellFormedQuery, Bool.and_eq_true,
        decide_eq_true_eq] at wellFormed
      obtain ⟨⟨nonempty, scansWellFormed⟩, stepsWellFormed⟩ := wellFormed
      exact Readable.collect ⟨List.ne_nil_of_length_pos nonempty,
        readableScans scans scansWellFormed,
        readableSteps steps stepsWellFormed⟩
  | .existence ⟨scans, steps⟩ =>
      simp only [Expr.isWellFormed, Expr.isWellFormedQuery, Bool.and_eq_true,
        decide_eq_true_eq] at wellFormed
      obtain ⟨⟨nonempty, scansWellFormed⟩, stepsWellFormed⟩ := wellFormed
      exact Readable.existence ⟨List.ne_nil_of_length_pos nonempty,
        readableScans scans scansWellFormed,
        readableSteps steps stepsWellFormed⟩
termination_by structural expr

theorem readableItems (items : List Expr)
    (wellFormed : Expr.areWellFormed items = true) :
    ∀ item ∈ items, Readable item := by
  intro item member
  match items with
  | [] => simp at member
  | first :: others =>
      simp only [Expr.areWellFormed, Bool.and_eq_true] at wellFormed
      have readableFirst := readable first wellFormed.1
      rcases List.mem_cons.mp member with rfl | later
      · exact readableFirst
      · exact readableItems others wellFormed.2 item later
termination_by structural items

theorem readableScans (scans : List Scan)
    (wellFormed : Expr.areWellFormedScans scans = true) :
    ∀ scan ∈ scans, ReadableScan scan := by
  intro scan member
  match scans with
  | [] => simp at member
  | ⟨pattern, none⟩ :: others =>
      simp only [Expr.areWellFormedScans, Bool.and_eq_true] at wellFormed
      rcases List.mem_cons.mp member with rfl | later
      · exact ⟨wellFormed.1, by simp⟩
      · exact readableScans others wellFormed.2 scan later
  | ⟨pattern, some source⟩ :: others =>
      simp only [Expr.areWellFormedScans, Bool.and_eq_true] at wellFormed
      have readableSource := readable source wellFormed.1.2
      rcases List.mem_cons.mp member with rfl | later
      · exact ⟨wellFormed.1.1, by simpa using readableSource⟩
      · exact readableScans others wellFormed.2 scan later
termination_by structural scans

theorem readableSteps (steps : List Step)
    (wellFormed : Expr.areWellFormedSteps steps = true) :
    ∀ step ∈ steps, Readable step.expr := by
  intro step member
  match steps with
  | [] => simp at member
  | .filter expr :: others | .yield expr :: others =>
      simp only [Expr.areWellFormedSteps, Bool.and_eq_true] at wellFormed
      rcases List.mem_cons.mp member with rfl | later
      · exact readable expr wellFormed.1
      · exact readableSteps others wellFormed.2 step later
termination_by structural steps

end

end Reader

end RecursiveQuery
