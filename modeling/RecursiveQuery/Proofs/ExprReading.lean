import RecursiveQuery.Proofs.LevelReading

/-!
# Reading expressions

A written expression is read back at its own binding level, and therefore, with
brackets where its level is too low, at every place of a larger expression.
Operands that nest to the left or to the right are gathered along the spine of
the expression, so that a spine may still go on where it was read.
-/

namespace RecursiveQuery

variable {text : List Char} {items : List Expr}

namespace Reader

/-- A first operand and further ones that are concatenated from the right. -/
def ReadsConcatenation (nesting : Nat) (text : List Char) (expr : Expr)
    (rest : List Char) : Prop :=
  ∃ first middle items, atLevel nesting 5 text = .ok first middle ∧
    middle.length ≤ text.length ∧
    ReadsEach (do symbol "@"; atLevel nesting 5) middle items rest ∧
    concatenation.joinRight first items = expr

/-- An expression is read as one of its level, but operators of the level itself
may still follow. -/
def ReadsAt (nesting : Nat) :
    (level : Nat) → List Char → Expr → List Char → Prop
  | 1 => ReadsChain (atLevel nesting 2)
      (do keyword "orelse"; atLevel nesting 2) .orElse
  | 2 => ReadsChain (atLevel nesting 3)
      (do keyword "andalso"; atLevel nesting 3) .andAlso
  | 4 => ReadsConcatenation nesting
  | 5 =>
      ReadsChain (atLevel nesting 6)
        (do
          let op ← sumOp
          let operand ← atLevel nesting 6
          return (op, operand))
        fun left (op, right) => .binary op left right
  | 6 => ReadsChain (atLevel nesting 7) (atLevel nesting 7) .apply
  | level => fun text expr rest => atLevel nesting level text = .ok expr rest

theorem ReadsAt.read {nesting level : Nat} {text rest : List Char} {expr : Expr}
    (reads : ReadsAt nesting level text expr rest) (stops : Stops level rest) :
    atLevel nesting level text = .ok expr rest := by
  match level with
  | 0 | 3 | _ + 7 => exact reads
  | 1 => exact ReadsChain.read reads ((stops.noOrElse (by omega)).bind _)
  | 2 => exact ReadsChain.read reads ((stops.noAndAlso (by omega)).bind _)
  | 4 =>
      obtain ⟨first, middle, items, readFirst, _, readItems, rfl⟩ := reads
      have noMore := (stops.noAppend (by omega)).bind fun _ => atLevel nesting 5
      apply (bind_of_ok readFirst).trans
      exact (bind_of_ok (many_of_readsEach readItems noMore)).trans rfl
  | 5 => exact ReadsChain.read reads ((stops.noSumOp (by omega)).bind _)
  | 6 => exact ReadsChain.read reads (stops.noAtom (by omega) _ _)

/-- An operand of the next level is a spine of its own. -/
theorem readsAt_of_succ {nesting level : Nat} {rest : List Char} {expr : Expr}
    (chained : level ∈ [1, 2, 4, 5, 6]) (shorter : rest.length ≤ text.length)
    (read : atLevel nesting (level + 1) text = .ok expr rest) :
    ReadsAt nesting level text expr rest := by
  simp only [List.mem_cons, List.not_mem_nil, or_false] at chained
  rcases chained with rfl | rfl | rfl | rfl | rfl
  · exact ReadsChain.single read
  · exact ReadsChain.single read
  · exact ⟨expr, rest, [], read, shorter, .nil rest, rfl⟩
  · exact ReadsChain.single read
  · exact ReadsChain.single read

end Reader

namespace Expr

variable {least : Nat} {expr : Expr}

theorem level_le_seven (expr : Expr) : expr.level ≤ 7 := by
  cases expr with
  | binary op => cases op <;> simp [level, BinaryOp.level]
  | _ => simp [level]

theorem bracketBelow_of_lt (low : expr.level < least) (text : List Char) :
    expr.bracketBelow least text = '(' :: (text ++ [')']) :=
  if_pos low

theorem bracketBelow_of_le (high : least ≤ expr.level) (text : List Char) :
    expr.bracketBelow least text = text :=
  if_neg (Nat.not_lt.mpr high)

theorem charsList_eq_map (items : List Expr) :
    charsList items = items.map fun item => item.bracketBelow 1 item.chars := by
  induction items with
  | nil => rfl
  | cons item items induction => rw [charsList, induction, List.map_cons]

theorem chars_tuple (items : List Expr) :
    (tuple items).chars =
      '(' :: (List.intercalate ", ".toList
        (items.map fun item => item.bracketBelow 1 item.chars) ++ [')']) := by
  rw [← charsList_eq_map]
  rfl

theorem chars_list (items : List Expr) :
    (list items).chars =
      '[' :: (List.intercalate ", ".toList
        (items.map fun item => item.bracketBelow 1 item.chars) ++ [']']) := by
  rw [← charsList_eq_map]
  rfl

theorem chars_apply (function argument : Expr) :
    (apply function argument).chars =
      function.bracketBelow 6 function.chars ++ ' ' ::
        argument.bracketBelow 7 argument.chars :=
  rfl

theorem chars_lambda (param : Pattern) (body : Expr) :
    (lambda param body).chars =
    "fn ".toList ++ param.chars ++ " => ".toList ++ body.chars :=
  rfl

theorem chars_andAlso (left right : Expr) :
    (andAlso left right).chars =
      left.bracketBelow 2 left.chars ++
        ' ' :: ("andalso ".toList ++ right.bracketBelow 3 right.chars) :=
  List.append_assoc _ _ _

theorem chars_orElse (left right : Expr) :
    (orElse left right).chars =
      left.bracketBelow 1 left.chars ++
        ' ' :: ("orelse ".toList ++ right.bracketBelow 2 right.chars) :=
  List.append_assoc _ _ _

theorem chars_binary (op : BinaryOp) (left right : Expr) :
    (binary op left right).chars =
      left.bracketBelow op.leftLevel left.chars ++
        ' ' :: (op.symbol.toList ++ ' ' ::
          right.bracketBelow op.rightLevel right.chars) :=
  rfl

theorem bracketed_of_two (two : 2 ≤ items.length) :
    bracketed items = tuple items := by
  match items with
  | [] | [_] => simp at two
  | _ :: _ :: _ => rfl

end Expr

namespace Reader

/-- Where the text behind an expression of a level has to stop: open forms go on
as long as they can, and other ones only with operators of higher levels. -/
def behind : (level : Nat) → Nat
  | 0 => 0
  | level + 1 => level + 2

theorem le_behind (level : Nat) : level ≤ behind level := by
  cases level <;> simp [behind]

/-- Everything about the written form of an expression that the expressions
around it rely on. -/
structure Readable (expr : Expr) : Prop where
  solid : Solid expr.chars
  noLambda : 1 ≤ expr.level → ∀ rest, endsWord rest = true →
    Mismatches (keyword "fn") (expr.chars ++ rest)
  reads : ∀ nesting rest, expr.chars.length ≤ nesting →
    Stops (behind expr.level) rest →
    ReadsAt nesting expr.level (expr.chars ++ rest) expr rest

theorem atomWithin_of_enclosed {nesting : Nat} {text rest : List Char}
    {items : List Expr} (skipped : skip ('(' :: text) = .ok () ('(' :: text))
    (read : enclosed "(" ")" (exprWithin nesting) ('(' :: text) =
      .ok items rest) :
    atomWithin nesting ('(' :: text) = .ok (.bracketed items) rest := by
  have noLiteral := mismatches_literal_bracket skipped
  have noFrom : Mismatches (keyword "from") ('(' :: text) :=
    mismatches_keyword skipped rfl (by decide)
  have noExists : Mismatches (keyword "exists") ('(' :: text) :=
    mismatches_keyword skipped rfl (by decide)
  apply (choice_of_mismatches (noLiteral.bind _)).trans
  apply (choice_of_mismatches (noFrom.bind _)).trans
  apply (choice_of_mismatches (noExists.bind _)).trans
  apply choice_of_ok
  exact (bind_of_ok read).trans rfl

theorem atomWithin_of_list {nesting : Nat} {rest : List Char}
    (read : enclosed "[" "]" (exprWithin nesting) ('[' :: text) =
      .ok items rest) :
    atomWithin nesting ('[' :: text) = .ok (.list items) rest := by
  have noLiteral : Mismatches literal ('[' :: text) := ⟨_, rfl⟩
  have noFrom : Mismatches (keyword "from") ('[' :: text) := ⟨_, rfl⟩
  have noExists : Mismatches (keyword "exists") ('[' :: text) := ⟨_, rfl⟩
  have noBracket : Mismatches (symbol "(") ('[' :: text) := ⟨_, rfl⟩
  have noTuple :
    Mismatches (enclosed "(" ")" (exprWithin nesting)) ('[' :: text) :=
    noBracket.bind _
  rw [atomWithin, atom, choice_of_mismatches (noLiteral.bind _),
    choice_of_mismatches (noFrom.bind _),
    choice_of_mismatches (noExists.bind _),
    choice_of_mismatches (noTuple.bind _)]
  apply choice_of_ok
  exact (bind_of_ok read).trans rfl

namespace Readable

variable {expr : Expr} {nesting level : Nat} {rest : List Char}

theorem own (readable : Readable expr) (enough : expr.chars.length ≤ nesting)
    (stops : Stops expr.level rest) :
    atLevel nesting expr.level (expr.chars ++ rest) = .ok expr rest :=
  (readable.reads nesting rest enough (stops.mono (le_behind _))).read stops

/-- A whole expression is read where nothing follows that belongs to it. -/
theorem whole (readable : Readable expr) (enough : expr.chars.length ≤ nesting)
    (stops : Stops 0 rest) :
    atLevel nesting 0 (expr.chars ++ rest) = .ok expr rest := by
  have read := readable.own enough (stops.mono (Nat.zero_le _))
  cases open_ : expr.level with
  | zero => rwa [open_] at read
  | succ level =>
      have noLambda := readable.noLambda (by omega) rest
        (endsWord_of_endsToken stops.endsToken)
      apply atLevel_zero_of_one noLambda
      exact atLevel_of_le (by omega) (by omega) expr.level_le_seven
        (stops.mono (by omega)) read

theorem bracketed (readable : Readable expr)
    (enough : expr.chars.length + 1 ≤ nesting) :
    atomWithin nesting ('(' :: (expr.chars ++ ')' :: rest)) =
      .ok expr rest := by
  obtain ⟨inner, rfl⟩ : ∃ inner, nesting = inner + 1 := ⟨nesting - 1, by omega⟩
  have skipped := (readable.solid (')' :: rest)).2
  have read : exprWithin (inner + 1) (expr.chars ++ ')' :: rest) =
    .ok expr (')' :: rest) :=
    readable.whole (by omega) (.bracket rest)
  exact atomWithin_of_enclosed skipped
    (enclosed_single (symbol_of_skip skipped) read ⟨_, rfl⟩ rfl)

theorem solidOperand (readable : Readable expr) :
    Solid (expr.bracketBelow level expr.chars) := by
  by_cases low : expr.level < level
  · rw [Expr.bracketBelow_of_lt low]
    exact (readable.solid.append _).bracket
  · rw [Expr.bracketBelow_of_le (Nat.not_lt.mp low)]
    exact readable.solid

theorem noLambdaOperand (readable : Readable expr) (least : 1 ≤ level)
    (ends : endsWord rest = true) :
    Mismatches (keyword "fn") (expr.bracketBelow level expr.chars ++ rest) := by
  by_cases low : expr.level < level
  · have skipped := (readable.solid (')' :: rest)).2
    have noLambda : Mismatches (keyword "fn") _ :=
      mismatches_keyword skipped rfl (by decide)
    rw [Expr.bracketBelow_of_lt low]
    simpa using noLambda
  · rw [Expr.bracketBelow_of_le (Nat.not_lt.mp low)]
    exact readable.noLambda (by omega) rest ends

/-- An expression is read back at every place, with brackets if its level is
too low for the place. -/
theorem operand (readable : Readable expr) (least : 1 ≤ level)
    (most : level ≤ 7)
    (enough : (expr.bracketBelow level expr.chars).length ≤ nesting)
    (stops : Stops level rest) :
    Reads (atLevel nesting level) (expr.bracketBelow level expr.chars) expr
      rest := by
  apply (SkipsBlank.atLevel nesting level).reads
  by_cases low : expr.level < level
  · rw [Expr.bracketBelow_of_lt low] at enough ⊢
    simp only [List.length_cons, List.length_append] at enough
    have read : atLevel nesting 7 _ = .ok expr rest :=
      readable.bracketed (by omega)
    simpa using atLevel_of_le least most (Nat.le_refl 7) stops read
  · have high := Nat.not_lt.mp low
    rw [Expr.bracketBelow_of_le high] at enough ⊢
    have read := readable.own enough (stops.mono high)
    exact atLevel_of_le least high expr.level_le_seven stops read

/-- An expression is read as the beginning of a longer spine. -/
theorem spine (readable : Readable expr) (chained : level ∈ [1, 2, 4, 5, 6])
    (enough : (expr.bracketBelow level expr.chars).length ≤ nesting)
    (stops : Stops (level + 1) rest) :
    ReadsAt nesting level (expr.bracketBelow level expr.chars ++ rest) expr
      rest := by
  have bounds : 1 ≤ level ∧ level ≤ 6 := by
    simp only [List.mem_cons, List.not_mem_nil, or_false] at chained
    omega
  by_cases own : expr.level = level
  · rw [Expr.bracketBelow_of_le (Nat.le_of_eq own.symm)] at enough ⊢
    have reads := readable.reads nesting rest enough
    rw [own] at reads
    apply reads
    obtain ⟨lower, rfl⟩ : ∃ lower, level = lower + 1 := ⟨level - 1, by omega⟩
    exact stops
  · -- At another level the brackets are those that the next level asks for.
    have same : expr.bracketBelow level expr.chars =
      expr.bracketBelow (level + 1) expr.chars := by
      by_cases low : expr.level < level
      · rw [Expr.bracketBelow_of_lt low, Expr.bracketBelow_of_lt (by omega)]
      · rw [Expr.bracketBelow_of_le (by omega),
          Expr.bracketBelow_of_le (by omega)]
    rw [same] at enough ⊢
    apply readsAt_of_succ chained (by simp)
    exact (readable.operand (by omega) (by omega) enough stops).plain

/-- An item of a list, or the expression of a step. -/
theorem item (readable : Readable expr)
    (enough : (expr.bracketBelow 1 expr.chars).length < nesting)
    (stops : Stops 1 rest) :
    Reads (exprWithin nesting) (expr.bracketBelow 1 expr.chars) expr rest := by
  obtain ⟨inner, rfl⟩ : ∃ inner, nesting = inner + 1 := ⟨nesting - 1, by omega⟩
  have ends := endsWord_of_endsToken stops.endsToken
  have read := (readable.operand (by omega) (by omega)
    (Nat.le_of_lt_succ enough) stops).plain
  apply (SkipsBlank.atLevel inner 0).reads
  exact atLevel_zero_of_one (readable.noLambdaOperand (by omega) ends) read

theorem literal {value : Literal} (wellFormed : value.isWellFormed = true) :
    Readable (.literal value) where
  solid := Solid.literal value
  noLambda _ _ ends :=
    mismatches_keyword_literal (by decide) (by decide) (by decide) ends
  reads nesting rest _ stops := by
    by_cases unit : value = .unit
    · subst unit
      apply @atomWithin_of_enclosed nesting (')' :: rest) rest [] rfl
      cases nesting <;> rfl
    · have ends := endsWord_of_endsToken stops.endsToken
      apply choice_of_ok
      exact (bind_of_ok (literal_of_isWellFormed wellFormed unit ends)).trans
        rfl

theorem var {name : Name} (qualified : name.isQualified = true) :
    Readable (.var name) := by
  obtain ⟨first, parts, identifier, words, spelled⟩ :=
    exists_of_isQualified qualified
  have solid : Solid name.toList := by
    rw [spelled]
    exact (Solid.word (isWord_of_isIdentifier identifier)).append _
  have noKeyword : ∀ word ∈ keywords, ∀ rest, endsWord rest = true →
      Mismatches (keyword word) (name.toList ++ rest) := by
    intro word isKeyword rest ends
    rw [spelled, List.append_assoc]
    exact mismatches_keyword_identifier isKeyword identifier
      (endsWord_dottedParts ends)
  refine ⟨solid, fun _ => noKeyword "fn" (by decide), ?_⟩
  intro nesting rest _ stops
  have ends := endsWord_of_endsToken stops.endsToken
  have noLiteral : Mismatches Reader.literal (name.toList ++ rest) := by
    rw [spelled, List.append_assoc]
    exact mismatches_literal_identifier identifier (endsWord_dottedParts ends)
  have noBracket : Mismatches (symbol "(") (name.toList ++ rest) := by
    rw [spelled, List.append_assoc]
    exact mismatches_symbol_identifier rfl (by decide) identifier
  have noSquareBracket : Mismatches (symbol "[") (name.toList ++ rest) := by
    rw [spelled, List.append_assoc]
    exact mismatches_symbol_identifier rfl (by decide) identifier
  apply (choice_of_mismatches (noLiteral.bind _)).trans
  apply (choice_of_mismatches
    ((noKeyword "from" (by decide) rest ends).bind _)).trans
  apply (choice_of_mismatches
    ((noKeyword "exists" (by decide) rest ends).bind _)).trans
  apply (choice_of_mismatches ((noBracket.bind _).bind _)).trans
  apply (choice_of_mismatches ((noSquareBracket.bind _).bind _)).trans
  exact (bind_of_ok
    (qualifiedIdentifier_of_isQualified qualified stops.endsToken)).trans rfl

/-- The items of a tuple or a list are read between their brackets. -/
theorem readsItems {items : List Expr}
    (readable : ∀ item ∈ items, Readable item)
    (enough : (List.intercalate ", ".toList
      (items.map fun item => item.bracketBelow 1 item.chars)).length <
      nesting) :
    ∀ item ∈ items, ∀ rest, Stops 1 rest →
      Reads (exprWithin nesting) (item.bracketBelow 1 item.chars) item
        rest := by
  intro item member rest stops
  apply (readable item member).item _ stops
  have shorter := length_le_intercalate ", ".toList
    (List.mem_map_of_mem
      (f := fun item : Expr => item.bracketBelow 1 item.chars) member)
  omega

theorem tuple {items : List Expr} (two : 2 ≤ items.length)
    (readable : ∀ item ∈ items, Readable item) : Readable (.tuple items) := by
  have solid : Solid (Expr.tuple items).chars := by
    rw [Expr.chars_tuple]
    match items with
    | [] => simp at two
    | first :: items =>
        rw [intercalate_map, List.append_assoc]
        exact
          ((readable first List.mem_cons_self).solidOperand.append _).bracket
  refine ⟨solid, ?_, ?_⟩
  · intro _ rest _
    have skipped := (solid rest).1
    rw [Expr.chars_tuple] at skipped ⊢
    exact mismatches_keyword skipped rfl (by decide)
  · intro nesting rest enough _
    have skipped := (solid rest).1
    rw [Expr.chars_tuple] at enough skipped ⊢
    simp only [List.length_cons, List.length_append] at enough
    simp only [List.cons_append, List.append_assoc] at skipped ⊢
    have reads := @readsItems nesting items readable (by omega)
    have read : enclosed "(" ")" (exprWithin nesting) _ = .ok items rest :=
      enclosed_intercalate (Stops 1) (symbol_of_skip skipped) rfl
        (fun rest => .comma _ (by omega)) (.bracket rest) ⟨_, rfl⟩ reads
        (by rintro rfl; simp at two)
    have read := atomWithin_of_enclosed skipped read
    rwa [Expr.bracketed_of_two two] at read

theorem list (readable : ∀ item ∈ items, Readable item) :
    Readable (.list items) := by
  refine ⟨?_, ?_, ?_⟩
  · rw [Expr.chars_list]
    exact Solid.of_head (by decide) (by decide) (by decide)
  · intro _ rest _
    rw [Expr.chars_list]
    exact ⟨_, rfl⟩
  · intro nesting rest enough _
    rw [Expr.chars_list] at enough ⊢
    simp only [List.length_cons, List.length_append] at enough
    simp only [List.cons_append, List.append_assoc]
    have reads := @readsItems nesting items readable (by omega)
    have read : enclosed "[" "]" (exprWithin nesting)
        ('[' :: (List.intercalate ", ".toList
          (items.map fun item => item.bracketBelow 1 item.chars) ++ ']' ::
          rest)) =
          .ok items rest := by
      match items with
      | [] => cases nesting <;> rfl
      | first :: others =>
          exact enclosed_intercalate (Stops 1) rfl rfl
            (fun rest => .comma _ (by omega))
            (.squareBracket rest (by omega)) ⟨_, rfl⟩ reads (by simp)
    apply atomWithin_of_list
    exact read

theorem operator_of_ok {operator : Reader BinaryOp} {operand : Reader Expr}
    {op : BinaryOp} {middle : List Char}
    (readOperator : operator text = .ok op middle)
    (readOperand : operand middle = .ok expr rest) :
    (do
      let op ← operator
      let operand ← operand
      return (op, operand) : Reader (BinaryOp × Expr)) text =
      .ok (op, expr) rest := by
  rw [bind_of_ok readOperator, bind_of_ok readOperand]
  rfl

/-- A form with a left operand begins as the operand does. -/
theorem of_left {left : Expr} {tail : List Char} (readable : Readable left)
    (least : 1 ≤ level)
    (spelled : expr.chars = left.bracketBelow level left.chars ++ ' ' :: tail)
    (reads : ∀ nesting rest,
      (left.bracketBelow level left.chars).length ≤ nesting →
        tail.length ≤ nesting →
      Stops (behind expr.level) rest →
      ReadsAt nesting expr.level
        (left.bracketBelow level left.chars ++ ' ' :: (tail ++ rest))
          expr rest) :
    Readable expr := by
  refine ⟨?_, ?_, ?_⟩
  · rw [spelled]
    exact readable.solidOperand.append _
  · intro _ rest _
    rw [spelled, List.append_assoc]
    exact readable.noLambdaOperand least rfl
  · intro nesting rest enough stops
    rw [spelled] at enough ⊢
    rw [List.length_append, List.length_cons] at enough
    rw [List.append_assoc, List.cons_append]
    exact reads nesting rest (by omega) (by omega) stops

section Operators

variable {left right : Expr} (readableLeft : Readable left)
  (readableRight : Readable right)
variable {op : BinaryOp}

include readableLeft readableRight

theorem apply : Readable (.apply left right) := by
  apply of_left readableLeft (by decide) (Expr.chars_apply left right)
  intro nesting rest leftEnough rightEnough stops
  have first := readableLeft.spine (by decide) leftEnough
    (.argument (right.bracketBelow 7 right.chars ++ rest) (Nat.le_refl 7))
  have second := readableRight.operand (by decide) (by decide) rightEnough stops
  exact ReadsChain.snoc first second.blank
    (@length_lt_append [' '] (by decide) _ rest)

theorem orElse : Readable (.orElse left right) := by
  apply of_left readableLeft (by decide) (Expr.chars_orElse left right)
  intro nesting rest leftEnough tailEnough stops
  rw [List.length_append] at tailEnough
  rw [List.append_assoc]
  have first := @spine left nesting 1 _ readableLeft (by decide) leftEnough
    (.orElse (right.bracketBelow 2 right.chars ++ rest) (Nat.le_refl 2))
  have second :=
    @operand right nesting 2 rest readableRight (by decide) (by decide)
    (by omega) stops
  have connective : keyword "orelse"
      (" orelse ".toList ++ (right.bracketBelow 2 right.chars ++ rest)) =
        .ok () (' ' :: (right.bracketBelow 2 right.chars ++ rest)) := rfl
  exact ReadsChain.snoc first ((bind_of_ok connective).trans second.blank)
    (length_lt_append (by decide) _ rest)

theorem andAlso : Readable (.andAlso left right) := by
  apply of_left readableLeft (by decide) (Expr.chars_andAlso left right)
  intro nesting rest leftEnough tailEnough stops
  rw [List.length_append] at tailEnough
  rw [List.append_assoc]
  have first := @spine left nesting 2 _ readableLeft (by decide) leftEnough
    (.andAlso (right.bracketBelow 3 right.chars ++ rest) (Nat.le_refl 3))
  have second :=
    @operand right nesting 3 rest readableRight (by decide) (by decide)
    (by omega) stops
  have connective : keyword "andalso"
      (" andalso ".toList ++ (right.bracketBelow 3 right.chars ++ rest)) =
        .ok () (' ' :: (right.bracketBelow 3 right.chars ++ rest)) := rfl
  exact ReadsChain.snoc first ((bind_of_ok connective).trans second.blank)
    (length_lt_append (by decide) _ rest)

/-- A comparison is read once, whatever follows it. -/
theorem comparison (isComparison : op.level = 3) :
    Readable (.binary op left right) := by
  have leftLevel : op.leftLevel = 4 := by
    cases op <;> first | rfl | contradiction
  have rightLevel : op.rightLevel = 4 := by
    cases op <;> first | rfl | contradiction
  have spelled := Expr.chars_binary op left right
  rw [leftLevel, rightLevel] at spelled
  apply of_left readableLeft (by decide) spelled
  intro nesting rest leftEnough tailEnough stops
  change Stops (behind op.level) rest at stops
  rw [isComparison] at stops
  rw [List.length_append, List.length_cons] at tailEnough
  rw [List.append_assoc, List.cons_append]
  have first := readableLeft.operand (by decide) (by decide) leftEnough
    (.operator op (right.bracketBelow 4 right.chars ++ rest) (by omega))
  have second :=
    @operand right nesting 4 rest readableRight (by decide) (by decide)
    (by omega) stops
  have operator : comparisonOp (' ' :: (op.symbol.toList ++
      ' ' :: (right.bracketBelow 4 right.chars ++ rest))) =
        .ok op (' ' :: (right.bracketBelow 4 right.chars ++ rest)) := by
    cases op <;> first | rfl | contradiction
  change ReadsAt nesting op.level _ _ _
  rw [isComparison]
  apply (bind_of_ok first.plain).trans
  exact (bind_of_ok
    (optional_of_ok (operator_of_ok operator second.blank))).trans rfl

theorem sum (isSum : op.level = 5) : Readable (.binary op left right) := by
  have leftLevel : op.leftLevel = 5 := by
    cases op <;> first | rfl | contradiction
  have rightLevel : op.rightLevel = 6 := by
    cases op <;> first | rfl | contradiction
  have spelled := Expr.chars_binary op left right
  rw [leftLevel, rightLevel] at spelled
  apply of_left readableLeft (by decide) spelled
  intro nesting rest leftEnough tailEnough stops
  change Stops (behind op.level) rest at stops
  rw [isSum] at stops
  rw [List.length_append, List.length_cons] at tailEnough
  rw [List.append_assoc, List.cons_append]
  have first := @spine left nesting 5 _ readableLeft (by decide) leftEnough
    (.operator op (right.bracketBelow 6 right.chars ++ rest) (by omega))
  have second :=
    @operand right nesting 6 rest readableRight (by decide) (by decide)
    (by omega) stops
  have operator : sumOp (' ' :: (op.symbol.toList ++
      ' ' :: (right.bracketBelow 6 right.chars ++ rest))) =
        .ok op (' ' :: (right.bracketBelow 6 right.chars ++ rest)) := by
    cases op <;> first | rfl | contradiction
  change ReadsAt nesting op.level _ _ _
  rw [isSum]
  apply ReadsChain.snoc first (operator_of_ok operator second.blank)
  simp only [List.length_append, List.length_cons]
  omega

/-- A concatenation leads the spine of its right operand. -/
theorem append : Readable (.binary .append left right) := by
  have spelled : (Expr.binary .append left right).chars =
      left.bracketBelow 5 left.chars ++
        ' ' :: ("@".toList ++ ' ' :: right.bracketBelow 4 right.chars) := rfl
  apply of_left readableLeft (by decide) spelled
  intro nesting rest leftEnough tailEnough stops
  rw [List.length_append, List.length_cons] at tailEnough
  rw [List.append_assoc, List.cons_append]
  have first :=
    @operand left nesting 5 _ readableLeft (by decide) (by decide) leftEnough
    (.operator .append (right.bracketBelow 4 right.chars ++ rest) (by decide))
  obtain ⟨next, middle, items, readNext, shorter, readItems, joined⟩ :=
    @spine right nesting 4 rest readableRight (by decide) (by omega) stops
  have operator : symbol "@" (' ' :: ("@".toList ++
      ' ' :: (right.bracketBelow 4 right.chars ++ rest))) =
        .ok () (' ' :: (right.bracketBelow 4 right.chars ++ rest)) := rfl
  have readBlank := (SkipsBlank.atLevel nesting 5 _).trans readNext
  refine ⟨left, _, next :: items, first.plain, by simp [BinaryOp.symbol],
    .cons ((bind_of_ok operator).trans readBlank) ?_ readItems,
    congrArg (Expr.binary .append left) joined⟩
  simp only [List.length_append, List.length_cons] at shorter ⊢
  omega

end Operators

theorem lambda {param : Pattern} {body : Expr}
    (wellFormed : param.isWellFormed = true) (readable : Readable body) :
    Readable (.lambda param body) := by
  have spelled : (Expr.lambda param body).chars =
      "fn ".toList ++ (param.chars ++ (" => ".toList ++ body.chars)) := by
    rw [Expr.chars_lambda, List.append_assoc, List.append_assoc]
  refine ⟨?_, ?_, ?_⟩
  · rw [spelled]
    exact Solid.of_head (by decide) (by decide) (by decide)
  · intro positive
    simp [Expr.level] at positive
  · intro nesting rest enough stops
    rw [spelled] at enough ⊢
    simp only [List.length_append] at enough
    simp only [List.append_assoc]
    have opening : "fn ".toList.length = 3 := rfl
    obtain ⟨inner, rfl⟩ : ∃ inner, nesting = inner + 1 :=
      ⟨nesting - 1, by omega⟩
    have readKeyword : keyword "fn" ("fn ".toList ++ (param.chars ++
        (" => ".toList ++ (body.chars ++ rest)))) =
          .ok () (' ' ::
            (param.chars ++ (" => ".toList ++ (body.chars ++ rest)))) := rfl
    have readParam :=
      (@Reads.pattern param (" => ".toList ++ (body.chars ++ rest))
      wellFormed rfl).blank
    have readArrow : symbol "=>" (" => ".toList ++ (body.chars ++ rest)) =
        .ok () (' ' :: (body.chars ++ rest)) := rfl
    have readBody : exprWithin (inner + 1) (' ' :: (body.chars ++ rest)) =
      .ok body rest :=
      (SkipsBlank.atLevel inner 0 _).trans (readable.whole (by omega) stops)
    apply or_of_ok
    apply (bind_of_ok readKeyword).trans
    apply (bind_of_ok readParam).trans
    apply (bind_of_ok readArrow).trans
    exact (bind_of_ok readBody).trans rfl

end Readable

end Reader

end RecursiveQuery
