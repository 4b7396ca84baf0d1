import RecursiveQuery.Proofs.PatternReading

/-!
# Reading at binding levels

The reader of a binding level stops where no operator of that level or a higher
one goes on.  So an operand that was read at a higher level is also read at
every lower one, down to the first operator of its context.
-/

namespace RecursiveQuery

namespace Reader

/-- The atoms with this nesting count inside them. -/
def atomWithin (nesting : Nat) : Reader Expr :=
  atom (exprWithin nesting) (operatorsWithin nesting)

/-- The reader of a binding level. -/
def atLevel (nesting : Nat) : (level : Nat) → Reader Expr
  | 0 => or (lambda (exprWithin nesting)) (operators (atomWithin nesting))
  | 1 => operators (atomWithin nesting)
  | 2 => conjunction
      (comparison (concatenation (sum (application (atomWithin nesting)))))
  | 3 => comparison (concatenation (sum (application (atomWithin nesting))))
  | 4 => concatenation (sum (application (atomWithin nesting)))
  | 5 => sum (application (atomWithin nesting))
  | 6 => application (atomWithin nesting)
  | _ => atomWithin nesting

/-- Texts that cannot continue what was read at a binding level: the end of the
surrounding form, or an operator of a lower level. -/
inductive Stops : (level : Nat) → List Char → Prop where
  | nil {level : Nat} : Stops level []
  | bracket {level : Nat} (rest : List Char) : Stops level (')' :: rest)
  | semicolon {level : Nat} (rest : List Char) : Stops level (';' :: rest)
  | squareBracket {level : Nat} (rest : List Char) : 1 ≤ level →
      Stops level (']' :: rest)
  | comma {level : Nat} (rest : List Char) : 1 ≤ level →
      Stops level (',' :: rest)
  | filter {level : Nat} (rest : List Char) : 1 ≤ level →
      Stops level (" where ".toList ++ rest)
  | yield {level : Nat} (rest : List Char) : 1 ≤ level →
      Stops level (" yield ".toList ++ rest)
  | orElse {level : Nat} (rest : List Char) : 2 ≤ level →
      Stops level (" orelse ".toList ++ rest)
  | andAlso {level : Nat} (rest : List Char) :
      3 ≤ level → Stops level (" andalso ".toList ++ rest)
  | operator {level : Nat} (op : BinaryOp) (rest : List Char) :
      op.level < level → Stops level (' ' :: (op.symbol.toList ++ ' ' :: rest))
  | argument {level : Nat} (rest : List Char) : 7 ≤ level →
      Stops level (' ' :: rest)

namespace Stops

variable {level : Nat} {rest : List Char}

theorem mono {higher : Nat} (stops : Stops level rest) (le : level ≤ higher) :
    Stops higher rest := by
  cases stops with
  | nil => exact .nil
  | bracket => exact .bracket _
  | semicolon => exact .semicolon _
  | squareBracket _ least => exact .squareBracket _ (by omega)
  | comma _ least => exact .comma _ (by omega)
  | filter _ least => exact .filter _ (by omega)
  | yield _ least => exact .yield _ (by omega)
  | orElse _ least => exact .orElse _ (by omega)
  | andAlso _ least => exact .andAlso _ (by omega)
  | operator op _ least => exact .operator op _ (by omega)
  | argument _ least => exact .argument _ (by omega)

theorem endsToken (stops : Stops level rest) : endsToken rest = true := by
  cases stops <;> rfl

theorem noAtom (stops : Stops level rest) (below : level ≤ 6)
    (expr disjunction : Reader Expr) :
    Mismatches (atom expr disjunction) rest := by
  cases stops with
  | operator op _ least => cases op <;> exact ⟨_, rfl⟩
  | argument _ least => omega
  | _ => exact ⟨_, rfl⟩

theorem noSumOp (stops : Stops level rest) (below : level ≤ 5) :
    Mismatches sumOp rest := by
  cases stops with
  | operator op _ least =>
      cases op with
      | add | sub => simp only [BinaryOp.level] at least; omega
      | _ => exact ⟨_, rfl⟩
  | argument _ least => omega
  | _ => exact ⟨_, rfl⟩

theorem noAppend (stops : Stops level rest) (below : level ≤ 4) :
    Mismatches (symbol "@") rest := by
  cases stops with
  | operator op _ least =>
      cases op with
      | append | add | sub => simp only [BinaryOp.level] at least; omega
      | _ => exact ⟨_, rfl⟩
  | argument _ least => omega
  | _ => exact ⟨_, rfl⟩

theorem noComparisonOp (stops : Stops level rest) (below : level ≤ 3) :
    Mismatches comparisonOp rest := by
  cases stops with
  | operator op _ least =>
      cases op <;> simp only [BinaryOp.level] at least <;> omega
  | argument _ least => omega
  | _ => exact ⟨_, rfl⟩

theorem noAndAlso (stops : Stops level rest) (below : level ≤ 2) :
    Mismatches (keyword "andalso") rest := by
  cases stops with
  | operator op _ least =>
      cases op <;> simp only [BinaryOp.level] at least <;> omega
  | andAlso _ least | argument _ least => omega
  | _ => exact ⟨_, rfl⟩

theorem noOrElse (stops : Stops level rest) (below : level ≤ 1) :
    Mismatches (keyword "orelse") rest := by
  cases stops with
  | operator op _ least =>
      cases op <;> simp only [BinaryOp.level] at least <;> omega
  | orElse _ least | andAlso _ least | argument _ least => omega
  | _ => exact ⟨_, rfl⟩

theorem noIn (stops : Stops level rest) (below : level ≤ 1) :
    Mismatches (keyword "in") rest := by
  cases stops with
  | operator op _ least =>
      cases op <;> simp only [BinaryOp.level] at least <;> omega
  | orElse _ least | andAlso _ least | argument _ least => omega
  | _ => exact ⟨_, rfl⟩

theorem noStep (stops : Stops 0 rest) (expr : Reader Expr) :
    Mismatches (step expr) rest := by
  cases stops with
  | nil | bracket | semicolon => exact ⟨_, rfl⟩
  | squareBracket _ least | comma _ least | filter _ least | yield _ least
  | orElse _ least
  | andAlso _ least | argument _ least => omega
  | operator op _ least => omega

theorem noComma (stops : Stops 0 rest) : Mismatches (symbol ",") rest := by
  cases stops with
  | nil | bracket | semicolon => exact ⟨_, rfl⟩
  | squareBracket _ least | comma _ least | filter _ least | yield _ least
  | orElse _ least
  | andAlso _ least | argument _ least => omega
  | operator op _ least => omega

end Stops

section Lifting

variable {nesting level : Nat} {text rest : List Char} {expr : Expr}

theorem SkipsBlank.atomWithin (nesting : Nat) :
    SkipsBlank (Reader.atomWithin nesting) := by
  apply SkipsBlank.choice
  intro reader member
  simp only [List.mem_cons, List.not_mem_nil, or_false] at member
  rcases member with rfl | rfl | rfl | rfl | rfl | rfl
  · exact SkipsBlank.literal.bind _
  · exact (SkipsBlank.keyword _).bind _
  · exact (SkipsBlank.keyword _).bind _
  · exact ((SkipsBlank.symbol _).bind _).bind _
  · exact ((SkipsBlank.symbol _).bind _).bind _
  · exact SkipsBlank.qualifiedIdentifier.bind _

theorem SkipsBlank.atLevel (nesting level : Nat) :
    SkipsBlank (Reader.atLevel nesting level) := by
  have atom := SkipsBlank.atomWithin nesting
  match level with
  | 0 =>
      exact ((SkipsBlank.keyword _).bind _).or
        ((((((atom.bind _).bind _).bind _).bind _).bind _).bind _)
  | 1 => exact (((((atom.bind _).bind _).bind _).bind _).bind _).bind _
  | 2 => exact ((((atom.bind _).bind _).bind _).bind _).bind _
  | 3 => exact (((atom.bind _).bind _).bind _).bind _
  | 4 => exact ((atom.bind _).bind _).bind _
  | 5 => exact (atom.bind _).bind _
  | 6 => exact atom.bind _
  | _ + 7 => exact atom

/-- What stops the operators of a level need not be read at the next level. -/
theorem atLevel_of_succ (least : 1 ≤ level) (most : level ≤ 6)
    (stops : Stops level rest)
    (read : atLevel nesting (level + 1) text = .ok expr rest) :
    atLevel nesting level text = .ok expr rest := by
  match level with
  | 0 => omega
  | 1 =>
      exact (ReadsChain.single read).read ((stops.noOrElse (by omega)).bind _)
  | 2 =>
      exact (ReadsChain.single read).read ((stops.noAndAlso (by omega)).bind _)
  | 3 =>
      apply (bind_of_ok read).trans
      apply (bind_of_ok (optional_of_mismatches
        ((stops.noComparisonOp (by omega)).bind _))).trans
      rfl
  | 4 =>
      have noMore := (stops.noAppend (by omega)).bind fun _ => atLevel nesting 5
      apply (bind_of_ok read).trans
      exact (bind_of_ok (many_of_readsEach (.nil rest) noMore)).trans rfl
  | 5 => exact (ReadsChain.single read).read ((stops.noSumOp (by omega)).bind _)
  | 6 => exact (ReadsChain.single read).read (stops.noAtom (by omega) _ _)
  | _ + 7 => omega

theorem atLevel_of_le {higher : Nat} (least : 1 ≤ level) (le : level ≤ higher)
    (most : higher ≤ 7) (stops : Stops level rest)
    (read : atLevel nesting higher text = .ok expr rest) :
    atLevel nesting level text = .ok expr rest := by
  obtain ⟨distance, rfl⟩ : ∃ distance, higher = level + distance :=
    ⟨higher - level, by omega⟩
  induction distance with
  | zero => exact read
  | succ distance induction =>
      apply induction (by omega) (by omega)
      exact atLevel_of_succ (by omega) (by omega) (stops.mono (by omega)) read

theorem atLevel_zero_of_one (noLambda : Mismatches (keyword "fn") text)
    (read : atLevel nesting 1 text = .ok expr rest) :
    atLevel nesting 0 text = .ok expr rest :=
  (or_of_mismatches (noLambda.bind _)).trans read

end Lifting

end Reader

end RecursiveQuery
