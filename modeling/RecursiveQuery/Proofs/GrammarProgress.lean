import RecursiveQuery.Proofs.ParallelReading

/-!
# Progress of the grammar

Every reader of the grammar consumes a character where it succeeds and fails at
a suffix of its text.  What stands in brackets and behind keywords is therefore
read on shorter texts only, and so is what follows an item of a repetition.
Hence no nesting count and no count of repetitions is ever used up.
-/

namespace RecursiveQuery

/-- Equal texts and equal places. -/
def TextRelation.equal : TextRelation where
  texts := Eq
  places := Eq
  places_of_texts := fun _ _ => id

theorem Reply.Agrees.refl {α : Type} (reply : Reply α) :
    reply.Agrees .equal reply := by
  cases reply with
  | ok value rest => exact .ok rfl
  | mismatch position => exact .mismatch rfl
  | fatal position => exact .fatal rfl

theorem Reply.Agrees.eq {α : Type} {reply reply' : Reply α}
    (agrees : reply.Agrees .equal reply') : reply = reply' := by
  cases agrees with
  | ok same | mismatch same | fatal same => rw [same]

namespace Reader

variable {α : Type} {gap limit bound : Nat}

theorem Advances.parallel {reader : Reader α} (advances : reader.Advances gap) :
    Parallel .equal gap limit bound reader reader := by
  apply Parallel.of_advances advances advances
  intro text other same
  rw [same]
  exact .refl _

theorem Advances.of_parallel {reader : Reader α}
    (parallel : ∀ limit,
      Parallel .equal gap (limit + 1) (limit + 1) reader reader) :
    reader.Advances gap :=
  fun text => (parallel text.length text text rfl (Nat.lt_succ_self _)
    (Nat.lt_succ_self _)).leaves

theorem Parallel.eq {first second : Reader α}
    (parallel : Parallel .equal gap limit limit first second) {text : List Char}
    (short : text.length < limit) : first text = second text :=
  (parallel text text rfl short short).agrees.eq

/-- A reader that is like one with enough nesting on all texts below a limit. -/
theorem Parallel.of_nested {inner : Reader α} {reader : Nat → Reader α}
    (parallel : ∀ limit bound,
      Parallel .equal gap limit bound (reader limit) (reader bound))
    (same : ∀ text, text.length < limit →
      inner text = Reader.nested reader text) :
    Parallel .equal gap limit limit inner (reader limit) := by
  intro text other equal short short'
  rw [same text short]
  exact parallel _ _ _ _ equal (Nat.lt_succ_self _) short'

theorem equalTokens : ParallelTokens .equal where
  keyword := by
    intro word isWord limit bound
    obtain ⟨char, rest, letters, -, -⟩ := exists_of_isWord isWord
    apply advances_skip.parallel.behind
    intro _
    apply
      (advances_exactly (letters ▸ List.cons_ne_nil char rest)).parallel.bind
    intro _
    exact (advances_notBefore isWordRest).parallel
  symbol := by
    intro text member limit bound
    have nonempty : symbols.all (fun text => !text.toList.isEmpty) = true := by
      decide
    apply advances_skip.parallel.behind
    intro _
    apply (advances_exactly _).parallel
    simpa using List.all_eq_true.mp nonempty text member
  equalSign := by
    intro limit bound
    apply advances_skip.parallel.behind
    intro _
    apply (advances_exactly (by decide)).parallel.bind
    intro _
    exact (advances_notBefore (· == '>')).parallel
  identifier := by
    intro limit bound
    rw [identifier_eq]
    exact (advances_skip.behind fun _ => advances_identifierHere).parallel
  dottedPart := by
    intro limit bound
    apply (advances_exactly (by decide)).parallel.bind
    intro _
    exact advances_word.parallel.bind fun _ => .pure _
  integer := by
    intro limit bound
    rw [integer_eq]
    exact (advances_skip.behind fun _ => advances_integerHere).parallel
  string := by
    intro limit bound
    rw [string_eq]
    exact (advances_skip.behind fun _ => advances_stringHere).parallel

/-! ## The readers of the grammar -/

/-- Expressions that are no lambdas, with any nesting. -/
def operation : Reader Expr :=
  nested operatorsWithin

/-- The readers of the grammar: tokens, the levels of expressions, queries,
patterns, types and declarations, and the items that are repeated in them. -/
inductive InGrammar : {α : Type} → Reader α → Prop
  | symbol {text : String} (isSymbol : text ∈ symbols) : InGrammar (symbol text)
  | keyword {word : String} (isWord : isWord word.toList = true) :
      InGrammar (keyword word)
  | equalSign : InGrammar equalSign
  | word : InGrammar word
  | identifier : InGrammar identifier
  | dottedPart : InGrammar dottedPart
  | qualifiedIdentifier : InGrammar qualifiedIdentifier
  | integer : InGrammar integer
  | string : InGrammar string
  | literal : InGrammar literal
  | sumOp : InGrammar sumOp
  | comparisonOp : InGrammar comparisonOp
  | expr : InGrammar expr
  | lambda : InGrammar (lambda expr)
  | operation : InGrammar operation
  | atom : InGrammar (atom expr operation)
  | application {operand : Reader Expr} : InGrammar operand →
      InGrammar (application operand)
  | summand {operand : Reader Expr} : InGrammar operand →
      InGrammar (summand operand)
  | sum {operand : Reader Expr} : InGrammar operand → InGrammar (sum operand)
  | concatenation {operand : Reader Expr} : InGrammar operand →
      InGrammar (concatenation operand)
  | comparison {operand : Reader Expr} : InGrammar operand →
      InGrammar (comparison operand)
  | conjunction {operand : Reader Expr} : InGrammar operand →
      InGrammar (conjunction operand)
  | disjunction {operand : Reader Expr} : InGrammar operand →
      InGrammar (disjunction operand)
  | enclosed {α : Type} {opening closing : String} {item : Reader α}
      (opens : opening ∈ symbols)
      (closes : closing ∈ symbols) : InGrammar item →
        InGrammar (enclosed opening closing item)
  | behind {α : Type} {separator : Reader Unit} {item : Reader α} :
      InGrammar separator → InGrammar item → InGrammar (do separator; item)
  | separated {α : Type} {separator : Reader Unit} {item : Reader α} :
      InGrammar separator → InGrammar item →
        InGrammar (separated separator item)
  | query : InGrammar (query expr operation)
  | scan : InGrammar (scan operation)
  | step : InGrammar (step expr)
  | pattern : InGrammar pattern
  | type : InGrammar type
  | baseType : InGrammar (baseType type)
  | former : InGrammar former
  | collectionType {base : Reader Ty} : InGrammar base →
      InGrammar (collectionType base)
  | valueDecl : InGrammar valueDecl
  | functionDecl : InGrammar functionDecl
  | decl : InGrammar decl

theorem advances_expr : expr.Advances 1 :=
  .of_parallel fun _ => equalTokens.expr

theorem advances_operation : operation.Advances 1 :=
  .of_parallel fun _ => .nested fun limit bound =>
    (equalTokens.exprWithin limit bound).2

/-- Each reader of the grammar consumes a character where it succeeds, and fails
at a suffix of its text. -/
theorem advances_of_inGrammar {reader : Reader α}
    (inGrammar : InGrammar reader) : reader.Advances 1 := by
  have tokens := equalTokens
  have exprs (limit : Nat) : Parallel .equal 1 limit limit expr expr :=
    advances_expr.parallel
  have operations (limit : Nat) :
    Parallel .equal 1 limit limit operation operation :=
    advances_operation.parallel
  apply Advances.of_parallel
  intro limit
  induction inGrammar with
  | symbol isSymbol => exact tokens.symbol _ isSymbol _ _
  | keyword isWord => exact tokens.keyword _ isWord _ _
  | equalSign => exact tokens.equalSign _ _
  | word => exact advances_word.parallel
  | identifier => exact tokens.identifier _ _
  | dottedPart => exact tokens.dottedPart _ _
  | qualifiedIdentifier => exact tokens.qualifiedIdentifier
  | integer => exact tokens.integer _ _
  | string => exact tokens.string _ _
  | literal => exact tokens.literal
  | sumOp => exact tokens.sumOp
  | comparisonOp => exact tokens.comparisonOp
  | expr => exact exprs _
  | lambda => exact tokens.lambda (exprs _)
  | operation => exact operations _
  | atom => exact tokens.atom (exprs _) (operations _)
  | application _ operand => exact operand.chain operand
  | summand _ operand => exact tokens.summand operand
  | sum _ operand => exact tokens.sum operand
  | concatenation _ operand => exact tokens.concatenation operand
  | comparison _ operand => exact tokens.comparison operand
  | conjunction _ operand => exact tokens.conjunction operand
  | disjunction _ operand => exact tokens.disjunction operand
  | enclosed opens closes _ item =>
      apply tokens.enclosed opens closes
      intro text other same short short'
      exact item text other same (Nat.lt_succ_of_lt short)
        (Nat.lt_succ_of_lt short')
  | behind _ _ separator item => exact separator.bind fun _ => item
  | separated _ _ separator item => exact separator.separated item
  | query => exact tokens.query (exprs _) (operations _)
  | scan => exact tokens.scan (operations _)
  | step => exact tokens.step (exprs _)
  | pattern => exact tokens.pattern
  | type => exact tokens.type
  | baseType => exact tokens.baseType tokens.type
  | former => exact tokens.former
  | collectionType _ base => exact tokens.collectionType base
  | valueDecl => exact tokens.valueDecl
  | functionDecl => exact tokens.functionDecl
  | decl => exact tokens.decl

/-! ## Recursion on shorter texts -/

/-- A reader that a level of the grammar defines in terms of itself.  The level
runs it on shorter texts only: whatever it does on other texts, fatal failures
included, does not matter. -/
def Guarded (level : Reader α → Reader α) (reader : Reader α) : Prop :=
  ∀ inner text,
    (∀ shorter, shorter.length < text.length → inner shorter = reader shorter) →
    level inner text = reader text

/-- Two readers that two levels define in terms of both, again on shorter texts
only. -/
def GuardedBoth (level otherLevel : Reader α → Reader α → Reader α)
    (reader other : Reader α) : Prop :=
  ∀ inner innerOther text,
    (∀ shorter, shorter.length < text.length →
      inner shorter = reader shorter ∧ innerOther shorter = other shorter) →
    level inner innerOther text = reader text ∧
    otherLevel inner innerOther text = other text

theorem guarded_pattern : Guarded patternLevel pattern := by
  intro inner text same
  exact
    (equalTokens.patternLevel (.of_nested equalTokens.patternWithin same)).eq
    (Nat.lt_succ_self _)

theorem guarded_type : Guarded typeLevel type := by
  intro inner text same
  exact (equalTokens.typeLevel (.of_nested equalTokens.typeWithin same)).eq
    (Nat.lt_succ_self _)

/-- An operation, where given readers read expressions and sources of scans
inside it. -/
def operationLevel (inner innerOperation : Reader Expr) : Reader Expr :=
  operators (atom inner innerOperation)

/-- An expression, where given readers read expressions and sources of scans
inside it. -/
def exprLevel (inner innerOperation : Reader Expr) : Reader Expr :=
  or (lambda inner) (operationLevel inner innerOperation)

theorem guarded_expr : GuardedBoth exprLevel operationLevel expr operation := by
  intro inner innerOperation text same
  have bodies :
    Parallel .equal 1 text.length text.length inner (exprWithin text.length) :=
    .of_nested (fun limit bound => (equalTokens.exprWithin limit bound).1)
      fun shorter short => (same shorter short).1
  have sources : Parallel .equal 1 text.length text.length innerOperation
      (operatorsWithin text.length) :=
    .of_nested (fun limit bound => (equalTokens.exprWithin limit bound).2)
      fun shorter short => (same shorter short).2
  -- brackets and keywords take the character by which the texts inside are
  -- shorter
  have operations := equalTokens.operators (equalTokens.atom bodies sources)
  exact ⟨((equalTokens.lambda bodies).or operations).eq (Nat.lt_succ_self _),
    operations.eq (Nat.lt_succ_self _)⟩

/-- One round of a repetition.  It is refused where an item consumes nothing. -/
def round (item : Reader α) (again : Reader (List α)) :
    Reader (List α) := fun text =>
  match item text with
  | .ok value rest =>
      if rest.length = text.length then .mismatch text
      else (again rest).prepend value
  | .mismatch _ => .ok [] text
  | .fatal position => .fatal position

theorem guarded_many {item : Reader α} (advances : item.Advances 1) :
    Guarded (round item) (many item) := by
  intro again text same
  have leaves := advances text
  rw [many, manyUpTo_eq leaves (Nat.le_refl _), round]
  generalize item text = reply at leaves
  cases reply with
  | ok value rest =>
      obtain ⟨isSuffix, shorter⟩ := leaves
      -- the item took a character, so one repetition less is still enough for
      -- the rest
      have repeated : many item rest = manyUpTo item (text.length - 1) rest :=
        (advances.parallel.manyUpTo rfl (Nat.lt_succ_self _)
          (Nat.lt_succ_self _) (Nat.le_refl _) (by omega)).agrees.eq
      dsimp only
      rw [if_neg (by omega), same rest (by omega), repeated]
  | mismatch position => rfl
  | fatal position => rfl

end Reader

end RecursiveQuery
