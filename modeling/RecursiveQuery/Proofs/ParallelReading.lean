import Mathlib.Data.List.Forall2
import RecursiveQuery.Proofs.PatternReading
import RecursiveQuery.Proofs.ReadProgress

/-!
# Reading two texts in parallel

Two readers run in parallel on related texts if they return the same value and
leave related rests, or fail alike.  They do if their parts do.  The nesting
counts of the two sides may differ, as long as each is above the length of its
text; every level of nesting consumes a character of both.  Hence the whole
grammar runs in parallel on two texts as soon as its tokens do.
-/

namespace RecursiveQuery

/-- Which texts are read in parallel, and which places of failures correspond.
Two readers may fail before they consume anything. -/
structure TextRelation where
  texts : List Char → List Char → Prop
  places : List Char → List Char → Prop
  places_of_texts : ∀ text other, texts text other → places text other

/-- Two replies of one kind, with one value and related rests or with
corresponding places. -/
inductive Reply.Agrees {α : Type} (related : TextRelation) :
    Reply α → Reply α → Prop
  | ok {value : α} {rest rest' : List Char}
      (restsRelated : related.texts rest rest') :
      Agrees related (.ok value rest) (.ok value rest')
  | mismatch {position position' : List Char}
      (corresponds : related.places position position') :
      Agrees related (.mismatch position) (.mismatch position')
  | fatal {position position' : List Char}
      (corresponds : related.places position position') :
      Agrees related (.fatal position) (.fatal position')

theorem Reply.Agrees.prepend {α : Type} {related : TextRelation}
    {reply reply' : Reply (List α)} (agrees : reply.Agrees related reply')
    (value : α) :
    (reply.prepend value).Agrees related (reply'.prepend value) := by
  cases agrees with
  | ok restsRelated => exact .ok restsRelated
  | mismatch corresponds => exact .mismatch corresponds
  | fatal corresponds => exact .fatal corresponds

namespace Reader

variable {α β : Type} {related : TextRelation}

/-- What two readers reply on two texts: each reply leaves what it may, and the
two agree. -/
structure ParallelAt (related : TextRelation) (gap : Nat)
    (text other : List Char) (reply reply' : Reply α) : Prop where
  leaves : reply.Leaves gap text
  leaves' : reply'.Leaves gap other
  agrees : reply.Agrees related reply'

/-- The length of a text suffices as the number of repetitions. -/
theorem manyUpTo_eq {item : Reader α} {text : List Char} {times : Nat}
    (leaves : (item text).Leaves 1 text) (enough : text.length ≤ times) :
    manyUpTo item times text =
      match item text with
      | .ok value rest => (manyUpTo item (times - 1) rest).prepend value
      | .mismatch _ => .ok [] text
      | .fatal position => .fatal position := by
  cases times with
  | zero =>
      cases List.length_eq_zero_iff.mp (Nat.le_zero.mp enough)
      rw [leaves.eq_mismatch]
      rfl
  | succ times =>
      simp only [manyUpTo, Nat.add_sub_cancel]
      cases item text with
      | ok value rest =>
          dsimp only
          cases manyUpTo item times rest <;> rfl
      | mismatch position => rfl
      | fatal position => rfl

/-- Two readers run in parallel on related texts below two lengths. -/
def Parallel (related : TextRelation) (gap limit bound : Nat)
    (first second : Reader α) : Prop :=
  ∀ text other, related.texts text other → text.length < limit →
    other.length < bound →
    ParallelAt related gap text other (first text) (second other)

namespace Parallel

variable {gap more less limit bound : Nat}

theorem of_advances {first second : Reader α} (advances : first.Advances gap)
    (advances' : second.Advances gap)
    (agrees : ∀ text other, related.texts text other →
      (first text).Agrees related (second other)) :
    Parallel related gap limit bound first second :=
  fun text other isRelated _ _ =>
    ⟨advances text, advances' other, agrees text other isRelated⟩

theorem limit_zero (first second : Reader α) :
    Parallel related gap 0 bound first second :=
  fun _ _ _ short _ => absurd short (Nat.not_lt_zero _)

theorem bound_zero (first second : Reader α) :
    Parallel related gap limit 0 first second :=
  fun _ _ _ _ short' => absurd short' (Nat.not_lt_zero _)

theorem weaken {first second : Reader α} (fewer : less ≤ gap)
    (parallel : Parallel related gap limit bound first second) :
    Parallel related less limit bound first second := by
  intro text other isRelated short short'
  have replies := parallel text other isRelated short short'
  exact ⟨replies.leaves.weaken fewer, replies.leaves'.weaken fewer,
    replies.agrees⟩

theorem pure (value : α) :
    Parallel related 0 limit bound (Pure.pure value) (Pure.pure value) := by
  intro text other isRelated _ _
  exact ⟨⟨List.suffix_refl _, Nat.le_refl _⟩,
    ⟨List.suffix_refl _, Nat.le_refl _⟩, .ok isRelated⟩

theorem refuse : Parallel related gap limit bound (Reader.refuse : Reader α)
    Reader.refuse := by
  intro text other isRelated _ _
  exact ⟨List.suffix_refl text, List.suffix_refl other,
    .mismatch (related.places_of_texts text other isRelated)⟩

section Bind

variable {first second : Reader α} {next next' : α → Reader β}
  {limitLater boundLater : Nat}

/-- What comes later reads shorter texts, by what is consumed before. -/
theorem bind_add (parallel : Parallel related gap limit bound first second)
    (fits : limit ≤ limitLater + gap) (fits' : bound ≤ boundLater + gap)
    (later : ∀ value,
      Parallel related more limitLater boundLater (next value) (next' value)) :
    Parallel related (gap + more) limit bound (first >>= next)
      (second >>= next') := by
  intro text other isRelated short short'
  have replies := parallel text other isRelated short short'
  change ParallelAt related (gap + more) text other
    (Reader.bind first next text) (Reader.bind second next' other)
  rw [Reader.bind, Reader.bind]
  generalize first text = reply at replies
  generalize second other = reply' at replies
  obtain ⟨leaves, leaves', agrees⟩ := replies
  cases agrees with
  | @ok value rest rest' restsRelated =>
      obtain ⟨isSuffix, shorter⟩ := leaves
      obtain ⟨isSuffix', shorter'⟩ := leaves'
      have replies := later value rest rest' restsRelated (by omega) (by omega)
      exact ⟨replies.leaves.behind isSuffix shorter,
        replies.leaves'.behind isSuffix' shorter', replies.agrees⟩
  | mismatch corresponds => exact ⟨leaves, leaves', .mismatch corresponds⟩
  | fatal corresponds => exact ⟨leaves, leaves', .fatal corresponds⟩

theorem bind (parallel : Parallel related gap limit bound first second)
    (later : ∀ value,
      Parallel related more limit bound (next value) (next' value)) :
    Parallel related gap limit bound (first >>= next) (second >>= next') :=
  (parallel.bind_add (Nat.le_add_right _ _) (Nat.le_add_right _ _) later).weaken
    (Nat.le_add_right _ _)

/-- Behind a character that is consumed, the nesting counts may be less by
one. -/
theorem after
    (parallel : Parallel related 1 (limit + 1) (bound + 1) first second)
    (later : ∀ value,
      Parallel related more limit bound (next value) (next' value)) :
    Parallel related 1 (limit + 1) (bound + 1) (first >>= next)
      (second >>= next') :=
  (parallel.bind_add (Nat.le_refl _) (Nat.le_refl _) later).weaken
    (Nat.le_add_right _ _)

/-- Behind blanks. -/
theorem behind (parallel : Parallel related 0 limit bound first second)
    (later : ∀ value,
      Parallel related gap limit bound (next value) (next' value)) :
    Parallel related gap limit bound (first >>= next) (second >>= next') :=
  (parallel.bind_add (Nat.le_refl _) (Nat.le_refl _) later).weaken
    (Nat.le_add_left _ _)

end Bind

theorem or {first first' second second' : Reader α}
    (parallel : Parallel related gap limit bound first first')
    (parallelSecond : Parallel related gap limit bound second second') :
    Parallel related gap limit bound (Reader.or first second)
      (Reader.or first' second') := by
  intro text other isRelated short short'
  have replies := parallel text other isRelated short short'
  rw [Reader.or, Reader.or]
  generalize first text = reply at replies
  generalize first' other = reply' at replies
  have agrees := replies.agrees
  cases agrees with
  | ok restsRelated => exact replies
  | mismatch => exact parallelSecond text other isRelated short short'
  | fatal => exact replies

theorem choice {readers readers' : List (Reader α)}
    (parallel : List.Forall₂ (Parallel related gap limit bound) readers
      readers') :
    Parallel related gap limit bound (Reader.choice readers)
      (Reader.choice readers') := by
  induction parallel with
  | nil => exact refuse
  | cons first others induction =>
      cases others with
      | nil => exact first
      | cons second others => exact first.or induction

theorem optional {item item' : Reader α}
    (parallel : Parallel related gap limit bound item item') :
    Parallel related 0 limit bound (Reader.optional item)
      (Reader.optional item') := by
  intro text other isRelated short short'
  have replies :=
    (parallel.weaken (Nat.zero_le _)) text other isRelated short short'
  rw [Reader.optional, Reader.optional]
  generalize item text = reply at replies
  generalize item' other = reply' at replies
  obtain ⟨leaves, leaves', agrees⟩ := replies
  cases agrees with
  | ok restsRelated => exact ⟨leaves, leaves', .ok restsRelated⟩
  | mismatch => exact Parallel.pure none text other isRelated short short'
  | fatal corresponds => exact ⟨leaves, leaves', .fatal corresponds⟩

/-- A repetition ends on both sides at once, since no item is read at the end of
a text. -/
theorem manyUpTo {item item' : Reader α}
    (parallel : Parallel related 1 limit bound item item')
    {text other : List Char} {times times' : Nat}
    (isRelated : related.texts text other) (short : text.length < limit)
    (short' : other.length < bound) (enough : text.length ≤ times)
    (enough' : other.length ≤ times') :
    ParallelAt related 0 text other (Reader.manyUpTo item times text)
      (Reader.manyUpTo item' times' other) := by
  have replies := parallel text other isRelated short short'
  rw [manyUpTo_eq replies.leaves enough, manyUpTo_eq replies.leaves' enough']
  generalize item text = reply at replies
  generalize item' other = reply' at replies
  obtain ⟨leaves, leaves', agrees⟩ := replies
  cases agrees with
  | @ok value rest rest' restsRelated =>
      obtain ⟨isSuffix, shorter⟩ := leaves
      obtain ⟨isSuffix', shorter'⟩ := leaves'
      have others := @manyUpTo item item' parallel rest rest' (times - 1)
        (times' - 1) restsRelated (by omega) (by omega) (by omega) (by omega)
      exact ⟨(others.leaves.within isSuffix).prepend value,
        (others.leaves'.within isSuffix').prepend value,
        others.agrees.prepend value⟩
  | mismatch => exact Parallel.pure [] text other isRelated short short'
  | fatal corresponds => exact ⟨leaves, leaves', .fatal corresponds⟩
termination_by text.length

theorem many {item item' : Reader α}
    (parallel : Parallel related 1 limit bound item item') :
    Parallel related 0 limit bound (Reader.many item) (Reader.many item') :=
  fun _ _ isRelated short short' =>
    parallel.manyUpTo isRelated short short' (Nat.le_refl _) (Nat.le_refl _)

theorem separated {separator : Reader Unit} {item item' : Reader α}
    (parted : Parallel related 1 limit bound separator separator)
    (parallel : Parallel related 1 limit bound item item') :
    Parallel related 1 limit bound (Reader.separated separator item)
      (Reader.separated separator item') := by
  apply parallel.bind
  intro first
  apply (many (parted.bind fun _ => parallel)).bind
  intro others
  exact .pure (first :: others)

theorem nested {reader reader' : Nat → Reader α}
    (parallel : ∀ limit bound,
      Parallel related gap limit bound (reader limit) (reader' bound)) :
    Parallel related gap limit bound (Reader.nested reader)
      (Reader.nested reader') :=
  fun _ _ isRelated _ _ =>
    parallel _ _ _ _ isRelated (Nat.lt_succ_self _) (Nat.lt_succ_self _)

/-- An operand and further items that are combined with it. -/
theorem chain {γ : Type} {operand operand' : Reader α} {item item' : Reader β}
    {combine : α → List β → γ}
    (parallel : Parallel related 1 limit bound operand operand')
    (parallelItem : Parallel related 1 limit bound item item') :
    Parallel related 1 limit bound
      (do
        let first ← operand
        let items ← Reader.many item
        return combine first items)
      (do
        let first ← operand'
        let items ← Reader.many item'
        return combine first items) := by
  apply parallel.bind
  intro first
  apply parallelItem.many.bind
  intro items
  exact .pure (combine first items)

end Parallel

/-! ## Tokens and grammar -/

/-- The symbols of the grammar. -/
def symbols : List String :=
  ["(", ")", "[", "]", ",", "*", "+", "-", "@", "<>", "<=", ">=", "<", ">",
    "=>", ":", ";"]

/-- A pattern, where a given reader reads what stands in brackets. -/
def patternLevel (inner : Reader Pattern) : Reader Pattern :=
  choice [
    (do keyword "_"; return .wildcard),
    (do return .literal (← literal)),
    (do return .bracketed (← enclosed "(" ")" inner)),
    (do return .var (← identifier))]

/-- A type, where a given reader reads what stands in brackets. -/
def typeLevel (inner : Reader Ty) : Reader Ty := do
  let parts ← separated (symbol "*") (collectionType (baseType inner))
  match parts with
  | [type] => return type
  | types => return .tuple types

/-- An operator of sums and its right operand. -/
def summand (operand : Reader Expr) : Reader (BinaryOp × Expr) := do
  let op ← sumOp
  let operand ← operand
  return (op, operand)

/-- All tokens are read in parallel on related texts. -/
structure ParallelTokens (related : TextRelation) : Prop where
  keyword : ∀ word, isWord word.toList = true → ∀ limit bound,
    Parallel related 1 limit bound (keyword word) (keyword word)
  symbol : ∀ text ∈ symbols, ∀ limit bound,
    Parallel related 1 limit bound (symbol text) (symbol text)
  equalSign : ∀ limit bound, Parallel related 1 limit bound equalSign equalSign
  identifier : ∀ limit bound,
    Parallel related 1 limit bound identifier identifier
  dottedPart : ∀ limit bound,
    Parallel related 1 limit bound dottedPart dottedPart
  integer : ∀ limit bound, Parallel related 1 limit bound integer integer
  string : ∀ limit bound, Parallel related 1 limit bound string string

namespace ParallelTokens

variable {limit bound : Nat} (tokens : ParallelTokens related)

include tokens

theorem qualifiedIdentifier :
    Parallel related 1 limit bound qualifiedIdentifier qualifiedIdentifier :=
  (tokens.identifier limit bound).chain (tokens.dottedPart limit bound)

theorem literal : Parallel related 1 limit bound literal literal := by
  apply Parallel.choice
  apply List.Forall₂.cons ((tokens.integer limit bound).bind fun _ => .pure _)
  apply List.Forall₂.cons ((tokens.string limit bound).bind fun _ => .pure _)
  apply List.Forall₂.cons
    ((tokens.keyword "true" (by decide) limit bound).bind fun _ => .pure _)
  apply List.Forall₂.cons
    ((tokens.keyword "false" (by decide) limit bound).bind fun _ => .pure _)
  exact .nil

theorem enclosed {opening closing : String} {item item' : Reader α}
    (opens : opening ∈ symbols) (closes : closing ∈ symbols)
    (parallel : Parallel related 1 limit bound item item') :
    Parallel related 1 (limit + 1) (bound + 1) (enclosed opening closing item)
      (enclosed opening closing item') := by
  have items :=
    Parallel.separated (tokens.symbol "," (by decide) limit bound) parallel
  apply (tokens.symbol opening opens _ _).after
  intro _
  apply ((items.weaken (Nat.zero_le _)).or (.pure [])).bind
  intro values
  apply (tokens.symbol closing closes limit bound).bind
  intro _
  exact .pure values

theorem patternLevel {inner inner' : Reader Pattern}
    (parallel : Parallel related 1 limit bound inner inner') :
    Parallel related 1 (limit + 1) (bound + 1) (patternLevel inner)
      (patternLevel inner') := by
  have brackets := tokens.enclosed (by decide : "(" ∈ symbols)
    (by decide : ")" ∈ symbols) parallel
  apply Parallel.choice
  apply List.Forall₂.cons
    ((tokens.keyword "_" (by decide) _ _).bind fun _ => .pure _)
  apply List.Forall₂.cons (tokens.literal.bind fun _ => .pure _)
  apply List.Forall₂.cons (brackets.bind fun _ => .pure _)
  apply List.Forall₂.cons ((tokens.identifier _ _).bind fun _ => .pure _)
  exact .nil

theorem patternWithin (limit bound : Nat) :
    Parallel related 1 limit bound (patternWithin limit)
      (patternWithin bound) := by
  match limit, bound with
  | 0, _ => exact .limit_zero _ _
  | _ + 1, 0 => exact .bound_zero _ _
  | limit + 1, bound + 1 =>
      exact tokens.patternLevel (patternWithin limit bound)

theorem pattern : Parallel related 1 limit bound pattern pattern :=
  .nested tokens.patternWithin

theorem former : Parallel related 1 limit bound former former :=
  ((tokens.keyword "list" (by decide) limit bound).bind fun _ => .pure _).or
    ((tokens.keyword "bag" (by decide) limit bound).bind fun _ => .pure _)

theorem baseType {type type' : Reader Ty}
    (parallel : Parallel related 1 limit bound type type') :
    Parallel related 1 (limit + 1) (bound + 1) (baseType type)
      (baseType type') := by
  have bracket := tokens.symbol ")" (by decide) limit bound
  apply Parallel.choice
  apply List.Forall₂.cons
    ((tokens.keyword "int" (by decide) _ _).bind fun _ => .pure _)
  apply List.Forall₂.cons
    ((tokens.keyword "bool" (by decide) _ _).bind fun _ => .pure _)
  apply List.Forall₂.cons
    ((tokens.keyword "string" (by decide) _ _).bind fun _ => .pure _)
  apply List.Forall₂.cons
    ((tokens.keyword "unit" (by decide) _ _).bind fun _ => .pure _)
  apply List.Forall₂.cons ((tokens.symbol "(" (by decide) _ _).after fun _ =>
    parallel.bind fun type => bracket.bind fun _ => .pure type)
  exact .nil

theorem collectionType {base base' : Reader Ty}
    (parallel : Parallel related 1 limit bound base base') :
    Parallel related 1 limit bound (collectionType base)
      (collectionType base') :=
  parallel.chain tokens.former

theorem typeLevel {inner inner' : Reader Ty}
    (parallel : Parallel related 1 limit bound inner inner') :
    Parallel related 1 (limit + 1) (bound + 1) (typeLevel inner)
      (typeLevel inner') := by
  apply ((tokens.symbol "*" (by decide) _ _).separated
    (tokens.collectionType (tokens.baseType parallel))).bind
  intro parts
  match parts with
  | [] => exact .pure _
  | [type] => exact .pure _
  | first :: second :: others => exact .pure _

theorem typeWithin (limit bound : Nat) :
    Parallel related 1 limit bound (typeWithin limit) (typeWithin bound) := by
  match limit, bound with
  | 0, _ => exact .limit_zero _ _
  | _ + 1, 0 => exact .bound_zero _ _
  | limit + 1, bound + 1 => exact tokens.typeLevel (typeWithin limit bound)

theorem type : Parallel related 1 limit bound type type :=
  .nested tokens.typeWithin

theorem sumOp : Parallel related 1 limit bound sumOp sumOp :=
  ((tokens.symbol "+" (by decide) limit bound).bind fun _ =>
    .pure BinaryOp.add).or
    ((tokens.symbol "-" (by decide) limit bound).bind fun _ =>
      .pure BinaryOp.sub)

theorem comparisonOp :
    Parallel related 1 limit bound comparisonOp comparisonOp := by
  apply Parallel.choice
  apply List.Forall₂.cons
    ((tokens.symbol "<>" (by decide) _ _).bind fun _ => .pure _)
  apply List.Forall₂.cons
    ((tokens.symbol "<=" (by decide) _ _).bind fun _ => .pure _)
  apply List.Forall₂.cons
    ((tokens.symbol ">=" (by decide) _ _).bind fun _ => .pure _)
  apply List.Forall₂.cons
    ((tokens.symbol "<" (by decide) _ _).bind fun _ => .pure _)
  apply List.Forall₂.cons
    ((tokens.symbol ">" (by decide) _ _).bind fun _ => .pure _)
  apply List.Forall₂.cons ((tokens.equalSign _ _).bind fun _ => .pure _)
  apply List.Forall₂.cons
    ((tokens.keyword "elem" (by decide) _ _).bind fun _ => .pure _)
  exact .nil

section Operators

variable {operand operand' : Reader Expr}
  (parallel : Parallel related 1 limit bound operand operand')

include parallel

theorem summand :
    Parallel related 1 limit bound (summand operand) (summand operand') :=
  tokens.sumOp.bind fun op => parallel.bind fun right => .pure (op, right)

theorem sum : Parallel related 1 limit bound (sum operand) (sum operand') :=
  parallel.chain (tokens.summand parallel)

theorem concatenation :
    Parallel related 1 limit bound (concatenation operand)
      (concatenation operand') :=
  parallel.chain
    ((tokens.symbol "@" (by decide) limit bound).bind fun _ => parallel)

theorem comparison : Parallel related 1 limit bound (comparison operand)
    (comparison operand') := by
  apply parallel.bind
  intro left
  apply (Parallel.optional (tokens.comparisonOp.bind fun op =>
    parallel.bind fun right => .pure (op, right))).bind
  intro tail
  match tail with
  | none => exact .pure _
  | some (op, right) => exact .pure _

theorem conjunction :
    Parallel related 1 limit bound (conjunction operand)
      (conjunction operand') :=
  parallel.chain
    ((tokens.keyword "andalso" (by decide) limit bound).bind fun _ => parallel)

theorem disjunction :
    Parallel related 1 limit bound (disjunction operand)
      (disjunction operand') :=
  parallel.chain
    ((tokens.keyword "orelse" (by decide) limit bound).bind fun _ => parallel)

theorem operators :
    Parallel related 1 limit bound (operators operand) (operators operand') :=
  tokens.disjunction
    (tokens.conjunction (tokens.comparison (tokens.concatenation
    (tokens.sum (parallel.chain parallel)))))

theorem lambda :
    Parallel related 1 (limit + 1) (bound + 1) (lambda operand)
      (lambda operand') := by
  apply (tokens.keyword "fn" (by decide) _ _).after
  intro _
  apply tokens.pattern.bind
  intro param
  apply (tokens.symbol "=>" (by decide) limit bound).bind
  intro _
  apply parallel.bind
  intro body
  exact .pure _

theorem scan :
    Parallel related 1 limit bound (scan operand) (scan operand') := by
  apply tokens.pattern.bind
  intro pattern
  apply (((tokens.keyword "in" (by decide) limit bound).bind fun _ =>
    parallel).optional).bind
  intro source
  exact .pure _

theorem step : Parallel related 1 limit bound (step operand) (step operand') :=
  ((tokens.keyword "where" (by decide) limit bound).bind fun _ =>
      parallel.bind fun condition => .pure (Step.filter condition)).or
    ((tokens.keyword "yield" (by decide) limit bound).bind fun _ =>
      parallel.bind fun value => .pure (Step.yield value))

end Operators

section Atoms

variable {expr expr' disjunction disjunction' : Reader Expr}
  (parallel : Parallel related 1 limit bound expr expr')
  (parallelSource : Parallel related 1 limit bound disjunction disjunction')

include parallel parallelSource

theorem query :
    Parallel related 1 limit bound (query expr disjunction)
      (query expr' disjunction') :=
  ((tokens.symbol "," (by decide) limit bound).separated
    (tokens.scan parallelSource)).chain (tokens.step parallel)

theorem atom :
    Parallel related 1 (limit + 1) (bound + 1) (atom expr disjunction)
      (atom expr' disjunction') := by
  have queries := tokens.query parallel parallelSource
  apply Parallel.choice
  apply List.Forall₂.cons (tokens.literal.bind fun _ => .pure _)
  apply List.Forall₂.cons
    ((tokens.keyword "from" (by decide) _ _).after fun _ =>
    queries.bind fun query => .pure (Expr.collect query))
  apply List.Forall₂.cons
    ((tokens.keyword "exists" (by decide) _ _).after fun _ =>
    queries.bind fun query => .pure (Expr.existence query))
  apply List.Forall₂.cons
    ((tokens.enclosed (by decide) (by decide) parallel).bind fun _ => .pure _)
  apply List.Forall₂.cons
    ((tokens.enclosed (by decide) (by decide) parallel).bind fun _ => .pure _)
  apply List.Forall₂.cons (tokens.qualifiedIdentifier.bind fun _ => .pure _)
  exact .nil

end Atoms

theorem exprWithin (limit bound : Nat) :
    Parallel related 1 limit bound (exprWithin limit) (exprWithin bound) ∧
      Parallel related 1 limit bound (operatorsWithin limit)
        (operatorsWithin bound) := by
  match limit, bound with
  | 0, _ => exact ⟨.limit_zero _ _, .limit_zero _ _⟩
  | _ + 1, 0 => exact ⟨.bound_zero _ _, .bound_zero _ _⟩
  | limit + 1, bound + 1 =>
      obtain ⟨inner, innerSource⟩ := exprWithin limit bound
      have operators := tokens.operators (tokens.atom inner innerSource)
      exact ⟨(tokens.lambda inner).or operators, operators⟩

theorem expr : Parallel related 1 limit bound expr expr :=
  .nested fun limit bound => (tokens.exprWithin limit bound).1

theorem valueDecl : Parallel related 1 limit bound valueDecl valueDecl := by
  apply (tokens.keyword "val" (by decide) _ _).bind
  intro _
  apply (tokens.identifier _ _).bind
  intro name
  apply (((tokens.symbol ":" (by decide) limit bound).bind fun _ =>
    tokens.type).optional).bind
  intro type
  apply
    (((tokens.equalSign limit bound).bind fun _ => tokens.expr).optional).bind
  intro value
  exact .pure _

theorem functionDecl :
    Parallel related 1 limit bound functionDecl functionDecl := by
  apply (tokens.keyword "fun" (by decide) _ _).bind
  intro _
  apply (tokens.identifier _ _).bind
  intro name
  apply tokens.pattern.bind
  intro param
  apply (tokens.equalSign limit bound).bind
  intro _
  apply tokens.expr.bind
  intro body
  exact .pure _

theorem decl : Parallel related 1 limit bound decl decl := by
  apply (tokens.valueDecl.or tokens.functionDecl).bind
  intro decl
  apply ((tokens.symbol ";" (by decide) limit bound).optional).bind
  intro _
  exact .pure decl

end ParallelTokens

end Reader

end RecursiveQuery
