import RecursiveQuery.Proofs.PatternReading
import RecursiveQuery.Reader.Source

/-!
# Trees that readers return

A reader ensures a property of the values it returns if its parts do.  In
particular whatever the grammar accepts is a well-formed tree.
-/

namespace RecursiveQuery

variable {text : String}

namespace Reader

variable {α β : Type}

/-- Every value that the reader returns has a property. -/
structure Ensures (reader : Reader α) (holds : α → Prop) : Prop where
  of_ok : ∀ {text value rest}, reader text = .ok value rest → holds value

namespace Ensures

theorem pure {holds : α → Prop} {value : α} (held : holds value) :
    Ensures (Pure.pure value) holds := by
  constructor
  intro text result rest read
  cases read
  exact held

theorem trivial (reader : Reader α) : Ensures reader fun _ => True :=
  ⟨fun _ => True.intro⟩

theorem bind {first : Reader α} {next : α → Reader β} {holds : α → Prop}
    {result : β → Prop} (ensures : Ensures first holds)
    (later : ∀ value, holds value → Ensures (next value) result) :
    Ensures (first >>= next) result := by
  constructor
  intro text value rest read
  change Reader.bind first next text = _ at read
  rw [Reader.bind] at read
  split at read
  · next middle _ readFirst =>
      exact (later middle (ensures.of_ok readFirst)).of_ok read
  · cases read
  · cases read

/-- A part whose value does not matter. -/
theorem after {first : Reader α} {next : α → Reader β} {result : β → Prop}
    (later : ∀ value, Ensures (next value) result) :
    Ensures (first >>= next) result :=
  (trivial first).bind fun value _ => later value

theorem or {first second : Reader α} {holds : α → Prop}
    (ensuresFirst : Ensures first holds)
    (ensuresSecond : Ensures second holds) :
    Ensures (Reader.or first second) holds := by
  constructor
  intro text value rest read
  rw [Reader.or] at read
  split at read
  · exact ensuresSecond.of_ok read
  · exact ensuresFirst.of_ok read

theorem choice {readers : List (Reader α)} {holds : α → Prop}
    (ensures : ∀ reader ∈ readers, Ensures reader holds) :
    Ensures (Reader.choice readers) holds := by
  induction readers with
  | nil =>
      constructor
      intro text value rest read
      cases read
  | cons first others induction =>
      have ensuresFirst : Ensures first holds :=
        ensures first List.mem_cons_self
      cases others with
      | nil => exact ensuresFirst
      | cons second others =>
          apply or ensuresFirst
          exact induction fun reader member =>
            ensures reader (List.mem_cons_of_mem _ member)

theorem optional {item : Reader α} {holds : α → Prop}
    (ensures : Ensures item holds) :
    Ensures (Reader.optional item) fun found => ∀ value, found = some value →
      holds value := by
  constructor
  intro text found rest read
  rw [Reader.optional] at read
  split at read
  · next value _ readItem =>
      cases read
      intro other same
      cases same
      exact ensures.of_ok readItem
  · cases read
    simp
  · cases read

theorem manyUpTo {item : Reader α} {holds : α → Prop}
    (ensures : Ensures item holds) (limit : Nat) :
    Ensures (Reader.manyUpTo item limit) fun values =>
      ∀ value ∈ values, holds value := by
  induction limit with
  | zero =>
      constructor
      intro text values rest read
      cases read
      simp
  | succ limit induction =>
      constructor
      intro text values rest read
      simp only [Reader.manyUpTo] at read
      split at read
      · next first _ readFirst =>
          split at read
          · next others _ readOthers =>
              cases read
              intro value member
              rcases List.mem_cons.mp member with rfl | later
              · exact ensures.of_ok readFirst
              · exact induction.of_ok readOthers value later
          · cases read
          · cases read
      · cases read
        simp
      · cases read

theorem many {item : Reader α} {holds : α → Prop}
    (ensures : Ensures item holds) :
    Ensures (Reader.many item) fun values => ∀ value ∈ values, holds value :=
  ⟨fun read => (ensures.manyUpTo _).of_ok read⟩

theorem separated {separator : Reader Unit} {item : Reader α} {holds : α → Prop}
    (ensures : Ensures item holds) :
    Ensures (Reader.separated separator item) fun values =>
      0 < values.length ∧ ∀ value ∈ values, holds value := by
  apply ensures.bind
  intro first heldFirst
  apply Ensures.bind (Ensures.many (after fun _ => ensures))
  intro others heldOthers
  apply Ensures.pure
  refine ⟨by simp, ?_⟩
  intro value member
  rcases List.mem_cons.mp member with rfl | later
  · exact heldFirst
  · exact heldOthers value later

theorem enclosed {opening closing : String} {item : Reader α} {holds : α → Prop}
    (ensures : Ensures item holds) :
    Ensures (Reader.enclosed opening closing item) fun values =>
      ∀ value ∈ values, holds value := by
  have ensuresItems : Ensures (separatedOrNone (symbol ",") item) fun values =>
      ∀ value ∈ values, holds value := by
    apply or
    · constructor
      intro text values rest read
      exact (ensures.separated.of_ok read).2
    · apply Ensures.pure
      simp
  apply after
  intro _
  apply ensuresItems.bind
  intro values held
  apply after
  intro _
  exact Ensures.pure held

end Ensures

/-! ## Tokens -/

theorem ensures_word : Ensures word fun letters => isWord letters = true := by
  constructor
  intro text letters rest read
  cases text with
  | nil => cases read
  | cons char others =>
      cases start : isWordStart char with
      | false => simp [word, start] at read
      | true =>
          simp only [word, start, if_true, Reply.ok.injEq] at read
          rw [← read.1]
          simp [isWord, start]

theorem ensures_identifier :
    Ensures identifier fun name => Name.isIdentifier name = true := by
  apply Ensures.after
  intro _
  constructor
  intro text name rest read
  cases readWord : word text with
  | mismatch position | fatal position => simp [readWord] at read
  | ok letters after =>
      have isWord := ensures_word.of_ok readWord
      simp only [readWord] at read
      split at read
      · cases read
      · next noKeyword =>
          cases read
          simp only [Name.isIdentifier, String.toList_ofList, isWord,
            Bool.true_and]
          simpa using noKeyword

theorem ensures_dottedPart :
    Ensures dottedPart fun part => ∃ letters, part = '.' :: letters ∧
      isWord letters = true := by
  apply Ensures.after
  intro _
  apply ensures_word.bind
  intro letters isWord
  exact Ensures.pure ⟨letters, rfl, isWord⟩

theorem not_mem_dot_of_isWord {text : List Char} (word : isWord text = true) :
    '.' ∉ text := by
  intro member
  exact absurd (isWordRest_of_mem word member) (by decide)

theorem isQualified_of_parts {first : Name} {parts : List (List Char)}
    (identifier : first.isIdentifier = true)
    (dotted : ∀ part ∈ parts, ∃ letters, part = '.' :: letters ∧
      isWord letters = true) :
    Name.isQualified (String.ofList (first.toList ++ parts.flatten)) =
      true := by
  obtain ⟨words, rfl, areWords⟩ : ∃ words : List (List Char),
      parts = words.map ('.' :: ·) ∧ ∀ word ∈ words, isWord word = true := by
    induction parts with
    | nil => exact ⟨[], rfl, by simp⟩
    | cons part parts induction =>
        obtain ⟨letters, rfl, isWord⟩ := dotted part List.mem_cons_self
        obtain ⟨words, rfl, areWords⟩ :=
          induction fun other member =>
            dotted other (List.mem_cons_of_mem _ member)
        exact ⟨letters :: words, rfl, by simpa using ⟨isWord, areWords⟩⟩
  have joined : ['.'].intercalate (first.toList :: words) =
      first.toList ++ (words.map ('.' :: ·)).flatten := by
    simpa [List.flatMap_def] using intercalate_map ['.'] id first.toList words
  have noDots : ∀ piece ∈ first.toList :: words, '.' ∉ piece := by
    intro piece member
    rcases List.mem_cons.mp member with rfl | later
    · exact not_mem_dot_of_isWord (isWord_of_isIdentifier identifier)
    · exact not_mem_dot_of_isWord (areWords piece later)
  have split := List.splitOn_intercalate '.' noDots (by simp)
  rw [Name.isQualified, String.toList_ofList, ← joined, split]
  simpa [identifier] using areWords

theorem ensures_qualifiedIdentifier :
    Ensures qualifiedIdentifier fun name => Name.isQualified name = true := by
  apply ensures_identifier.bind
  intro first identifier
  apply (Ensures.many ensures_dottedPart).bind
  intro parts dotted
  exact Ensures.pure (isQualified_of_parts identifier dotted)

theorem minValue_lt_ofInt {value : Int} (low : -0x8000000000000000 < value)
    (high : value < 0x8000000000000000) :
    Int64.minValue < Int64.ofInt value := by
  rw [Int64.lt_iff_toInt_lt, Int64.toInt_minValue,
    Int64.toInt_ofInt_of_le (by omega) (by omega)]
  omega

theorem ensures_integer :
    Ensures integer fun value => Int64.minValue < value := by
  apply Ensures.after
  intro _
  constructor
  intro text value rest read
  simp only at read
  split at read
  all_goals
    split at read
    · cases read
    · split at read
      · next bounded =>
          simp only [Reply.ok.injEq] at read
          rw [← read.1]
          simp only [Bool.false_eq_true, if_true, if_false] at bounded ⊢
          apply minValue_lt_ofInt <;> omega
      · cases read

theorem ensures_literal :
    Ensures literal fun value => value.isWellFormed = true := by
  apply Ensures.choice
  intro reader member
  simp only [List.mem_cons, List.not_mem_nil, or_false] at member
  rcases member with rfl | rfl | rfl | rfl
  · apply ensures_integer.bind
    intro value inRange
    exact Ensures.pure (by simpa [Literal.isWellFormed] using inRange)
  · exact Ensures.after fun _ => Ensures.pure rfl
  · exact Ensures.after fun _ => Ensures.pure rfl
  · exact Ensures.after fun _ => Ensures.pure rfl

end Reader

/-! ## Trees -/

namespace Pattern

theorem isWellFormed_bracketed {items : List Pattern}
    (wellFormed : ∀ item ∈ items, item.isWellFormed = true) :
    (bracketed items).isWellFormed = true := by
  match items with
  | [] => rfl
  | [item] => exact wellFormed item List.mem_cons_self
  | first :: second :: others =>
      simp only [bracketed, isWellFormed, areWellFormed_iff.mpr wellFormed,
        Bool.and_true, decide_eq_true_eq, List.length_cons]
      omega

end Pattern

namespace Expr

theorem isWellFormed_bracketed {items : List Expr}
    (wellFormed : ∀ item ∈ items, item.isWellFormed = true) :
    (bracketed items).isWellFormed = true := by
  match items with
  | [] => rfl
  | [item] => exact wellFormed item List.mem_cons_self
  | first :: second :: others =>
      simp only [bracketed, isWellFormed, areWellFormed_iff.mpr wellFormed,
        Bool.and_true, decide_eq_true_eq, List.length_cons]
      omega

end Expr

namespace Reader

variable {α : Type}

theorem ensures_refuse (holds : α → Prop) : Ensures refuse holds :=
  ⟨fun read => by cases read⟩

theorem ensures_patternWithin (nesting : Nat) :
    Ensures (patternWithin nesting) fun pattern => pattern.isWellFormed =
      true := by
  induction nesting with
  | zero => exact ensures_refuse _
  | succ nesting induction =>
      apply Ensures.choice
      intro reader member
      simp only [List.mem_cons, List.not_mem_nil, or_false] at member
      rcases member with rfl | rfl | rfl | rfl
      · exact Ensures.after fun _ => Ensures.pure rfl
      · apply ensures_literal.bind
        intro value wellFormed
        exact Ensures.pure wellFormed
      · apply (Ensures.enclosed induction).bind
        intro items wellFormed
        exact Ensures.pure (Pattern.isWellFormed_bracketed wellFormed)
      · apply ensures_identifier.bind
        intro name identifier
        exact Ensures.pure identifier

theorem Ensures.nested {α : Type} {reader : Nat → Reader α} {holds : α → Prop}
    (ensures : ∀ nesting, Ensures (reader nesting) holds) :
    Ensures (Reader.nested reader) holds :=
  ⟨fun read => (ensures _).of_ok read⟩

theorem ensures_pattern :
    Ensures pattern fun pattern => pattern.isWellFormed = true :=
  Ensures.nested ensures_patternWithin

/-- A property that combining preserves is kept along a whole chain. -/
theorem Ensures.chain {β : Type} {operand : Reader α} {item : Reader β}
    {combine : α → β → α} {holds : α → Prop} {holdsItem : β → Prop}
    (ensures : Ensures operand holds) (ensuresItem : Ensures item holdsItem)
    (preserved : ∀ value next, holds value → holdsItem next →
      holds (combine value next)) :
    Ensures (do
      let first ← operand
      let items ← Reader.many item
      return items.foldl combine first) holds := by
  apply ensures.bind
  intro first heldFirst
  apply (Ensures.many ensuresItem).bind
  intro items heldItems
  apply Ensures.pure
  induction items generalizing first with
  | nil => exact heldFirst
  | cons next items induction =>
      apply induction (combine first next)
      · exact preserved first next heldFirst (heldItems next List.mem_cons_self)
      · intro other member
        exact heldItems other (List.mem_cons_of_mem _ member)

theorem ensures_former :
    Ensures former fun former => ∀ type : Ty, type.isWellFormed = true →
      (former type).isWellFormed = true := by
  apply Ensures.or
  · exact Ensures.after fun _ => Ensures.pure fun _ wellFormed => wellFormed
  · exact Ensures.after fun _ => Ensures.pure fun _ wellFormed => wellFormed

theorem ensures_baseType {type : Reader Ty}
    (ensures : Ensures type fun type => type.isWellFormed = true) :
    Ensures (baseType type) fun type => type.isWellFormed = true := by
  apply Ensures.choice
  intro reader member
  simp only [List.mem_cons, List.not_mem_nil, or_false] at member
  rcases member with rfl | rfl | rfl | rfl | rfl
  · exact Ensures.after fun _ => Ensures.pure rfl
  · exact Ensures.after fun _ => Ensures.pure rfl
  · exact Ensures.after fun _ => Ensures.pure rfl
  · exact Ensures.after fun _ => Ensures.pure rfl
  · apply Ensures.after
    intro _
    apply ensures.bind
    intro inner wellFormed
    exact Ensures.after fun _ => Ensures.pure wellFormed

theorem ensures_collectionType {base : Reader Ty}
    (ensures : Ensures base fun type => type.isWellFormed = true) :
    Ensures (collectionType base) fun type => type.isWellFormed = true :=
  ensures.chain ensures_former fun type _ wellFormed preserves =>
    preserves type wellFormed

theorem ensures_typeWithin (nesting : Nat) :
    Ensures (typeWithin nesting) fun type => type.isWellFormed = true := by
  induction nesting with
  | zero => exact ensures_refuse _
  | succ nesting induction =>
      rw [typeWithin_succ]
      apply (Ensures.separated
        (ensures_collectionType (ensures_baseType induction))).bind
      intro parts held
      match parts with
      | [] => simp at held
      | [type] => exact Ensures.pure (held.2 type List.mem_cons_self)
      | first :: second :: others =>
          apply Ensures.pure
          simp only [Ty.isWellFormed, Ty.areWellFormed_iff.mpr held.2,
            Bool.and_true, decide_eq_true_eq, List.length_cons]
          omega

theorem ensures_type : Ensures type fun type => type.isWellFormed = true :=
  Ensures.nested ensures_typeWithin

section Operators

variable {operand : Reader Expr}
  (ensures : Ensures operand fun expr => expr.isWellFormed = true)

include ensures

theorem ensures_application :
    Ensures (application operand) fun expr => expr.isWellFormed = true := by
  apply ensures.chain ensures
  intro function argument functionWellFormed argumentWellFormed
  simp [Expr.isWellFormed, functionWellFormed, argumentWellFormed]

theorem ensures_sum :
    Ensures (sum operand) fun expr => expr.isWellFormed = true := by
  have ensuresItem : Ensures (do
      let op ← sumOp
      let operand ← operand
      return (op, operand)) fun item : BinaryOp × Expr => item.2.isWellFormed =
      true := by
    apply Ensures.after
    intro op
    apply ensures.bind
    intro right wellFormed
    exact Ensures.pure wellFormed
  apply ensures.chain ensuresItem
  intro left item leftWellFormed rightWellFormed
  simp [Expr.isWellFormed, leftWellFormed, rightWellFormed]

theorem ensures_concatenation :
    Ensures (concatenation operand) fun expr => expr.isWellFormed = true := by
  apply ensures.bind
  intro first firstWellFormed
  apply Ensures.bind (Ensures.many (Ensures.after fun _ => ensures))
  intro items wellFormed
  apply Ensures.pure
  induction items generalizing first with
  | nil => exact firstWellFormed
  | cons second items induction =>
      have joined := induction second (wellFormed second List.mem_cons_self)
        fun item member => wellFormed item (List.mem_cons_of_mem _ member)
      simp [concatenation.joinRight, Expr.isWellFormed, firstWellFormed, joined]

theorem ensures_comparison :
    Ensures (comparison operand) fun expr => expr.isWellFormed = true := by
  have ensuresTail : Ensures (do
      let op ← comparisonOp
      let right ← operand
      return (op, right)) fun tail : BinaryOp × Expr => tail.2.isWellFormed =
      true := by
    apply Ensures.after
    intro op
    apply ensures.bind
    intro right wellFormed
    exact Ensures.pure wellFormed
  apply ensures.bind
  intro left leftWellFormed
  apply (Ensures.optional ensuresTail).bind
  intro tail wellFormed
  match tail with
  | none => exact Ensures.pure leftWellFormed
  | some (op, right) =>
      apply Ensures.pure
      simp [Expr.isWellFormed, leftWellFormed, wellFormed (op, right) rfl]

theorem ensures_conjunction :
    Ensures (conjunction operand) fun expr => expr.isWellFormed = true := by
  apply ensures.chain (Ensures.after fun _ => ensures)
  intro left right leftWellFormed rightWellFormed
  simp [Expr.isWellFormed, leftWellFormed, rightWellFormed]

theorem ensures_disjunction :
    Ensures (disjunction operand) fun expr => expr.isWellFormed = true := by
  apply ensures.chain (Ensures.after fun _ => ensures)
  intro left right leftWellFormed rightWellFormed
  simp [Expr.isWellFormed, leftWellFormed, rightWellFormed]

theorem ensures_operators :
    Ensures (operators operand) fun expr => expr.isWellFormed = true :=
  ensures_disjunction
    (ensures_conjunction (ensures_comparison (ensures_concatenation
    (ensures_sum (ensures_application ensures)))))

theorem ensures_lambda :
    Ensures (lambda operand) fun expr => expr.isWellFormed = true := by
  apply Ensures.after
  intro _
  apply ensures_pattern.bind
  intro param paramWellFormed
  apply Ensures.after
  intro _
  apply ensures.bind
  intro body bodyWellFormed
  exact Ensures.pure
    (by simp [Expr.isWellFormed, paramWellFormed, bodyWellFormed])

theorem ensures_scan :
    Ensures (scan operand) fun scan =>
      scan.pattern.isWellFormed = true ∧
      scan.source.all Expr.isWellFormed = true := by
  apply ensures_pattern.bind
  intro pattern patternWellFormed
  apply Ensures.bind (Ensures.optional (Ensures.after fun _ => ensures))
  intro source wellFormed
  apply Ensures.pure
  refine ⟨patternWellFormed, ?_⟩
  cases source with
  | none => rfl
  | some source => exact wellFormed source rfl

theorem ensures_step :
    Ensures (step operand) fun step => step.expr.isWellFormed = true := by
  apply Ensures.or
  · apply Ensures.after
    intro _
    apply ensures.bind
    intro condition wellFormed
    exact Ensures.pure wellFormed
  · apply Ensures.after
    intro _
    apply ensures.bind
    intro value wellFormed
    exact Ensures.pure wellFormed

end Operators

section Atoms

variable {expr disjunction : Reader Expr}
  (ensures : Ensures expr fun expr => expr.isWellFormed = true)
  (ensuresSource : Ensures disjunction fun expr => expr.isWellFormed = true)

include ensures ensuresSource

theorem ensures_query :
    Ensures (query expr disjunction) fun query => Expr.isWellFormedQuery query =
      true := by
  apply (Ensures.separated (ensures_scan ensuresSource)).bind
  intro scans scansWellFormed
  apply (Ensures.many (ensures_step ensures)).bind
  intro steps stepsWellFormed
  apply Ensures.pure
  simp only [Expr.isWellFormedQuery, Bool.and_eq_true, decide_eq_true_eq]
  exact ⟨⟨scansWellFormed.1, Expr.areWellFormedScans_iff.mpr scansWellFormed.2⟩,
    Expr.areWellFormedSteps_iff.mpr stepsWellFormed⟩

theorem ensures_atom :
    Ensures (atom expr disjunction) fun expr => expr.isWellFormed = true := by
  apply Ensures.choice
  intro reader member
  simp only [List.mem_cons, List.not_mem_nil, or_false] at member
  rcases member with rfl | rfl | rfl | rfl | rfl | rfl
  · apply ensures_literal.bind
    intro value wellFormed
    exact Ensures.pure wellFormed
  · apply Ensures.after
    intro _
    apply (ensures_query ensures ensuresSource).bind
    intro query wellFormed
    exact Ensures.pure wellFormed
  · apply Ensures.after
    intro _
    apply (ensures_query ensures ensuresSource).bind
    intro query wellFormed
    exact Ensures.pure wellFormed
  · apply (Ensures.enclosed ensures).bind
    intro items wellFormed
    exact Ensures.pure (Expr.isWellFormed_bracketed wellFormed)
  · apply (Ensures.enclosed ensures).bind
    intro items wellFormed
    exact Ensures.pure (Expr.areWellFormed_iff.mpr wellFormed)
  · apply ensures_qualifiedIdentifier.bind
    intro name qualified
    exact Ensures.pure qualified

end Atoms

theorem ensures_exprWithin (nesting : Nat) :
    Ensures (exprWithin nesting) (fun expr => expr.isWellFormed = true) ∧
      Ensures (operatorsWithin nesting) fun expr => expr.isWellFormed =
        true := by
  induction nesting with
  | zero => exact ⟨ensures_refuse _, ensures_refuse _⟩
  | succ nesting induction =>
      have operators := ensures_operators (ensures_atom induction.1 induction.2)
      exact ⟨Ensures.or (ensures_lambda induction.1) operators, operators⟩

theorem ensures_expr : Ensures expr fun expr => expr.isWellFormed = true :=
  Ensures.nested fun nesting => (ensures_exprWithin nesting).1

theorem ensures_valueDecl :
    Ensures valueDecl fun decl => decl.isWellFormed = true := by
  apply Ensures.after
  intro _
  apply ensures_identifier.bind
  intro name identifier
  apply Ensures.bind (Ensures.optional (Ensures.after fun _ => ensures_type))
  intro type typeWellFormed
  apply Ensures.bind (Ensures.optional (Ensures.after fun _ => ensures_expr))
  intro value valueWellFormed
  apply Ensures.pure
  simp only [Decl.isWellFormed, identifier, Bool.true_and, Bool.and_eq_true,
    Option.all_eq_true]
  exact ⟨typeWellFormed, valueWellFormed⟩

theorem ensures_functionDecl :
    Ensures functionDecl fun decl => decl.isWellFormed = true := by
  apply Ensures.after
  intro _
  apply ensures_identifier.bind
  intro name identifier
  apply ensures_pattern.bind
  intro param paramWellFormed
  apply Ensures.after
  intro _
  apply ensures_expr.bind
  intro body bodyWellFormed
  exact Ensures.pure
    (by simp [Decl.isWellFormed, identifier, paramWellFormed, bodyWellFormed])

theorem ensures_decl : Ensures decl fun decl => decl.isWellFormed = true := by
  apply (Ensures.or ensures_valueDecl ensures_functionDecl).bind
  intro decl wellFormed
  exact Ensures.after fun _ => Ensures.pure wellFormed

theorem Ensures.of_whole {kind : SourceKind} {reader : Reader α}
    {holds : α → Prop} {text : List Char} {value : α}
    (ensures : Ensures reader holds)
    (read : whole kind reader text = .ok value) : holds value := by
  rw [whole] at read
  split at read
  · cases read
  · cases read
  · next found rest readFound =>
      split at read
      · cases read
      · cases read
      · cases read
        exact ensures.of_ok readFound
      · cases read

theorem Ensures.of_wholeClosed {kind : SourceKind} {reader : Reader α}
    {holds : α → Prop} {text : List Char} {value : α}
    (ensures : Ensures reader holds)
    (read : wholeClosed kind reader text = .ok value) : holds value := by
  rw [wholeClosed] at read
  split at read
  · cases read
  · exact ensures.of_whole read

end Reader

theorem Expr.isWellFormed_of_read {expr : Expr}
    (read : Expr.read text = .ok expr) :
    expr.isWellFormed = true :=
  Reader.ensures_expr.of_wholeClosed read

theorem Program.isWellFormed_of_read {program : Program}
    (read : Program.read text = .ok program) : program.isWellFormed = true := by
  rw [Program.read] at read
  cases readDecls :
    Reader.wholeClosed .program (Reader.many Reader.decl) text.toList with
  | error problem => simp [readDecls, bind, Except.bind] at read
  | ok decls =>
      have wellFormed :=
        (Reader.Ensures.many Reader.ensures_decl).of_wholeClosed readDecls
      obtain rfl : ⟨decls⟩ = program := by
        simpa [readDecls, bind, Except.bind, pure, Except.pure] using read
      exact List.all_eq_true.mpr wellFormed

theorem Pattern.isWellFormed_of_read {pattern : Pattern}
    (read : Pattern.read text = .ok pattern) : pattern.isWellFormed = true :=
  Reader.ensures_pattern.of_whole read

theorem Ty.isWellFormed_of_read {type : Ty} (read : Ty.read text = .ok type) :
    type.isWellFormed = true :=
  Reader.ensures_type.of_whole read

end RecursiveQuery
