import RecursiveQuery.Proofs.TokenReading

/-!
# Reading patterns and types

Well-formed patterns and types are read back from their written form.  The
nesting count has to exceed the length of the text only.
-/

namespace RecursiveQuery

namespace Pattern

theorem charsList_eq_map (items : List Pattern) :
    charsList items = items.map chars := by
  induction items with
  | nil => rfl
  | cons item items induction => rw [charsList, induction, List.map_cons]

theorem chars_tuple (items : List Pattern) :
    (tuple items).chars =
    '(' :: (List.intercalate ", ".toList (charsList items) ++ [')']) :=
  rfl

theorem bracketed_of_two {items : List Pattern} (two : 2 ≤ items.length) :
    bracketed items = tuple items := by
  match items with
  | [] | [_] => simp at two
  | _ :: _ :: _ => rfl

end Pattern

namespace Reader

theorem Solid.pattern (pattern : Pattern)
    (wellFormed : pattern.isWellFormed = true) : Solid pattern.chars := by
  match pattern with
  | .wildcard => exact Solid.word (by decide)
  | .var name =>
      simp only [Pattern.isWellFormed] at wellFormed
      exact Solid.word (isWord_of_isIdentifier wellFormed)
  | .literal value => exact Solid.literal value
  | .tuple [] => simp [Pattern.isWellFormed] at wellFormed
  | .tuple (first :: items) =>
      simp only [Pattern.isWellFormed, Pattern.areWellFormed,
        Bool.and_eq_true] at wellFormed
      have solid := Solid.pattern first wellFormed.2.1
      rw [Pattern.chars_tuple, Pattern.charsList_eq_map, intercalate_map]
      apply Solid.bracket
      rw [List.append_assoc]
      exact solid.append _

theorem SkipsBlank.patternWithin (nesting : Nat) :
    SkipsBlank (Reader.patternWithin (nesting + 1)) := by
  apply SkipsBlank.choice
  intro reader member
  simp only [List.mem_cons, List.not_mem_nil, or_false] at member
  rcases member with rfl | rfl | rfl | rfl
  · exact (SkipsBlank.keyword _).bind _
  · exact SkipsBlank.literal.bind _
  · exact ((SkipsBlank.symbol _).bind _).bind _
  · exact SkipsBlank.identifier.bind _

theorem patternWithin_of_isWellFormed (pattern : Pattern)
    (wellFormed : pattern.isWellFormed = true) {nesting : Nat}
    {rest : List Char} (enough : pattern.chars.length ≤ nesting)
    (ends : endsWord rest = true) :
    patternWithin (nesting + 1) (pattern.chars ++ rest) = .ok pattern rest := by
  match pattern with
  | .wildcard =>
      apply choice_of_ok
      exact (bind_of_ok (@keyword_of_word "_" rest (by decide) ends)).trans rfl
  | .var name =>
      have identifier : Name.isIdentifier name = true := by
        simpa only [Pattern.isWellFormed] using wellFormed
      have noWildcard : Mismatches (keyword "_") (name.toList ++ rest) :=
        mismatches_keyword_identifier (by decide) identifier ends
      have noLiteral := mismatches_literal_identifier identifier ends
      have noBracket : Mismatches (symbol "(") (name.toList ++ rest) :=
        mismatches_symbol_identifier rfl (by decide) identifier
      apply (choice_of_mismatches (noWildcard.bind _)).trans
      apply (choice_of_mismatches (noLiteral.bind _)).trans
      apply (choice_of_mismatches ((noBracket.bind _).bind _)).trans
      exact (bind_of_ok (identifier_of_isIdentifier identifier ends)).trans rfl
  | .literal value =>
      have noWildcard : Mismatches (keyword "_") (value.chars ++ rest) :=
        mismatches_keyword_literal (by decide) (by decide) (by decide) ends
      apply (choice_of_mismatches (noWildcard.bind _)).trans
      by_cases unit : value = .unit
      · subst unit
        apply (choice_of_mismatches ⟨_, rfl⟩).trans
        apply choice_of_ok
        cases nesting <;> rfl
      · have wellFormed : value.isWellFormed = true := by
          simpa only [Pattern.isWellFormed] using wellFormed
        apply choice_of_ok
        exact (bind_of_ok (literal_of_isWellFormed wellFormed unit ends)).trans
          rfl
  | .tuple items =>
      have skipped := (Solid.pattern (.tuple items) wellFormed rest).1
      simp only [Pattern.isWellFormed, Bool.and_eq_true,
        decide_eq_true_eq] at wellFormed
      obtain ⟨two, itemsWellFormed⟩ := wellFormed
      rw [Pattern.chars_tuple, List.length_cons, List.length_append] at enough
      simp only [Pattern.chars_tuple, Pattern.charsList_eq_map,
        List.cons_append, List.append_assoc] at enough skipped ⊢
      have noWildcard : Mismatches (keyword "_") _ :=
        mismatches_keyword skipped rfl (by decide)
      have noLiteral := mismatches_literal_bracket skipped
      have readsItems : ∀ item ∈ items, ∀ rest, endsWord rest = true →
          Reads (patternWithin nesting) item.chars item rest := by
        intro item member rest ends
        have shorter := length_le_intercalate ", ".toList
          (List.mem_map_of_mem (f := Pattern.chars) member)
        obtain ⟨inner, rfl⟩ : ∃ inner, nesting = inner + 1 :=
          ⟨nesting - 1, by omega⟩
        apply (SkipsBlank.patternWithin inner).reads
        exact patternWithin_of_isWellFormed item
          (Pattern.areWellFormed_iff.mp itemsWellFormed item member)
          (by omega) ends
      have read : enclosed "(" ")" (patternWithin nesting) _ = .ok items rest :=
        enclosed_intercalate (endsWord · = true) (symbol_of_skip skipped) rfl
          (fun _ => rfl) rfl ⟨_, rfl⟩ readsItems (by rintro rfl; simp at two)
      apply (choice_of_mismatches (noWildcard.bind _)).trans
      apply (choice_of_mismatches (noLiteral.bind _)).trans
      apply choice_of_ok
      apply (bind_of_ok read).trans
      rw [Pattern.bracketed_of_two two]
      rfl

theorem Reads.pattern {pattern : Pattern} {rest : List Char}
    (wellFormed : pattern.isWellFormed = true) (ends : endsWord rest = true) :
    Reads Reader.pattern pattern.chars pattern rest := by
  constructor
  · apply patternWithin_of_isWellFormed pattern wellFormed _ ends
    simp
  · apply ((SkipsBlank.patternWithin _) _).trans
    apply patternWithin_of_isWellFormed pattern wellFormed _ ends
    simp only [List.length_cons, List.length_append]
    omega

end Reader

namespace Ty

theorem charsList_eq_map (items : List Ty) :
    charsList items = items.map fun item => bracket item item.chars := by
  induction items with
  | nil => rfl
  | cons item items induction => rw [charsList, induction, List.map_cons]

theorem chars_tuple (items : List Ty) :
    (tuple items).chars = List.intercalate " * ".toList (charsList items) :=
  rfl

theorem length_bracket_le {items : List Ty} {item : Ty}
    (member : item ∈ items) :
    (item.bracket item.chars).length ≤ (tuple items).chars.length := by
  rw [chars_tuple, charsList_eq_map]
  apply Reader.length_le_intercalate
  exact List.mem_map_of_mem
    (f := fun item : Ty => item.bracket item.chars) member

end Ty

namespace Reader

variable {nesting : Nat} {rest : List Char}

theorem Solid.bracketType {type : Ty} (solid : Solid type.chars) :
    Solid (type.bracket type.chars) := by
  unfold Ty.bracket
  split
  · exact (solid.append _).bracket
  · exact solid

theorem Solid.type (type : Ty) (wellFormed : type.isWellFormed = true) :
    Solid type.chars := by
  match type with
  | .unit | .bool | .int | .string => exact Solid.word (by decide)
  | .list element | .bag element =>
      simp only [Ty.isWellFormed] at wellFormed
      exact (Solid.bracketType (Solid.type element wellFormed)).append _
  | .tuple [] => simp [Ty.isWellFormed] at wellFormed
  | .tuple (first :: items) =>
      simp only [Ty.isWellFormed, Ty.areWellFormed,
        Bool.and_eq_true] at wellFormed
      rw [Ty.chars_tuple, Ty.charsList_eq_map, intercalate_map]
      exact (Solid.bracketType (Solid.type first wellFormed.2.1)).append _

/-- A word that makes a collection type of the type in front of it. -/
def former : Reader (Ty → Ty) :=
  or (do keyword "list"; return Ty.list) (do keyword "bag"; return Ty.bag)

/-- A named type or a type in brackets. -/
def baseType (type : Reader Ty) : Reader Ty :=
  choice [
    (do keyword "int"; return .int),
    (do keyword "bool"; return .bool),
    (do keyword "string"; return .string),
    (do keyword "unit"; return .unit),
    (do
      symbol "("
      let type ← type
      symbol ")"
      return type)]

theorem typeWithin_succ (nesting : Nat) :
    typeWithin (nesting + 1) = (do
      let parts ← separated (symbol "*")
        (collectionType (baseType (typeWithin nesting)))
      match parts with
      | [type] => return type
      | types => return .tuple types) :=
  rfl

/-- No type runs on into the text as a component of a tuple. -/
structure EndsComponent (rest : List Char) : Prop where
  endsWord : endsWord rest = true
  noFormer : Mismatches former rest

/-- A type with brackets around it if it is a tuple is read as a component. -/
def ReadsComponent (nesting : Nat) (type : Ty) : Prop :=
  ∀ rest, endsWord rest = true →
    ReadsChain (baseType (typeWithin nesting)) former
      (fun type former => former type)
      (type.bracket type.chars ++ rest) type rest

theorem SkipsBlank.baseType (type : Reader Ty) :
    SkipsBlank (Reader.baseType type) := by
  apply SkipsBlank.choice
  intro reader member
  simp only [List.mem_cons, List.not_mem_nil, or_false] at member
  rcases member with rfl | rfl | rfl | rfl | rfl
  · exact (SkipsBlank.keyword _).bind _
  · exact (SkipsBlank.keyword _).bind _
  · exact (SkipsBlank.keyword _).bind _
  · exact (SkipsBlank.keyword _).bind _
  · exact (SkipsBlank.symbol _).bind _

theorem separated_components {nesting : Nat} {types : List Ty}
    {rest : List Char}
    (components : ∀ type ∈ types, ReadsComponent nesting type)
    (nonempty : types ≠ []) (ends : EndsComponent rest)
    (noProduct : Mismatches (symbol "*") rest) :
    separated (symbol "*") (collectionType (baseType (typeWithin nesting)))
      (List.intercalate " * ".toList (Ty.charsList types) ++ rest) =
        .ok types rest := by
  rw [Ty.charsList_eq_map]
  apply Reads.plain
  apply separated_intercalate EndsComponent (fun _ => rfl) (by decide)
    (fun _ => ⟨rfl, _, rfl⟩) _ ends noProduct nonempty
  intro type member rest ends
  apply ((SkipsBlank.baseType _).bind _).reads
  exact (components type member rest ends.endsWord).read ends.noFormer

theorem typeWithin_of_readsComponent {type : Ty} (single : type.isTuple = false)
    (component : ReadsComponent nesting type) (ends : EndsComponent rest)
    (noProduct : Mismatches (symbol "*") rest) :
    typeWithin (nesting + 1) (type.chars ++ rest) = .ok type rest := by
  have read := @separated_components nesting [type] rest
    (by simpa using component) (by simp) ends noProduct
  have alone : List.intercalate " * ".toList (Ty.charsList [type]) =
    type.chars := by
    simp [Ty.charsList, Ty.bracket, single]
  rw [alone] at read
  rw [typeWithin_succ]
  exact (bind_of_ok read).trans rfl

theorem typeWithin_of_components {nesting : Nat} {types : List Ty}
    {rest : List Char}
    (components : ∀ type ∈ types, ReadsComponent nesting type)
    (two : 2 ≤ types.length) (ends : EndsComponent rest)
    (noProduct : Mismatches (symbol "*") rest) :
    typeWithin (nesting + 1) ((Ty.tuple types).chars ++ rest) =
      .ok (.tuple types) rest := by
  have read :=
    separated_components components (by rintro rfl; simp at two) ends noProduct
  rw [typeWithin_succ, Ty.chars_tuple]
  apply (bind_of_ok read).trans
  match types with
  | [] | [_] => simp at two
  | _ :: _ :: _ => rfl

theorem former_list (ends : endsWord rest = true) :
    former (" list".toList ++ rest) = .ok Ty.list rest := by
  apply or_of_ok
  exact (bind_of_ok (@keyword_of_word "list" rest (by decide) ends)).trans rfl

theorem former_bag (ends : endsWord rest = true) :
    former (" bag".toList ++ rest) = .ok Ty.bag rest := by
  have noList : Mismatches (keyword "list") (" bag".toList ++ rest) := ⟨_, rfl⟩
  apply (or_of_mismatches (noList.bind _)).trans
  exact (bind_of_ok (@keyword_of_word "bag" rest (by decide) ends)).trans rfl

theorem readsComponent (type : Ty) (wellFormed : type.isWellFormed = true)
    {nesting : Nat} (enough : (type.bracket type.chars).length ≤ nesting) :
    ReadsComponent nesting type := by
  intro rest ends
  match type with
  | .int =>
      apply ReadsChain.single
      apply choice_of_ok
      exact (bind_of_ok (@keyword_of_word "int" rest (by decide) ends)).trans
        rfl
  | .bool =>
      apply ReadsChain.single
      apply (choice_of_mismatches ⟨_, rfl⟩).trans
      apply choice_of_ok
      exact (bind_of_ok (@keyword_of_word "bool" rest (by decide) ends)).trans
        rfl
  | .string =>
      apply ReadsChain.single
      apply (choice_of_mismatches ⟨_, rfl⟩).trans
      apply (choice_of_mismatches ⟨_, rfl⟩).trans
      apply choice_of_ok
      exact (bind_of_ok (@keyword_of_word "string" rest (by decide) ends)).trans
        rfl
  | .unit =>
      apply ReadsChain.single
      apply (choice_of_mismatches ⟨_, rfl⟩).trans
      apply (choice_of_mismatches ⟨_, rfl⟩).trans
      apply (choice_of_mismatches ⟨_, rfl⟩).trans
      apply choice_of_ok
      exact (bind_of_ok (@keyword_of_word "unit" rest (by decide) ends)).trans
        rfl
  | .list element =>
      simp only [Ty.isWellFormed] at wellFormed
      change (element.bracket element.chars ++ " list".toList).length ≤
        nesting at enough
      rw [List.length_append] at enough
      have reads := @readsComponent element wellFormed nesting (by omega)
        (" list".toList ++ rest) rfl
      rw [← List.append_assoc] at reads
      exact reads.snoc (former_list ends) (length_lt_append (by decide) [] rest)
  | .bag element =>
      simp only [Ty.isWellFormed] at wellFormed
      change (element.bracket element.chars ++ " bag".toList).length ≤
        nesting at enough
      rw [List.length_append] at enough
      have reads := @readsComponent element wellFormed nesting (by omega)
        (" bag".toList ++ rest) rfl
      rw [← List.append_assoc] at reads
      exact reads.snoc (former_bag ends) (length_lt_append (by decide) [] rest)
  | .tuple items =>
      have skipped := (Solid.type (.tuple items) wellFormed (')' :: rest)).2
      simp only [Ty.isWellFormed, Bool.and_eq_true,
        decide_eq_true_eq] at wellFormed
      simp only [Ty.bracket, Ty.isTuple, if_true, List.length_cons,
        List.length_append] at enough
      obtain ⟨inner, rfl⟩ : ∃ inner, nesting = inner + 1 :=
        ⟨nesting - 1, by omega⟩
      have components : ∀ item ∈ items, ReadsComponent inner item := by
        intro item member
        apply readsComponent item
          (Ty.areWellFormed_iff.mp wellFormed.2 item member)
        have shorter := Ty.length_bracket_le member
        omega
      have read := @typeWithin_of_components inner items (')' :: rest)
        components wellFormed.1 ⟨rfl, _, rfl⟩ ⟨_, rfl⟩
      apply ReadsChain.single
      simp only [Ty.bracket, Ty.isTuple, if_true, List.cons_append,
        List.append_assoc, List.nil_append]
      apply (choice_of_mismatches
        ((mismatches_keyword skipped rfl (by decide)).bind _)).trans
      apply (choice_of_mismatches
        ((mismatches_keyword skipped rfl (by decide)).bind _)).trans
      apply (choice_of_mismatches
        ((mismatches_keyword skipped rfl (by decide)).bind _)).trans
      apply (choice_of_mismatches
        ((mismatches_keyword skipped rfl (by decide)).bind _)).trans
      apply (bind_of_ok (symbol_of_skip skipped)).trans
      exact (bind_of_ok read).trans rfl

/-- A type that is followed by neither a former nor a product is read back. -/
theorem typeWithin_of_isWellFormed {type : Ty}
    (wellFormed : type.isWellFormed = true)
    (enough : type.chars.length ≤ nesting) (ends : EndsComponent rest)
    (noProduct : Mismatches (symbol "*") rest) :
    typeWithin (nesting + 1) (type.chars ++ rest) = .ok type rest := by
  cases single : type.isTuple with
  | false =>
      apply typeWithin_of_readsComponent single _ ends noProduct
      apply readsComponent type wellFormed
      simpa only [Ty.bracket, single, Bool.false_eq_true, if_false] using enough
  | true =>
      match type with
      | .tuple items =>
          simp only [Ty.isWellFormed, Bool.and_eq_true,
            decide_eq_true_eq] at wellFormed
          apply typeWithin_of_components _ wellFormed.1 ends noProduct
          intro item member
          apply readsComponent item
            (Ty.areWellFormed_iff.mp wellFormed.2 item member)
          exact Nat.le_trans (Ty.length_bracket_le member) enough

theorem Reads.type {type : Ty} {rest : List Char}
    (wellFormed : type.isWellFormed = true) (ends : EndsComponent rest)
    (noProduct : Mismatches (symbol "*") rest) :
    Reads Reader.type type.chars type rest := by
  have skips : ∀ nesting, SkipsBlank (typeWithin (nesting + 1)) :=
    fun nesting =>
    ((((SkipsBlank.baseType _).bind _).bind _).bind _ : SkipsBlank _)
  constructor
  · apply typeWithin_of_isWellFormed wellFormed _ ends noProduct
    simp
  · apply (skips _ _).trans
    apply typeWithin_of_isWellFormed wellFormed _ ends noProduct
    simp only [List.length_cons, List.length_append]
    omega

end Reader

end RecursiveQuery
