import RecursiveQuery.Inversion.QueryPlan
import RecursiveQuery.Proofs.Names
import RecursiveQuery.Proofs.NamingRuns

/-!
# Shapes of calls

A call lines up with the parameter of its predicate in one of two ways.  A
variable stands for whole rows, whose components are named after the parameter;
or each component of the argument is a wanted variable or gets a fresh name.
-/

namespace RecursiveQuery

/-- A fresh name that avoids some names at least. -/
def Name.Drawn (reserved : List Name) (base name : Name) : Prop :=
  ∃ supply : NameSupply, reserved ⊆ supply.used ∧ name = supply.freshName base

theorem NameSupply.fresh_drawn (base : Name) (supply : NameSupply) :
    (fresh base).Ensures supply fun name _ =>
    Name.Drawn supply.used base name :=
  .fresh ⟨supply, List.Subset.refl _, rfl⟩

namespace CallShape

variable {reserved avoided : List Name}

/-- The shape that replaces a parameter variable in addition, unless a later one
of the same name is replaced already. -/
def replacing (shape : CallShape) (formal component : Name) : CallShape :=
  { shape with
    replacements :=
      if NameMap.contains shape.replacements formal then shape.replacements
      else (formal, .var component) :: shape.replacements }

/-- Names for the components of whole rows: those of the parameter, or fresh
ones where they clash. -/
inductive NamesRows (clash : Name → Bool) (reserved : List Name) :
    List Pattern → List Name → Replacements → Prop
  | nil : NamesRows clash reserved [] [] []
  | kept {name : Name} {formals : List Pattern} {goals : List Name}
      {later : Replacements} :
      clash name = false → NamesRows clash reserved formals goals later →
      NamesRows clash reserved (.var name :: formals) (name :: goals) later
  | drawn {name goal : Name} {formals : List Pattern} {goals : List Name}
      {later : Replacements} :
      Name.Drawn reserved name goal →
        NamesRows clash reserved formals goals later →
      NamesRows clash reserved (.var name :: formals) (goal :: goals)
        (if NameMap.contains later name then later else
          (name, .var goal) :: later)

/-- Names for the components of an argument, behind some names that are given
already. -/
inductive NamesComponents (wanted reserved : List Name) :
    List (Pattern × Expr) → List Name → CallShape → Prop
  | nil {goals : List Name} :
      NamesComponents wanted reserved [] goals ⟨goals, [], .row goals, []⟩
  | kept {formal name : Name} {pairs : List (Pattern × Expr)}
      {goals : List Name} {shape : CallShape} :
      name ∈ wanted → name ∉ goals →
      NamesComponents wanted reserved pairs (goals ++ [name]) shape →
      NamesComponents wanted reserved ((.var formal, .var name) :: pairs) goals
        (shape.replacing formal name)
  | drawn {formal component : Name} {item : Expr}
      {pairs : List (Pattern × Expr)} {goals : List Name} {shape : CallShape} :
      Name.Drawn reserved formal component →
      NamesComponents wanted reserved pairs (goals ++ [component]) shape →
      NamesComponents wanted reserved ((.var formal, item) :: pairs) goals
        { shape.replacing formal component with
          residual := .equals (.var component) item :: shape.residual }

theorem NamesRows.mono {clash : Name → Bool} {formals : List Pattern}
    {goals : List Name} {replacements : Replacements}
    (fewer : reserved ⊆ avoided)
    (named : NamesRows clash avoided formals goals replacements) :
    NamesRows clash reserved formals goals replacements := by
  induction named with
  | nil => exact .nil
  | kept free _ induction => exact .kept free induction
  | drawn drawn _ induction =>
      obtain ⟨supply, avoids, rfl⟩ := drawn
      exact .drawn ⟨supply, List.Subset.trans fewer avoids, rfl⟩ induction

theorem NamesComponents.mono {wanted : List Name}
    {pairs : List (Pattern × Expr)} {goals : List Name} {shape : CallShape}
    (fewer : reserved ⊆ avoided)
    (named : NamesComponents wanted avoided pairs goals shape) :
    NamesComponents wanted reserved pairs goals shape := by
  induction named with
  | nil => exact .nil
  | kept isWanted new _ induction => exact .kept isWanted new induction
  | drawn drawn _ induction =>
      obtain ⟨supply, avoids, rfl⟩ := drawn
      exact .drawn ⟨supply, List.Subset.trans fewer avoids, rfl⟩ induction

theorem nameRows_names (param : Pattern) (clash : Name → Bool)
    (formals : List Pattern) (supply : NameSupply) :
    (nameRows param clash formals).Ensures supply fun result later =>
      ∀ goals replacements, result = .ok (goals, replacements) →
        NamesRows clash supply.used formals goals replacements ∧
          ∀ goal ∈ goals, goal ∈ later.used ∨ .var goal ∈ formals := by
  induction formals generalizing supply with
  | nil =>
      refine .pure ?_
      rintro _ _ ⟨⟩
      exact ⟨.nil, nofun⟩
  | cons formal formals induction =>
      cases formal with
      | var name =>
          rw [nameRows]
          by_cases clashes : clash name = true
          · simp only [clashes, if_true, Bool.true_and]
            refine .bind ((NameSupply.fresh_drawn name supply).and
              (NameSupply.fresh_spec name supply)) ?_
            rintro goal later grown ⟨drawn, -, reserved⟩
            refine .bind (induction later).keeps ?_
            rintro (refusal | ⟨goals, replacements⟩) last _ ⟨grownLast, named⟩
            · exact .pure nofun
            · refine .pure ?_
              rintro _ _ ⟨⟩
              obtain ⟨rows, among⟩ := named goals replacements rfl
              have result := NamesRows.drawn drawn (rows.mono grown)
              refine
                ⟨?_, List.forall_mem_cons.mpr ⟨.inl (grownLast reserved), ?_⟩⟩
              · cases repeated : NameMap.contains replacements name <;>
                  simpa [repeated] using result
              · exact fun other member =>
                  (among other member).imp_right (List.mem_cons_of_mem _)
          · rw [Bool.not_eq_true] at clashes
            simp only [clashes, Bool.false_and, Bool.false_eq_true, if_false,
              pure_bind]
            refine .bind (induction supply) ?_
            rintro (refusal | ⟨goals, replacements⟩) last _ named
            · exact .pure nofun
            · refine .pure ?_
              rintro _ _ ⟨⟩
              obtain ⟨rows, among⟩ := named goals replacements rfl
              refine ⟨.kept clashes rows,
                List.forall_mem_cons.mpr ⟨.inr List.mem_cons_self, ?_⟩⟩
              exact fun other member =>
                (among other member).imp_right (List.mem_cons_of_mem _)
      | _ => exact .pure nofun

theorem nameComponents_names (param : Pattern) (wanted : List Name)
    (pairs : List (Pattern × Expr)) (goals : List Name) (supply : NameSupply) :
    (nameComponents param wanted pairs goals).Ensures supply fun result later =>
      ∀ shape, result = .ok shape →
        NamesComponents wanted supply.used pairs goals shape ∧
        ∀ goal ∈ shape.goals, goal ∈ later.used ∨ goal ∈ goals ++ wanted := by
  induction pairs generalizing goals supply with
  | nil =>
      refine .pure ?_
      rintro _ ⟨⟩
      exact ⟨.nil, fun goal member => .inr (List.mem_append_left _ member)⟩
  | cons pair pairs induction =>
      obtain ⟨formal, item⟩ := pair
      cases formal with
      | var formal =>
          -- Whatever is done behind a fresh component, as long as it gets its
          -- equation.
          have draws (finish : Name → Except Refusal CallShape →
            Naming (Except Refusal CallShape))
              (failed : ∀ component refusal, finish component (.error refusal) =
                return .error refusal)
              (finished : ∀ component shape, finish component (.ok shape) =
                return .ok { shape.replacing formal component with
                  residual :=
                    .equals (.var component) item :: shape.residual }) :
              Naming.Ensures (NameSupply.fresh formal >>= fun component =>
                nameComponents param wanted pairs (goals ++ [component]) >>=
                  finish component)
              supply fun result later => ∀ shape, result = .ok shape →
                NamesComponents wanted supply.used
                  ((.var formal, item) :: pairs) goals shape ∧
                  ∀ goal ∈ shape.goals, goal ∈ later.used ∨
                  goal ∈ goals ++ wanted := by
            refine .bind ((NameSupply.fresh_drawn formal supply).and
              (NameSupply.fresh_spec formal supply)) ?_
            rintro component later grown ⟨drawn, -, reserved⟩
            refine .bind (induction (goals ++ [component]) later).keeps ?_
            rintro (refusal | shape) last _ ⟨grownLast, named⟩
            · rw [failed]
              exact .pure nofun
            · rw [finished]
              refine .pure ?_
              rintro _ ⟨⟩
              obtain ⟨components, among⟩ := named shape rfl
              refine ⟨.drawn drawn (components.mono grown), ?_⟩
              intro goal member
              have cases := among goal member
              simp only [List.mem_append, List.mem_singleton] at cases ⊢
              rcases cases with isReserved | (before | rfl) | isWanted
              · exact .inl isReserved
              · exact .inr (.inl before)
              · exact .inl (grownLast reserved)
              · exact .inr (.inr isWanted)
          cases item with
          | var name =>
              by_cases keeps :
                (wanted.contains name && !goals.contains name) = true
              · simp only [nameComponents, keeps, if_true, pure_bind]
                obtain ⟨isWanted, new⟩ : name ∈ wanted ∧ name ∉ goals := by
                  simpa using keeps
                refine .bind (induction (goals ++ [name]) supply) ?_
                rintro (refusal | shape) last _ named
                · exact .pure nofun
                · refine .pure ?_
                  rintro _ ⟨⟩
                  obtain ⟨components, among⟩ := named shape rfl
                  refine ⟨.kept isWanted new components, ?_⟩
                  intro goal member
                  have cases := among goal member
                  simp only [List.mem_append, List.mem_singleton] at cases ⊢
                  rcases cases with isReserved | (before | rfl) | wants
                  · exact .inl isReserved
                  · exact .inr (.inl before)
                  · exact .inr (.inr isWanted)
                  · exact .inr (.inr wants)
              · simp only [nameComponents, keeps]
                exact draws _ (fun _ _ => rfl) fun _ _ => rfl
          | _ => exact draws _ (fun _ _ => rfl) fun _ _ => rfl
      | _ => exact .pure nofun

/-- How a call lines up with a parameter when nothing is bound yet. -/
inductive LinesUp (wanted reserved : List Name) :
    Pattern → Expr → CallShape → Prop
  | rows {formals : List Pattern} {whole : Name} {goals : List Name}
      {replacements : Replacements} :
      whole ∈ wanted →
      NamesRows (fun name => name = whole || wanted.contains name) reserved
        formals goals replacements →
      LinesUp wanted reserved (.tuple formals) (.var whole)
        ⟨goals, replacements, .var whole, []⟩
  | components {param : Pattern} {argument : Expr}
      {pairs : List (Pattern × Expr)} {shape : CallShape} :
      pairs? param argument = some pairs →
        NamesComponents wanted reserved pairs [] shape →
      wanted ⊆ shape.goals → LinesUp wanted reserved param argument shape

theorem ofComponents_linesUp (param : Pattern) (argument : Expr)
    (wanted : List Name) (supply : NameSupply) :
    (ofComponents param argument wanted).Ensures supply fun result later =>
      ∀ shape, result = .ok shape →
        LinesUp wanted supply.used param argument shape ∧
        ∀ goal ∈ shape.goals, goal ∈ later.used ∨
        goal ∈ wanted ++ param.occurrences := by
  rw [ofComponents]
  split
  · exact .pure nofun
  · next pairs paired =>
      refine .bind (nameComponents_names param wanted pairs [] supply) ?_
      rintro (refusal | shape) last _ named
      · exact .pure nofun
      · dsimp only
        split
        · exact .pure nofun
        · next covered =>
            refine .pure ?_
            rintro _ ⟨⟩
            obtain ⟨components, among⟩ := named shape rfl
            refine ⟨.components paired components ?_, ?_⟩
            · intro goal member
              simpa using List.find?_eq_none.mp covered goal
                (Name.mem_ascending.mpr member)
            · exact fun goal member =>
                (among goal member).imp_right (List.mem_append_left _)

theorem ofCall_linesUp (param : Pattern) (argument : Expr) (wanted : List Name)
    (supply : NameSupply) :
    (ofCall param argument wanted []).Ensures supply fun result later =>
      ∀ shape, result = .ok shape →
        LinesUp wanted supply.used param argument shape ∧
        ∀ goal ∈ shape.goals, goal ∈ later.used ∨
        goal ∈ wanted ++ param.occurrences := by
  have all : (wanted.filter fun goal =>
    !NameMap.contains ([] : NameMap Generator) goal) =
      wanted := List.filter_eq_self.mpr fun _ _ => rfl
  unfold ofCall
  simp only [all]
  split
  · next formals whole =>
      split
      · next isWanted =>
          refine .bind (nameRows_names _ _ formals supply) ?_
          rintro (refusal | ⟨goals, replacements⟩) last _ named
          · exact .pure nofun
          · refine .pure ?_
            rintro _ ⟨⟩
            obtain ⟨rows, among⟩ := named goals replacements rfl
            simp only [NameMap.contains, List.lookup_nil, Option.isSome_none,
              Bool.or_false] at rows
            refine ⟨.rows (by simpa using isWanted) rows, ?_⟩
            intro goal member
            refine (among goal member).imp_right fun isFormal =>
              List.mem_append_right _ ?_
            exact Pattern.occurrences_of_mem isFormal List.mem_cons_self
      · exact ofComponents_linesUp _ _ wanted supply
  · exact ofComponents_linesUp _ _ wanted supply

end CallShape

end RecursiveQuery
