import RecursiveQuery.Proofs.ClauseInversion
import RecursiveQuery.Proofs.JoinedScans

/-!
# What patterns denote

With values for its variables a pattern denotes values, more than one if it has
a wildcard.  Matching does not ask for equal values where a variable is repeated
or bound already, but matching the freshened pattern does so by its equations:
it succeeds exactly on the values that equal one that the pattern denotes.
-/

namespace RecursiveQuery

namespace Pattern

mutual

/-- The values that a pattern denotes; a wildcard denotes all values. -/
def Denotes (values : Name → Value) : Pattern → Value → Prop
  | wildcard, _ => True
  | var name, value => value = values name
  | literal expected, value => value = .ofLiteral expected
  | tuple patterns, .tuple items => DenotesEach values patterns items
  | tuple _, _ => False

def DenotesEach (values : Name → Value) : List Pattern → List Value → Prop
  | [], [] => True
  | pattern :: patterns, item :: items =>
      Denotes values pattern item ∧ DenotesEach values patterns items
  | _, _ => False

end

mutual

/-- A value fits a pattern if it equals a value that the pattern denotes. -/
theorem fits_iff_denotes {values : Name → Value} (pattern : Pattern)
    (value : Value) :
    pattern.Fits values value ↔ ∃ meant, pattern.Denotes values meant ∧
      meant.Alike value := by
  cases pattern with
  | wildcard =>
      constructor
      · intro _
        exact ⟨value, trivial, Value.Alike.refl value⟩
      · intro _
        trivial
  | var name =>
      constructor
      · intro fits
        exact ⟨values name, rfl, Value.Alike.symm fits⟩
      · intro denoted
        obtain ⟨meant, isValue, alike⟩ := denoted
        cases isValue
        exact alike.symm
  | literal expected =>
      constructor
      · intro fits
        exact ⟨.ofLiteral expected, rfl, fits⟩
      · intro denoted
        obtain ⟨meant, isLiteral, alike⟩ := denoted
        cases isLiteral
        exact alike
  | tuple patterns =>
      constructor
      · intro fits
        cases value with
        | tuple items =>
            obtain ⟨meant, denotes, alike⟩ :=
              (fitsEach_iff_denotesEach patterns items).mp fits
            exact ⟨.tuple meant, denotes, Value.sameList_iff.mpr alike⟩
        | _ => cases fits
      · intro denoted
        obtain ⟨meant, denotes, alike⟩ := denoted
        cases meant with
        | tuple components =>
            cases value with
            | tuple items =>
                exact (fitsEach_iff_denotesEach patterns items).mpr
                  ⟨components, denotes, Value.sameList_iff.mp alike⟩
            | _ => cases alike
        | _ => cases denotes

theorem fitsEach_iff_denotesEach {values : Name → Value}
    (patterns : List Pattern) (items : List Value) :
    FitsEach values patterns items ↔
      ∃ meant, DenotesEach values patterns meant ∧
      List.Forall₂ Value.Alike meant items := by
  cases patterns with
  | nil =>
      constructor
      · intro fits
        cases items with
        | nil => exact ⟨[], trivial, .nil⟩
        | cons _ _ => cases fits
      · intro denoted
        obtain ⟨meant, denotes, alike⟩ := denoted
        cases alike with
        | nil => trivial
        | cons _ _ => cases denotes
  | cons pattern patterns =>
      constructor
      · intro fits
        cases items with
        | nil => cases fits
        | cons item items =>
            obtain ⟨first, denotes, alike⟩ :=
              (fits_iff_denotes pattern item).mp fits.1
            obtain ⟨others, denotesRest, alikeRest⟩ :=
              (fitsEach_iff_denotesEach patterns items).mp fits.2
            exact ⟨first :: others, ⟨denotes, denotesRest⟩,
              .cons alike alikeRest⟩
      · intro denoted
        obtain ⟨meant, denotes, alike⟩ := denoted
        cases alike with
        | nil => cases denotes
        | @cons first item others items alike alikeRest =>
            exact
              ⟨(fits_iff_denotes pattern item).mpr ⟨first, denotes.1, alike⟩,
              (fitsEach_iff_denotesEach patterns items).mpr
              ⟨others, denotes.2, alikeRest⟩⟩

end

/-- Freshening a pattern loses no constraint.  The result repeats no variable
and binds none that was bound, and a value matches it so that the equations hold
exactly if, for some values of the variables that were not bound, the pattern
denotes a value equal to it.  Functions may be among the values. -/
theorem freshening_loses_no_constraint (pattern : Pattern) (scope : Scope)
    (supply : NameSupply) (reserved : pattern.occurrences ⊆ supply.used)
    (boundReserved : ∀ name, scope.isBound name = true → name ∈ supply.used)
    (session : Session) (site : Site) (env : Env)
    (assigned : ∀ name, scope.isBound name = true →
      (env.lookup name).isSome = true)
    (value : Value) :
    let freshened := ((pattern.freshen scope).run supply).1
    freshened.1.occurrences.Nodup ∧
      (∀ name ∈ freshened.1.occurrences, scope.isBound name = false) ∧
      ((∃ inner, freshened.1.bind value env = some inner ∧
          ∀ equation ∈ freshened.2, session.evalIn site inner equation =
            .ok (.bool true)) ↔
        ∃ values : Name → Value,
          (∀ name, scope.isBound name = true →
            env.lookup name = some (values name)) ∧
          ∃ meant, pattern.Denotes values meant ∧ meant.Alike value) := by
  intro freshened
  have spec : Freshened scope pattern supply freshened.1 freshened.2 _ :=
    (freshen_spec pattern reserved boundReserved).2
  have fits := spec.fits session (session.call session.limits.maxDepth) site
  refine ⟨spec.distinct, spec.unbound, ?_⟩
  constructor
  · intro found
    obtain ⟨inner, binds, hold⟩ := found
    have agrees : ∀ name, scope.isBound name = true →
        env.lookup name = some (session.meaning inner name) := by
      intro name isBound
      obtain ⟨known, lookedUp⟩ :=
        Option.isSome_iff_exists.mp (assigned name isBound)
      have absent : name ∉ freshened.1.occurrences := fun occurs =>
        Bool.false_ne_true ((spec.unbound name occurs).symm.trans isBound)
      rw [Session.meaning_of_env ((lookup_of_bind binds absent).trans lookedUp),
        lookedUp]
    -- the match itself gives the values of the variables that were not bound
    refine ⟨session.meaning inner, agrees,
      (fits_iff_denotes pattern value).mp ?_⟩
    refine (fits (session.meaning inner) value env ?_).mpr
      ⟨inner, binds, ?_, hold⟩
    · intro name _ isBound
      exact ⟨_, agrees name isBound, Value.Alike.refl _⟩
    · intro name occurs isUnbound
      obtain ⟨known, lookedUp⟩ :=
        exists_lookup_of_bind binds (spec.kept name occurs isUnbound)
      refine ⟨known, lookedUp, ?_⟩
      rw [Session.meaning_of_env lookedUp]
      exact Value.Alike.refl known
  · intro denoted
    obtain ⟨values, agrees, meant⟩ := denoted
    have given : ∀ name ∈ pattern.occurrences, scope.isBound name = true →
        env.Gives values name :=
      fun name _ isBound =>
        ⟨values name, agrees name isBound, Value.Alike.refl _⟩
    obtain ⟨inner, binds, _, hold⟩ :=
      (fits values value env given).mp
      ((fits_iff_denotes pattern value).mpr meant)
    exact ⟨inner, binds, hold⟩

/-- A bound variable and an unbound one, each of them twice.  The value of the
bound variable is a bag, and one of the components that equal it has its rows in
another order. -/
theorem freshening_loses_no_constraint_nested :
    let pattern : Pattern :=
      .tuple [.var "x", .tuple [.var "k", .var "x", .wildcard], .var "k",
        .literal (.int 3)]
    let scope := Scope.initial ["x"] [("k", .singleton (.var "k") (.var "b"))]
    let supply := NameSupply.reserving ["x", "k", "b", "x_1"]
    let session := Session.empty {}
    let env : Env := [("k", .collection .bag [.int 1, .int 2])]
    let value : Value := .tuple [.int 7,
      .tuple [.collection .bag [.int 2, .int 1], .int 7, .unit],
      .collection .bag [.int 1, .int 2], .int 3]
    let freshened : Pattern :=
      .tuple [.var "x", .tuple [.var "k_1", .var "x_2", .wildcard], .var "k_2",
        .literal (.int 3)]
    let equations : List Expr :=
      [.equals (.var "k_1") (.var "k"), .equals (.var "x_2") (.var "x"),
      .equals (.var "k_2") (.var "k")]
    ((pattern.freshen scope).run supply).1 = (freshened, equations) ∧
      ∃ inner, freshened.bind value env = some inner ∧ ∀ equation ∈ equations,
        session.evalIn (Session.root 0) inner equation = .ok (.bool true) := by
  intro pattern scope supply session env value freshened equations
  have isFreshened : ((pattern.freshen scope).run supply).1 =
    (freshened, equations) := by
    decide +kernel
  have isBound (name : Name) (known : scope.isBound name = true) : name =
    "k" := by
    change (List.lookup name [("k", _)]).isSome = true at known
    rw [List.lookup_cons] at known
    cases same : name == "k" with
    | true => exact eq_of_beq same
    | false =>
        rw [same] at known
        cases known
  have restored :=
    freshening_loses_no_constraint pattern scope supply (by decide)
    (fun name known => by rw [isBound name known]; decide) session
    (Session.root 0) env
    (fun name known => by rw [isBound name known]; rfl) value
  rw [isFreshened] at restored
  let values : Name → Value := fun name =>
    if name = "k" then .collection .bag [.int 1, .int 2] else .int 7
  let meant : Value := .tuple [.int 7,
    .tuple [.collection .bag [.int 1, .int 2], .int 7, .unit],
    .collection .bag [.int 1, .int 2], .int 3]
  have denotes : pattern.Denotes values meant :=
    ⟨rfl, ⟨rfl, rfl, trivial, trivial⟩, rfl, rfl, trivial⟩
  have alike : meant.same value = true := by
    decide
  refine ⟨isFreshened, restored.2.2.mpr ⟨values, ?_, meant, denotes, alike⟩⟩
  intro name known
  rw [isBound name known]
  rfl

end Pattern

end RecursiveQuery
