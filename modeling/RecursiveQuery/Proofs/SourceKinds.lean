import RecursiveQuery.Proofs.FreshenedPatterns
import RecursiveQuery.Proofs.KnownInversion
import RecursiveQuery.Proofs.WiderLimits

/-!
# Kinds of sources

The kind of a source is found twice: from the declarations before the program
runs, and from the collections that its evaluation meets.  The first bounds the
second where names mean what their last declarations say: a name is not hidden
by a variable, not declared again behind a value that was computed from it, and
no bag is declared to be a list.  The two are the same where in addition every
comprehension scans a collection of its joined kind first, for what stands
behind an empty source is never scanned.
-/

namespace RecursiveQuery

/-- A kind that was met is at most the one that was foreseen; in a strict
reading they are the same. -/
structure CollectionKind.Fits (strict : Bool)
    (found foreseen : CollectionKind) : Prop where
  bounded : found = .bag → foreseen = .bag
  exactly : strict = true → found = foreseen

namespace CollectionKind

variable {strict : Bool} {found foreseen left right : CollectionKind}

theorem join_eq_bag : left.join right = .bag ↔ left = .bag ∨ right = .bag := by
  cases left <;> cases right <;> simp [join]

theorem Fits.refl (kind : CollectionKind) : Fits strict kind kind :=
  ⟨id, fun _ => rfl⟩

theorem Fits.join {foundRight foreseenRight : CollectionKind}
    (fits : Fits strict found foreseen)
    (fitsRight : Fits strict foundRight foreseenRight) :
    Fits strict (found.join foundRight) (foreseen.join foreseenRight) := by
  constructor
  · intro bag
    rw [join_eq_bag] at bag ⊢
    exact bag.imp fits.bounded fitsRight.bounded
  · intro isStrict
    rw [fits.exactly isStrict, fitsRight.exactly isStrict]

end CollectionKind

/-- A collection whose kind fits the foreseen one. -/
def Value.HasKind (strict : Bool) (kind : CollectionKind) (value : Value) :
    Prop :=
  ∃ found rows, value = .collection found rows ∧ found.Fits strict kind

theorem Rows.kind_below {kind : CollectionKind} {parts : List Rows} :
    (below kind parts).kind = .bag ↔ kind = .bag ∨
    ∃ part ∈ parts, part.kind = .bag := by
  have folded : ∀ kind : CollectionKind,
      parts.foldl (fun kind part => kind.join part.kind) kind = .bag ↔
        kind = .bag ∨ ∃ part ∈ parts, part.kind = .bag := by
    induction parts with
    | nil => simp
    | cons part parts induction =>
        intro kind
        rw [List.foldl_cons, induction, CollectionKind.join_eq_bag]
        simp [or_assoc]
  exact folded kind

namespace Expr

/-- The foreseen kind of the source that is scanned first. -/
def leadingKind (named : Name → SourceShape) : List Scan → CollectionKind
  | ⟨_, some source⟩ :: _ => (source.shapeUsing named).kind
  | _ => .list

mutual

/-- Whether the names that the foreseen kind of a source rests on are settled
and not hidden.  In a strict reading the first source of a comprehension has the
kind of all its sources. -/
def keepsKind (strict : Bool) (named : Name → SourceShape)
    (settled : Name → Bool) : (hidden : List Name) → Expr → Bool
  | hidden, var name => !hidden.contains name && settled name
  | hidden, binary .append left right =>
      keepsKind strict named settled hidden left &&
        keepsKind strict named settled hidden right
  | hidden, collect ⟨scans, _⟩ =>
      (!strict || leadingKind named scans =
        (shapeScans named ⟨.list, .finite⟩ scans).kind) &&
        scansKeepKind strict named settled hidden scans
  | _, _ => true

def scansKeepKind (strict : Bool) (named : Name → SourceShape)
    (settled : Name → Bool) : (hidden : List Name) → List Scan → Bool
  | _, [] => true
  | hidden, ⟨pattern, none⟩ :: scans =>
      scansKeepKind strict named settled (pattern.occurrences ++ hidden) scans
  | hidden, ⟨pattern, some source⟩ :: scans =>
      keepsKind strict named settled hidden source &&
        scansKeepKind strict named settled (pattern.occurrences ++ hidden) scans

end

section Shapes

variable {named : Name → SourceShape} {shape : SourceShape} {scans : List Scan}

theorem finite_of_shapeScans
    (finite : (shapeScans named shape scans).cardinality = .finite) :
    shape.cardinality = .finite := by
  induction scans generalizing shape with
  | nil => exact finite
  | cons scan scans induction =>
      obtain ⟨pattern, _ | source⟩ := scan
      · cases induction finite
      · exact (Cardinality.join_eq_finite.mp (induction finite)).1

theorem shapeScans_eq_bag (bag : shape.kind = .bag) :
    (shapeScans named shape scans).kind = .bag := by
  induction scans generalizing shape with
  | nil => exact bag
  | cons scan scans induction =>
      obtain ⟨pattern, _ | source⟩ := scan
      · exact induction bag
      · exact induction (CollectionKind.join_eq_bag.mpr (.inl bag))

end Shapes

end Expr

/-- Settled names have values of their foreseen kinds. -/
def Session.Supplies (session : Session) (strict : Bool)
    (named : Name → SourceShape) (settled : Name → Bool)
    (redeclared : List Name) : Prop :=
  ∀ name ∉ redeclared, settled name = true →
    (named name).cardinality = .finite →
    ∃ value, session.globals.lookup name = some value ∧
    value.HasKind strict (named name).kind

namespace Expr

section Evaluation

variable {session : Session} {call : Caller} {strict : Bool}
  {named : Name → SourceShape}
  {settled : Name → Bool} {redeclared : List Name}
variable {pattern : Pattern} {env : Env} {kind : CollectionKind}

/-- Behind a scan its variables are hidden. -/
theorem hidden_of_bind {row : Value} {inner : Env} {hidden : List Name}
    (hides : ∀ name, env.lookup name ≠ none → name ∈ hidden)
    (binds : pattern.bind row env = some inner) :
    ∀ name, inner.lookup name ≠ none →
      name ∈ pattern.occurrences ++ hidden := by
  intro name bound
  by_cases occurs : name ∈ pattern.occurrences
  · exact List.mem_append_left _ occurs
  · rw [Pattern.lookup_of_bind binds occurs] at bound
    exact List.mem_append_right _ (hides name bound)

theorem fits_of_evalSource {site : Site} {source : Expr} {sourced : Rows}
    (evaluated : evalSource session call env site pattern (some source) =
      .ok sourced)
    (hasKind : ∀ value, source.eval session call env site = .ok value →
      value.HasKind strict kind) : sourced.kind.Fits strict kind := by
  rw [evalSource, Outcome.bind_eq_ok_iff] at evaluated
  obtain ⟨value, sourceEvaluated, returned⟩ := evaluated
  obtain ⟨found, rows, rfl, fits⟩ := hasKind value sourceEvaluated
  cases returned
  exact fits

/-- What was scanned first decides, if it has the kind of everything. -/
theorem kind_below_eq {total : CollectionKind} {parts : List Rows}
    (leads : kind = total)
    (bounded : (Rows.below kind parts).kind = .bag → total = .bag) :
    (Rows.below kind parts).kind = total := by
  cases total with
  | list =>
      cases met : (Rows.below kind parts).kind with
      | list => rfl
      | bag => cases bounded met
  | bag => exact Rows.kind_below.mpr (.inl leads)

mutual

/-- A finite source that keeps its kind evaluates to a collection of the
foreseen kind. -/
theorem hasKind_of_eval
    (supplied : session.Supplies strict named settled redeclared) (expr : Expr)
    {hidden : List Name} {env : Env} {site : Site} {value : Value}
    (inside : redeclared ⊆ hidden)
    (hides : ∀ name, env.lookup name ≠ none → name ∈ hidden)
    (kept : expr.keepsKind strict named settled hidden = true)
    (finite : (expr.shapeUsing named).cardinality = .finite)
    (evaluated : expr.eval session call env site = .ok value) :
    value.HasKind strict (expr.shapeUsing named).kind := by
  match expr with
  | .list items =>
      rw [eval, Outcome.bind_eq_ok_iff] at evaluated
      obtain ⟨rows, _, returned⟩ := evaluated
      cases returned
      exact ⟨.list, rows, rfl, .refl _⟩
  | .var name =>
      rw [keepsKind, Bool.and_eq_true, Bool.not_eq_true', List.contains_eq_mem,
        decide_eq_false_iff_not] at kept
      have unbound : env.lookup name = none :=
        Decidable.byContradiction fun bound => kept.1 (hides name bound)
      obtain ⟨known, found, hasKind⟩ :=
        supplied name (fun member => kept.1 (inside member)) kept.2 finite
      rw [eval, Session.lookup, unbound, found] at evaluated
      cases evaluated
      exact hasKind
  | .binary .append left right =>
      rw [keepsKind, Bool.and_eq_true] at kept
      obtain ⟨leftFinite, rightFinite⟩ := Cardinality.join_eq_finite.mp finite
      simp only [eval, Outcome.bind_eq_ok_iff] at evaluated
      obtain ⟨leftValue, leftEvaluated, rightValue, rightEvaluated, applied⟩ :=
        evaluated
      obtain ⟨leftKind, leftRows, rfl, leftFits⟩ :=
        hasKind_of_eval supplied left inside hides kept.1 leftFinite
          leftEvaluated
      obtain ⟨rightKind, rightRows, rfl, rightFits⟩ :=
        hasKind_of_eval supplied right inside hides kept.2 rightFinite
          rightEvaluated
      cases applied
      exact ⟨_, _, rfl, leftFits.join rightFits⟩
  | .collect ⟨scans, steps⟩ =>
      rw [keepsKind, Bool.and_eq_true] at kept
      rw [eval, Outcome.bind_eq_ok_iff] at evaluated
      obtain ⟨found, collected, returned⟩ := evaluated
      cases returned
      have bounded :=
        bag_of_collectScans supplied scans inside hides kept.2 finite collected
      refine ⟨found.kind, found.rows, rfl, bounded, ?_⟩
      intro isStrict
      have leads : leadingKind named scans =
        (shapeScans named ⟨.list, .finite⟩ scans).kind := by
        simpa [isStrict] using kept.1
      match scans with
      | [] =>
          obtain ⟨output, _, rfl⟩ := collectScans_nil_eq_ok_iff.mp collected
          rfl
      | ⟨pattern, none⟩ :: scans =>
          rw [shapeUsing, shapeScans] at finite
          cases finite_of_shapeScans finite
      | ⟨pattern, some source⟩ :: scans =>
          rw [scansKeepKind, Bool.and_eq_true] at kept
          rw [shapeUsing, shapeScans] at finite
          obtain ⟨sourced, parts, evaluated, _, rfl⟩ :=
            collectScans_cons_eq_ok_iff.mp collected
          have fits := fits_of_evalSource evaluated fun value sourceEvaluated =>
            hasKind_of_eval supplied source inside hides kept.2.1
              (Cardinality.join_eq_finite.mp (finite_of_shapeScans finite)).2
              sourceEvaluated
          exact kind_below_eq ((fits.exactly isStrict).trans leads) bounded

/-- Only a bag that was foreseen makes the rows of scans a bag. -/
theorem bag_of_collectScans
    (supplied : session.Supplies strict named settled redeclared)
    (scans : List Scan) {hidden : List Name} {shape : SourceShape}
    {finish : Env → Site → List Value → Outcome (Option Value)} {env : Env}
    {site : Site} {scanned : List Value} {found : Rows}
    (inside : redeclared ⊆ hidden)
    (hides : ∀ name, env.lookup name ≠ none → name ∈ hidden)
    (kept : scansKeepKind strict named settled hidden scans = true)
    (finite : (shapeScans named shape scans).cardinality = .finite)
    (collected : collectScans session call finish env site scanned scans =
      .ok found) (bag : found.kind = .bag) :
      (shapeScans named shape scans).kind = .bag := by
  match scans with
  | [] =>
      obtain ⟨output, _, rfl⟩ := collectScans_nil_eq_ok_iff.mp collected
      cases bag
  | ⟨pattern, none⟩ :: scans =>
      rw [shapeScans] at finite
      cases finite_of_shapeScans finite
  | ⟨pattern, some source⟩ :: scans =>
      rw [scansKeepKind, Bool.and_eq_true] at kept
      rw [shapeScans] at finite ⊢
      obtain ⟨sourced, parts, evaluated, pairs, rfl⟩ :=
        collectScans_cons_eq_ok_iff.mp collected
      rcases Rows.kind_below.mp bag with first | ⟨part, member, later⟩
      · have fits := fits_of_evalSource evaluated fun value sourceEvaluated =>
          hasKind_of_eval supplied source inside hides kept.1
            (Cardinality.join_eq_finite.mp (finite_of_shapeScans finite)).2
            sourceEvaluated
        apply shapeScans_eq_bag
        apply CollectionKind.join_eq_bag.mpr
        exact .inr (fits.bounded first)
      · obtain ⟨⟨index, row, inner⟩, matched, done⟩ :=
          exists_mem_left pairs member
        have binds := (Pattern.mem_matching_iff.mp matched).2
        exact bag_of_collectScans supplied scans
          (List.subset_append_of_subset_right _ inside)
          (hidden_of_bind hides binds) kept.2 finite done later

end

end Evaluation

end Expr

/-- Whether a declared value has the kind of its declaration, given the shape of
its contents: a bag is not declared to be a list. -/
def SourceShape.fitsDecl (contents : Expr → SourceShape) (kept : Expr → Bool) :
    Option Decl → Bool
  | some (.val _ type (some value)) =>
      (type.map CollectionKind.ofType ≠ some .list || (contents value).kind =
        .list) && kept value
  | _ => true

/-- The names that are declared from the last declaration of a name on. -/
def Program.declaredSince (program : Program) (name : Name) : List Name :=
  name :: (program.decls.reverse.takeWhile fun decl => decl.name != name).map
    Decl.name

namespace Expr

/-- Whether a source keeps its kind, following names to their declared values
through at most `chain` steps.  What a value was computed from is not declared
again behind it. -/
def keepsKindWithin (program : Program) (strict : Bool) :
    (chain : Nat) → (hidden : List Name) → Expr → Bool
  | 0, _, _ => true
  | chain + 1, hidden, source =>
      source.keepsKind strict
        (fun name => .ofDecl (shapeWithin program chain) (program.decl? name))
        (fun name => SourceShape.fitsDecl (shapeWithin program chain)
          (keepsKindWithin program strict chain (program.declaredSince name))
          (program.decl? name)) hidden

/-- Whether a source keeps the kind that is foreseen for it. -/
def kindIsKept (program : Program) (strict : Bool) (source : Expr) : Bool :=
  source.keepsKindWithin program strict 33 []

end Expr

/-- Whether the value of a name has the kind of its declaration. -/
def Program.isSettled (program : Program) (strict : Bool) (chain : Nat)
    (name : Name) : Bool :=
  SourceShape.fitsDecl (Expr.shapeWithin program chain)
    (Expr.keepsKindWithin program strict chain (program.declaredSince name))
    (program.decl? name)

namespace Value

theorem coerce_collection (type : Option Ty) (kind : CollectionKind)
    (rows : List Value) : (collection kind rows).coerce type =
      collection
        (if type.map CollectionKind.ofType = some .bag then .bag else kind)
        rows := by
  cases kind with
  | bag => simp [coerce]
  | list =>
      rcases type with _ | type
      · rfl
      · cases type <;> rfl

theorem HasKind.coerce {strict : Bool} {kind : CollectionKind} {value : Value}
    (hasKind : value.HasKind strict kind) {type : Option Ty}
    (fits : type.map CollectionKind.ofType ≠ some .list ∨ kind = .list) :
    (value.coerce type).HasKind strict
    ((type.map CollectionKind.ofType).getD kind) := by
  obtain ⟨found, rows, rfl, foundFits⟩ := hasKind
  rw [coerce_collection]
  cases declared : type.map CollectionKind.ofType with
  | none => exact ⟨found, rows, rfl, foundFits⟩
  | some declaredKind =>
      cases declaredKind with
      | bag => exact ⟨.bag, rows, rfl, .refl _⟩
      | list =>
          have list : kind = .list :=
            fits.resolve_left fun differs => differs declared
          rw [list] at foundFits
          exact ⟨found, rows, rfl, foundFits⟩

end Value

namespace Program

variable {program : Program} {before rest : List Decl} {decl : Decl}

theorem decl?_of_last (split : program.decls = before ++ decl :: rest)
    (last : decl.name ∉ rest.map Decl.name) :
    program.decl? decl.name = some decl := by
  have later : rest.reverse.find? (fun other => other.name == decl.name) =
    none := by
    rw [List.find?_eq_none]
    intro other member same
    exact last (List.mem_map.mpr
      ⟨other, List.mem_reverse.mp member, by simpa using same⟩)
  simp [decl?, split, later]

theorem mem_declaredSince (split : program.decls = before ++ decl :: rest)
    (last : decl.name ∉ rest.map Decl.name) :
    (decl :: rest).map Decl.name ⊆ program.declaredSince decl.name := by
  have later : ∀ other ∈ rest.reverse, (other.name != decl.name) = true := by
    intro other member
    rw [bne_iff_ne]
    intro same
    exact last (List.mem_map.mpr ⟨other, List.mem_reverse.mp member, same⟩)
  have since :
    (program.decls.reverse.takeWhile fun other => other.name != decl.name) =
      rest.reverse := by
    rw [split, List.reverse_append, List.reverse_cons, List.append_assoc,
      List.takeWhile_append_of_pos later]
    simp
  intro name member
  rw [declaredSince, since]
  simpa using member

end Program

namespace Session

variable {program : Program} {limits : Limits} {strict : Bool}
  {session final : Session}
variable {decls before : List Decl} {site : Site}

/-- The names that are not declared any more have values of their foreseen
kinds. -/
def Fulfills (session : Session) (program : Program) (strict : Bool)
    (decls : List Decl) : Prop :=
  ∀ chain, session.Supplies strict
    (fun name => .ofDecl (Expr.shapeWithin program chain) (program.decl? name))
    (program.isSettled strict chain) (decls.map Decl.name)

/-- A source that keeps its kind, evaluated while some declarations are still to
take effect. -/
theorem hasKind_of_fulfills {hidden : List Name}
    (fulfills : session.Fulfills program strict decls)
    (inside : decls.map Decl.name ⊆ hidden) {chain : Nat} {source : Expr}
    {value : Value}
    (kept : source.keepsKindWithin program strict chain hidden = true)
    (finite : (source.shapeWithin program chain).cardinality = .finite)
    (evaluated : session.eval site source = .ok value) :
    value.HasKind strict (source.shapeWithin program chain).kind := by
  cases chain with
  | zero => cases finite
  | succ chain =>
      exact Expr.hasKind_of_eval (fulfills chain) source inside
        (fun name bound => absurd rfl bound) kept finite evaluated

/-- A declaration that takes effect leaves the other names, so only its own name
is of interest, and only if it is not declared again. -/
theorem Fulfills.step {next : Session} {rest : List Decl} {decl : Decl}
    (split : program.decls = before ++ decl :: rest)
    (fulfills : session.Fulfills program strict (decl :: rest))
    (others : ∀ name ≠ decl.name, next.globals.lookup name =
      session.globals.lookup name)
    (own : decl.name ∉ rest.map Decl.name → ∀ chain,
      SourceShape.fitsDecl (Expr.shapeWithin program chain)
        (Expr.keepsKindWithin program strict chain
          (program.declaredSince decl.name))
        (some decl) = true →
      (SourceShape.ofDecl (Expr.shapeWithin program chain)
        (some decl)).cardinality = .finite →
      ∃ value, next.globals.lookup decl.name = some value ∧
        value.HasKind strict
          (SourceShape.ofDecl (Expr.shapeWithin program chain)
            (some decl)).kind) :
    next.Fulfills program strict rest := by
  intro chain name later settled finite
  by_cases same : name = decl.name
  · subst same
    have last := Program.decl?_of_last split later
    rw [Program.isSettled, last] at settled
    simp only [last] at finite ⊢
    exact own later chain settled finite
  · rw [others name same]
    refine fulfills chain name ?_ settled finite
    simpa [same] using later

theorem fulfills_of_runDecls (split : program.decls = before ++ decls)
    (fulfills : session.Fulfills program strict decls)
    (ran : session.runDecls decls site = .ok final) :
    final.Fulfills program strict [] := by
  induction decls generalizing before session site with
  | nil =>
      cases ran
      exact fulfills
  | cons decl decls induction =>
      have behind : program.decls = (before ++ [decl]) ++ decls := by
        simpa using split
      rcases decl with ⟨name, type, _ | value⟩ | ⟨name, param, body⟩
      · obtain ⟨next, rest, _, _, others⟩ := exists_runDecls_cons ran
        refine induction behind (fulfills.step split others ?_) rest
        intro _ chain _ finite
        cases finite
      · rw [runDecls, Outcome.bind_eq_ok_iff] at ran
        obtain ⟨result, evaluated, rest⟩ := ran
        refine induction behind (fulfills.step split ?_ ?_) rest
        · intro other different
          simp only [define, globals_declare, NameMap.lookup_insert,
            Decl.name] at different ⊢
          rw [if_neg different]
        · intro later chain settled finite
          refine ⟨result.coerce
            type, by simp [define, NameMap.lookup_insert, Decl.name], ?_⟩
          rw [SourceShape.fitsDecl, Bool.and_eq_true,
            Bool.or_eq_true] at settled
          have declared : (session.declare name type).Fulfills program strict
              (.val name type (some value) :: decls) := by
            intro chain other
            rw [globals_declare]
            exact fulfills chain other
          have hasKind :=
            hasKind_of_fulfills declared (Program.mem_declaredSince split later)
            settled.2 finite evaluated
          exact hasKind.coerce
            (settled.1.imp of_decide_eq_true of_decide_eq_true)
      · obtain ⟨next, rest, _, _, others⟩ := exists_runDecls_cons ran
        refine induction behind (fulfills.step split others ?_) rest
        intro _ chain _ finite
        cases finite

theorem fulfills_of_load (loaded : load program limits = .ok session) :
    session.Fulfills program strict [] := by
  refine fulfills_of_runDecls (List.nil_append _).symm ?_ loaded
  intro chain name undeclared _ finite
  have absent : program.decl? name = none := by
    rw [Program.decl?, List.find?_eq_none]
    intro decl member same
    exact undeclared
      (List.mem_map.mpr ⟨decl, List.mem_reverse.mp member, by simpa using same⟩)
  simp only [absent] at finite
  cases finite

/-- A finite source that keeps its kind evaluates to a collection whose kind is
at most the foreseen one, and in the strict reading is the foreseen one. -/
theorem foreseen_kind_fits_value {source : Expr} {kind : CollectionKind}
    {site : Site} {value : Value} (loaded : load program limits = .ok session)
    (kept : source.kindIsKept program strict = true)
    (shape : source.sourceShape program = ⟨kind, .finite⟩)
    (evaluated : session.eval site source = .ok value) :
    ∃ found rows, value = .collection found rows ∧
      (found = .bag → kind = .bag) ∧ (strict = true → found = kind) := by
  have finite : (source.sourceShape program).cardinality = .finite := by
    rw [shape]
  obtain ⟨found, rows, rfl, fits⟩ :=
    hasKind_of_fulfills (fulfills_of_load loaded)
    (List.nil_subset _) kept finite evaluated
  have foreseen : (source.shapeWithin program 33).kind = kind :=
    congrArg SourceShape.kind shape
  rw [foreseen] at fits
  exact ⟨found, rows, rfl, fits.bounded, fits.exactly⟩

/-- The declaration `val b : int bag = [1]`. -/
def bagDecl : Decl :=
  .val "b" (some (.bag .int)) (some (.list [.literal (.int 1)]))

/-- The join of a bag, known under another name, with lists is a bag. -/
theorem foreseen_kind_fits_value_joined :
    let program : Program := ⟨[bagDecl, .val "c" none (some (.var "b"))]⟩
    let source : Expr := .collect ⟨[⟨.var "x", some (.var "c")⟩,
      ⟨.var "y", some (.list [.var "x"])⟩], []⟩
    ∃ session value, load program {} = .ok session ∧
      source.kindIsKept program true = true ∧
      source.sourceShape program = ⟨.bag, .finite⟩ ∧
      session.eval (root 0) source = .ok value ∧
      ∃ found rows, value = .collection found rows ∧
        (found = .bag → CollectionKind.bag = .bag) ∧
        (true = true → found = .bag) := by
  intro program source
  have kept : source.kindIsKept program true = true := by decide
  have shape : source.sourceShape program = ⟨.bag, .finite⟩ := by decide
  refine ⟨_, _, rfl, kept, shape, rfl, ?_⟩
  exact @foreseen_kind_fits_value program {} true _ source .bag (root 0) _ rfl
    kept shape rfl

/-- A finite source evaluates to a collection of another kind than the foreseen
one. -/
def Misses (program : Program) (source : Expr) : Prop :=
  ∃ kind found rows, source.sourceShape program = ⟨kind, .finite⟩ ∧
    program.evaluate {} (root 0) [] source = .ok (.collection found rows) ∧
    found ≠ kind

/-- The kinds differ behind an empty source, for a bag that is declared to be a
list, for a value computed before its source was declared again, and for a
declared name that a variable hides. -/
theorem foreseen_kind_misses_value :
    Misses ⟨[bagDecl]⟩
      (.collect
        ⟨[⟨.var "x", some (.list [])⟩, ⟨.var "y", some (.var "b")⟩], []⟩) ∧
    Misses ⟨[bagDecl, .val "c" (some (.list .int)) (some (.var "b"))]⟩
      (.var "c") ∧
    Misses ⟨[.val "b" none (some (.list [])), .val "c" none (some (.var "b")),
      bagDecl]⟩ (.var "c") ∧
    Misses ⟨[bagDecl]⟩
      (.collect ⟨[⟨.var "b", some (.list [.list []])⟩,
        ⟨.var "y", some (.var "b")⟩], []⟩) :=
  ⟨⟨.bag, .list, _, by decide, rfl, by decide⟩,
    ⟨.list, .bag, _, by decide, rfl, by decide⟩,
    ⟨.bag, .list, _, by decide, rfl, by decide⟩,
    ⟨.bag, .list, _, by decide, rfl, by decide⟩⟩

end Session

end RecursiveQuery
