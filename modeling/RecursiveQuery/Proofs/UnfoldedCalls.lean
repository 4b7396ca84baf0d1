import RecursiveQuery.Proofs.PlainRows

/-!
# Unfolded calls

Calling a function of the program and evaluating its body with the argument put
in for the parameter come to the same.  The call evaluates the body among the
variables of the parameter, and the unfolded call evaluates an instance of the
body among the variables at hand; functions that the body makes then differ in
their sites, their variables and their parameters, but nothing can tell the two
evaluations apart until a function is their result.
-/

namespace RecursiveQuery

open Value (Corresponds)

variable {sites : Site → Site → Prop}

/-- Every function inside a value was made at one of some sites. -/
inductive Value.MadeAt (made : Site → Prop) : Value → Prop where
  | unit : MadeAt made .unit
  | bool (value : Bool) : MadeAt made (.bool value)
  | int (value : Int64) : MadeAt made (.int value)
  | str (value : String) : MadeAt made (.str value)
  | tuple {items : List Value} : (∀ item ∈ items, MadeAt made item) →
      MadeAt made (.tuple items)
  | collection (kind : CollectionKind) {rows : List Value} :
      (∀ row ∈ rows, MadeAt made row) → MadeAt made (.collection kind rows)
  | closure {site : Site} {param : Pattern} {body : Expr}
      {env : List (Name × Value)} :
      made site → (∀ entry ∈ env, MadeAt made entry.2) →
      MadeAt made (.closure ⟨site, param, body, env⟩)
  | builtin (function : Builtin) : MadeAt made (.builtin function)
  | iterateOn (kind : CollectionKind) {base : Value} : MadeAt made base →
      MadeAt made (.iterateOn kind base)

/-- The functions inside a value are none of those that an evaluation makes. -/
def Value.MadeOutside (site : Site) (value : Value) : Prop :=
  value.MadeAt fun made => ¬site <:+ made

/-- Functions whose sites are paired with themselves correspond to
themselves. -/
theorem Value.MadeAt.corresponds {made : Site → Prop} {value : Value}
    (madeAt : value.MadeAt made)
    (shared : ∀ site, made site → sites site site) :
    Corresponds sites value value := by
  induction madeAt with
  | unit => exact .unit
  | bool value => exact .bool value
  | int value => exact .int value
  | str value => exact .str value
  | tuple _ induction => exact .tuple (List.forall₂_same.mpr induction)
  | collection kind _ induction =>
      exact .collection kind (List.forall₂_same.mpr induction)
  | @closure site param body env isMade _ induction =>
      refine .closure (shared site isMade) (Expr.instance_refl _) ?_
        fun _ _ _ => rfl
      intro name _
      rw [Expr.valueIn]
      cases found : List.lookup name env with
      | none => exact .none
      | some value => exact .some (induction _ (NameMap.mem_of_lookup found))
  | builtin function => exact .builtin function
  | iterateOn kind _ induction => exact .iterateOn kind induction

namespace Value

variable {sites : Site → Site → Prop}

mutual

theorem Corresponds.isFunctionFree_eq {value other : Value}
    (pair : Corresponds sites value other) :
    value.isFunctionFree = other.isFunctionFree := by
  cases value with
  | tuple items =>
      cases pair with
      | tuple pairs => exact Corresponds.areFunctionFree_eq pairs
  | collection kind rows =>
      cases pair with
      | collection _ pairs => exact Corresponds.areFunctionFree_eq pairs
  | _ =>
      cases pair
      rfl

theorem Corresponds.areFunctionFree_eq {items others : List Value}
    (pairs : List.Forall₂ (Corresponds sites) items others) :
    areFunctionFree items = areFunctionFree others := by
  cases items with
  | nil =>
      cases pairs
      rfl
  | cons item items =>
      cases pairs with
      | cons pair pairs =>
          simp [areFunctionFree, pair.isFunctionFree_eq,
            Corresponds.areFunctionFree_eq pairs]

end

end Value

/-- Evaluations that agree have the same results without functions. -/
theorem Outcome.Agree.eq_ok_iff {left right : Outcome Value}
    (agree : Agree (Corresponds sites) left right) {value : Value}
    (free : value.isFunctionFree = true) :
    left = .ok value ↔ right = .ok value := by
  constructor
  · intro isValue
    subst isValue
    obtain ⟨other, isOther, pair⟩ := agree.exists_ok
    rw [isOther, pair.eq_of_isFunctionFree free]
  · intro isValue
    subst isValue
    obtain ⟨other, isOther, pair⟩ := agree.exists_ok_left
    have otherFree : other.isFunctionFree = true :=
      pair.isFunctionFree_eq.trans free
    rw [isOther, pair.eq_of_isFunctionFree otherFree]

namespace Expr

mutual

/-- What is built from literals and variables with a value has a value. -/
theorem exists_valueIn {env : Env} {expr : Expr} {pattern : Pattern}
    (built : expr.toPattern? = some pattern)
    (bound : ∀ name ∈ expr.freeVars, (env.lookup name).isSome = true) :
    ∃ value, expr.valueIn env = some value := by
  cases expr with
  | literal value => exact ⟨.ofLiteral value, rfl⟩
  | var name =>
      exact Option.isSome_iff_exists.mp (bound name List.mem_cons_self)
  | tuple items =>
      obtain ⟨patterns, builtItems, _⟩ := Option.map_eq_some_iff.mp built
      obtain ⟨values, found⟩ := exists_valuesIn builtItems bound
      exact ⟨.tuple values, by simp [valueIn, found]⟩
  | _ => cases built

theorem exists_valuesIn {env : Env} {items : List Expr}
    {patterns : List Pattern} (built : toPatterns? items = some patterns)
    (bound : ∀ name ∈ freeVarsList items, (env.lookup name).isSome = true) :
    ∃ values, valuesIn env items = some values := by
  cases items with
  | nil => exact ⟨[], rfl⟩
  | cons item items =>
      obtain ⟨itemBound, restBound⟩ := List.forall_mem_append.mp bound
      rw [toPatterns?] at built
      split at built
      · next builtFirst builtRest =>
          obtain ⟨value, found⟩ := exists_valueIn builtFirst itemBound
          obtain ⟨values, foundRest⟩ := exists_valuesIn builtRest restBound
          exact ⟨value :: values, by simp [valuesIn, found, foundRest]⟩
      · cases built

end

end Expr

namespace Pattern

variable {env : Env}

mutual

/-- A parameter takes the value of an argument apart where it takes the argument
apart. -/
theorem exists_bind_of_components? {param : Pattern} {argument : Expr}
    {components : Replacements} {value : Value} (start : Env)
    (found : param.components? argument = some components)
    (distinct : (NameMap.keys components).Nodup)
    (valued : argument.valueIn env = some value) :
    ∃ inner, param.bind value start = some inner ∧ ∀ name, inner.lookup name =
      (components.lookup name).elim (start.lookup name) fun part =>
        part.valueIn env := by
  cases param with
  | wildcard =>
      cases found
      exact ⟨start, rfl, fun _ => rfl⟩
  | var param =>
      cases found
      refine ⟨(param, value) :: start, rfl, ?_⟩
      intro name
      by_cases equal : name = param
      · simp [equal, valued]
      · simp [List.lookup_cons, beq_false_of_ne equal]
  | literal expected => simp [components?] at found
  | tuple params =>
      cases argument with
      | tuple arguments =>
          obtain ⟨values, valuedItems, rfl⟩ := Option.map_eq_some_iff.mp valued
          exact exists_bindList_of_componentsList? start found distinct
            valuedItems
      | _ => simp [components?] at found

theorem exists_bindList_of_componentsList? {params : List Pattern}
    {arguments : List Expr} {components : Replacements} {values : List Value}
    (start : Env) (found : componentsList? params arguments = some components)
    (distinct : (NameMap.keys components).Nodup)
    (valued : Expr.valuesIn env arguments = some values) :
    ∃ inner, bindList params values start = some inner ∧
      ∀ name, inner.lookup name =
      (components.lookup name).elim (start.lookup name) fun part =>
        part.valueIn env := by
  match params, arguments with
  | [], [] =>
      cases found
      cases valued
      exact ⟨start, rfl, fun _ => rfl⟩
  | [], _ :: _ => cases found
  | _ :: _, [] => cases found
  | param :: params, argument :: arguments =>
      simp only [componentsList?] at found
      split at found
      · next first rest foundFirst foundRest =>
          cases found
          rw [NameMap.keys, List.map_append, List.nodup_append] at distinct
          obtain ⟨firstDistinct, restDistinct, apart⟩ := distinct
          rw [Expr.valuesIn] at valued
          split at valued
          · next value values valuedFirst valuedRest =>
              cases valued
              obtain ⟨middle, boundFirst, middleLookup⟩ :=
                exists_bind_of_components? start foundFirst firstDistinct
                  valuedFirst
              obtain ⟨inner, boundRest, innerLookup⟩ :=
                exists_bindList_of_componentsList? middle foundRest restDistinct
                  valuedRest
              refine ⟨inner, by simp [bindList, boundFirst, boundRest], ?_⟩
              intro name
              rw [innerLookup, middleLookup, List.lookup_append]
              cases inFirst : first.lookup name with
              | none => rw [Option.none_or, Option.elim_none]
              | some component =>
                  -- The rest of the parameter does not bind the name again.
                  have absent : rest.lookup name = none := by
                    apply NameMap.lookup_eq_none
                    intro isKey
                    exact apart name
                      (List.mem_map_of_mem (NameMap.mem_of_lookup inFirst)) name
                      isKey rfl
                  rw [absent, Option.some_or, Option.elim_none]
          · cases valued
      · cases found

end

end Pattern

namespace Session

variable {session : Session} {function : Name} {param : Pattern}
  {body argument : Expr}
  {env inner : Env} {site made : Site} {value : Value}

/-- The result of an expression inside so many calls. -/
def evalAt (session : Session) (depth : Nat) (site : Site) (env : Env)
    (expr : Expr) : Outcome Value :=
  expr.eval session (session.call (session.limits.maxDepth - depth)) env site

/-- A call evaluates the body one call deeper, among the variables of the
parameter. -/
theorem evalAt_call {depth : Nat} (below : depth < session.limits.maxDepth)
    (isFunction : session.globals.lookup function =
      some (.closure ⟨made, param, body, []⟩))
    (visible : env.lookup function = none)
    (valued : argument.valueIn env = some value)
    (bound : param.bind value [] = some inner) :
    session.evalAt depth site env (.apply (.var function) argument) =
      session.evalAt (depth + 1) (2 :: site) inner body := by
  obtain ⟨left, isLeft⟩ : ∃ left, session.limits.maxDepth - depth = left + 1 :=
    ⟨session.limits.maxDepth - depth - 1, by omega⟩
  have isRest : session.limits.maxDepth - (depth + 1) = left := by omega
  have looked : session.lookup env function =
    .ok (.closure ⟨made, param, body, []⟩) := by
    rw [lookup, visible]
    dsimp only
    rw [isFunction]
    rfl
  have called :
    session.call (left + 1) ⟨made, param, body, []⟩ (2 :: site) value =
      body.eval session (session.call left) inner (2 :: site) := by
    rw [call]
    dsimp only
    rw [bound]
  rw [evalAt, evalAt, isLeft, isRest, Expr.eval, Expr.eval, looked,
    Expr.eval_of_valueIn valued]
  exact called

/-- The functions that were there before two evaluations are shared, and those
that the evaluations make are paired by where they are made. -/
def Beside (first second : Site) (site other : Site) : Prop :=
  (site = other ∧ ¬first <:+ site ∧ ¬second <:+ site) ∨
    ∃ path : Site, site = path ++ first ∧ other = path ++ second

namespace Beside

variable {first second : Site}

theorem below : SitesBelow (Beside first second) first second :=
  fun path => .inr ⟨path, rfl, rfl⟩

theorem biUnique : Relator.BiUnique (Beside first second) := by
  constructor
  · intro left other right leftPair rightPair
    rcases leftPair with ⟨rfl, _, outside⟩ | ⟨path, rfl, rfl⟩
    · rcases rightPair with ⟨same, _⟩ | ⟨path, _, inside⟩
      · exact same.symm
      · exact absurd ⟨path, inside.symm⟩ outside
    · rcases rightPair with ⟨same, _, outside⟩ | ⟨path', isOther, inside⟩
      · exact absurd ⟨path, same.symm⟩ outside
      · rw [isOther, List.append_cancel_right inside]
  · intro left right other leftPair rightPair
    rcases leftPair with ⟨rfl, outside, _⟩ | ⟨path, rfl, rfl⟩
    · rcases rightPair with ⟨same, _⟩ | ⟨path, inside, _⟩
      · exact same
      · exact absurd ⟨path, inside.symm⟩ outside
    · rcases rightPair with ⟨same, outside, _⟩ | ⟨path', inside, isOther⟩
      · exact absurd ⟨path, rfl⟩ outside
      · rw [isOther, List.append_cancel_right inside]

theorem respects_of_load {program : Program} {limits : Limits}
    (startedFirst : Started first) (startedSecond : Started second)
    (extent : ∀ values, limits.extent = some values → ∀ value ∈ values,
      Corresponds (Beside first second) value value)
    (loaded : load program limits = .ok session) :
    session.Respects (Beside first second) := by
  refine Session.respects_of_load biUnique ?_ extent loaded
  intro site isLoading
  refine .inl ⟨rfl, ?_, ?_⟩
  · rintro ⟨path, rfl⟩
    exact startedFirst.getLast? path isLoading
  · rintro ⟨path, rfl⟩
    exact startedSecond.getLast? path isLoading

/-- Functions that were made outside both evaluations are shared. -/
theorem corresponds_of_madeOutside (outside : value.MadeOutside site) :
    Corresponds (Beside (2 :: site) site) value value := by
  apply outside.corresponds
  intro made isOutside
  exact .inl ⟨rfl, fun inside =>
    isOutside (List.IsSuffix.trans (List.suffix_cons 2 site) inside), isOutside⟩

end Beside

end Session

/-- The variables of a parameter have the values of what is put in for them. -/
theorem Replacements.means_of_lookup {replacements : Replacements}
    {names : List Name} {env inner : Env}
    (known : ∀ name value, env.lookup name = some value →
      Corresponds sites value value)
    (valued : ∀ replacement ∈ replacements,
      (replacement.2.valueIn env).isSome = true)
    (apart : ∀ name ∈ names, replacements.lookup name = none →
      env.lookup name = none)
    (bound : ∀ name, inner.lookup name =
      (replacements.lookup name).elim none fun part => part.valueIn env) :
    Env.Means sites replacements.meant names inner env := by
  constructor
  · intro name member
    rw [bound, meant]
    cases replaced : replacements.lookup name with
    | none =>
        have absent := apart name member replaced
        simp [Expr.valueIn, absent]
    | some part =>
        rw [Option.elim_some, Option.getD_some]
        cases found : part.valueIn env with
        | none => exact .none
        | some value =>
            have corresponds := Expr.valueIn_forall .ofLiteral
              (fun _ items => .tuple (List.forall₂_same.mpr items)) known found
            exact .some corresponds
  · intro name _ unbound
    rw [bound] at unbound
    cases replaced : replacements.lookup name with
    | none => simp [meant, replaced]
    | some part =>
        have isValued := valued (name, part) (NameMap.mem_of_lookup replaced)
        rw [replaced, Option.elim_some] at unbound
        simp [unbound] at isValued

theorem Expr.isSome_valueIn_of_mem {env : Env} {items : List Expr}
    (valued : ((tuple items).valueIn env).isSome = true) :
    ∀ item ∈ items, (item.valueIn env).isSome = true := by
  rw [valueIn, Option.isSome_map] at valued
  induction items with
  | nil =>
      intro item member
      cases member
  | cons item items induction =>
      rw [valuesIn] at valued
      split at valued
      · next found foundRest =>
          exact List.forall_mem_cons.mpr
            ⟨by simp [found], induction (by simp [foundRest])⟩
      · cases valued

/-- A call and the body with the argument put in, one call deeper, have the same
results without functions.  The argument is put together from literals and
variables in scope, no variable in scope hides a name of the body, and no
function in scope or in the extent is one of those that the evaluation is about
to make. -/
theorem unfolded_call_agrees_with_call {program : Program} {limits : Limits}
    {session : Session} {function : Name} {param argumentPattern : Pattern}
    {body argument : Expr} {replacements : Replacements} {env : Env}
    {supply : NameSupply} {site : Site} {depth : Nat} {value : Value}
    (loaded : Session.load program limits = .ok session)
    (declared : program.decl? function = some (.function function param body))
    (built : argument.toPattern? = some argumentPattern)
    (bound : ∀ name ∈ argument.freeVars, (env.lookup name).isSome = true)
    (fits : param.bindArgument? argument = some replacements)
    (visible : env.lookup function = none)
    (apart : ∀ name ∈ body.freeVars, name ∉ param.occurrences →
      env.lookup name = none) (bodyReserved : body.allNames ⊆ supply.used)
    (argumentReserved : argument.allNames ⊆ supply.used)
    (started : Session.Started site)
    (known : ∀ name value, env.lookup name = some value →
      value.MadeOutside site) (extent : ∀ values, limits.extent = some values →
      ∀ value ∈ values, value.MadeOutside site)
    (below : depth < limits.maxDepth) (free : value.isFunctionFree = true) :
    session.evalAt depth site env (.apply (.var function) argument) =
      .ok value ↔ session.evalAt (depth + 1) site env
        ((body.substitute replacements).run supply).1 = .ok value := by
  obtain ⟨made, isFunction⟩ := Session.settles_of_load loaded declared
  obtain ⟨components, distinct⟩ := Pattern.bindArgument?_cases fits
  obtain ⟨argumentValue, valued⟩ := Expr.exists_valueIn built bound
  obtain ⟨inner, matched, lookups⟩ :=
    Pattern.exists_bind_of_components? [] components distinct valued
  have reserved : replacements.freeVars ⊆ supply.used := by
    intro name member
    obtain ⟨replacement, isReplacement, isFree⟩ := List.mem_flatMap.mp member
    exact Pattern.bindArgument?_reserved argumentReserved fits replacement
      isReplacement (replacement.2.freeVars_subset_allNames isFree)
  have partsValued : ∀ replacement ∈ replacements,
    (replacement.2.valueIn env).isSome = true :=
    @Pattern.bindArgument?_forall (fun part => (part.valueIn env).isSome = true)
      (fun _ => Expr.isSome_valueIn_of_mem) param argument replacements
      (Option.isSome_of_eq_some valued) fits
  have respects : session.Respects (Session.Beside (2 :: site) site) :=
    Session.Beside.respects_of_load (started.cons 2) started
      (fun values isExtent value member =>
        Session.Beside.corresponds_of_madeOutside
          (extent values isExtent value member)) loaded
  have means : Env.Means (Session.Beside (2 :: site) site) replacements.meant
    body.freeVars inner env := by
    refine Replacements.means_of_lookup ?_ partsValued ?_ lookups
    · intro name value found
      exact Session.Beside.corresponds_of_madeOutside (known name value found)
    · intro name isFree unreplaced
      apply apart name isFree
      rw [← Pattern.keys_of_components? components]
      intro isKey
      obtain ⟨part, replaced⟩ := NameMap.exists_lookup_of_mem isKey
      rw [unreplaced] at replaced
      cases replaced
  have instanced := (Expr.substitute_instance bodyReserved reserved).2
  have sameLimits := Session.limits_of_load loaded
  rw [Session.evalAt_call (sameLimits ▸ below) isFunction visible valued
    matched]
  exact (Expr.eval_agree respects (Session.call_agree respects _) instanced
    Session.Beside.below means).eq_ok_iff free

/-- Whether a test holds of something that a pair of `e` leads to from a
number. -/
def someSuccessor : Program :=
  ⟨[.val "e" none
    (some (.list [.tuple [.int 1, .int 2], .tuple [.int 2, .int 3]])),
    .function "leads" (.tuple [.var "x", .var "p"])
      (.existence ⟨[⟨.tuple [.var "a", .var "z"], some (.var "e")⟩],
        [.filter (.andAlso (.binary .eq (.var "a") (.var "x"))
          (.apply (.var "p") (.var "z")))]⟩)]⟩

/-- The call `leads (z, q)`, where `z` would be captured by the scan of the body
and `q` is a function, at call depth three. -/
theorem unfolded_call_agrees_with_call_captured :
    let test : Value :=
      .closure ⟨Session.root 1, .var "w", .binary .eq (.var "w") (.int 2), []⟩
    let env : Env := [("z", .int 1), ("q", test)]
    let argument : Expr := .tuple [.var "z", .var "q"]
    let unfolded : Expr :=
      .existence ⟨[⟨.tuple [.var "a", .var "z_1"], some (.var "e")⟩],
        [.filter (.andAlso (.binary .eq (.var "a") (.var "z"))
          (.apply (.var "q") (.var "z_1")))]⟩
    ∃ session, Session.load someSuccessor {} = .ok session ∧
      session.evalAt 3 (Session.root 0) env (.apply (.var "leads") argument) =
        .ok (.bool true) ∧
      session.evalAt 4 (Session.root 0) env unfolded = .ok (.bool true) := by
  intro test env argument unfolded
  refine ⟨_, rfl, rfl, ?_⟩
  have known : ∀ name value, env.lookup name = some value →
      value.MadeOutside (Session.root 0) := by
    intro name value found
    rcases List.mem_cons.mp (NameMap.mem_of_lookup found) with first | second
    · cases first
      exact .int 1
    · cases List.mem_singleton.mp second
      refine .closure (by decide) ?_
      intro entry member
      cases member
  have agrees := @unfolded_call_agrees_with_call someSuccessor {} _ "leads" _ _
    _ argument _ env
    (.reserving ["a", "z", "e", "x", "p", "q"]) (Session.root 0) 3 (.bool true)
    rfl rfl rfl
    (by decide) rfl rfl (by decide) (by decide) (by decide) (.root 0) known
    nofun (by decide) rfl
  exact agrees.mp rfl

end RecursiveQuery
