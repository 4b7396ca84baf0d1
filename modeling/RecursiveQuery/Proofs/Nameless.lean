import RecursiveQuery.Proofs.Instances

/-!
# Nameless expressions

In the nameless form of an expression a bound variable is given by its binder
and by its place there, so that the names of bound variables are gone.  What
remains of names are the free ones, and replacing them needs no care for
binders.  An instance of an expression has the nameless form in which the free
names are replaced.
-/

namespace RecursiveQuery

/-- A pattern whose variables are numbers. -/
inductive NumberedPattern where
  | wildcard
  | var (number : Nat)
  | literal (value : Literal)
  | tuple (items : List NumberedPattern)

/-- A variable where it is used: a free name, or the variable with a number of
the binder so many binders further out. -/
inductive Occurrence where
  | free (name : Name)
  | bound (outward number : Nat)

mutual

inductive Nameless where
  | literal (value : Literal)
  | var (occurrence : Occurrence)
  | tuple (items : List Nameless)
  | list (items : List Nameless)
  | apply (function argument : Nameless)
  | lambda (param : NumberedPattern) (body : Nameless)
  | andAlso (left right : Nameless)
  | orElse (left right : Nameless)
  | binary (op : BinaryOp) (left right : Nameless)
  | collect (query : NamelessQuery)
  | existence (query : NamelessQuery)

/-- The scans and then the steps of a comprehension, where a scan, with or
without a source, binds in all that is behind it. -/
inductive NamelessQuery where
  | extent (pattern : NumberedPattern) (rest : NamelessQuery)
  | scan (pattern : NumberedPattern) (source : Nameless) (rest : NamelessQuery)
  | filter (condition : Nameless) (rest : NamelessQuery)
  | yield (value : Nameless) (rest : NamelessQuery)
  | done

end

/-- The occurrence as it is seen from inside one more binder. -/
def Occurrence.within : Occurrence → Occurrence
  | free name => free name
  | bound outward number => bound (outward + 1) number

/-- Where a name is bound, given the variables of the binders around it, the
innermost first.  A variable has the number of its first occurrence. -/
def Name.resolve : (scopes : List (List Name)) → Name → Occurrence
  | [], name => .free name
  | scope :: scopes, name =>
      if name ∈ scope then .bound 0 (scope.idxOf name)
      else (resolve scopes name).within

namespace Pattern

mutual

/-- Replace the variables of a pattern by their places in a scope. -/
def numbered (scope : List Name) : Pattern → NumberedPattern
  | wildcard => .wildcard
  | var name => .var (scope.idxOf name)
  | literal value => .literal value
  | tuple items => .tuple (numberedList scope items)

def numberedList (scope : List Name) : List Pattern → List NumberedPattern
  | [] => []
  | item :: items => numbered scope item :: numberedList scope items

end

/-- The nameless form of a pattern. -/
def nameless (pattern : Pattern) : NumberedPattern :=
  pattern.numbered pattern.occurrences

end Pattern

namespace Expr

mutual

/-- The nameless form of an expression inside some binders. -/
def namelessIn (scopes : List (List Name)) : Expr → Nameless
  | literal value => .literal value
  | var name => .var (Name.resolve scopes name)
  | tuple items => .tuple (namelessList scopes items)
  | list items => .list (namelessList scopes items)
  | apply function argument =>
      .apply (namelessIn scopes function) (namelessIn scopes argument)
  | lambda param body =>
      .lambda param.nameless (namelessIn (param.occurrences :: scopes) body)
  | andAlso left right =>
      .andAlso (namelessIn scopes left) (namelessIn scopes right)
  | orElse left right =>
      .orElse (namelessIn scopes left) (namelessIn scopes right)
  | binary op left right =>
      .binary op (namelessIn scopes left) (namelessIn scopes right)
  | collect query => .collect (namelessQuery scopes query)
  | existence query => .existence (namelessQuery scopes query)

def namelessList (scopes : List (List Name)) : List Expr → List Nameless
  | [] => []
  | item :: items => namelessIn scopes item :: namelessList scopes items

def namelessQuery (scopes : List (List Name)) : Query → NamelessQuery
  | ⟨scans, steps⟩ =>
      namelessScans (fun inner => namelessSteps inner steps) scopes scans

/-- Each scan is a binder around the scans and steps behind it, but not around
its own source. -/
def namelessScans (finish : List (List Name) → NamelessQuery)
    (scopes : List (List Name)) : List Scan → NamelessQuery
  | [] => finish scopes
  | ⟨pattern, none⟩ :: scans =>
      .extent pattern.nameless
        (namelessScans finish (pattern.occurrences :: scopes) scans)
  | ⟨pattern, some source⟩ :: scans =>
      .scan pattern.nameless (namelessIn scopes source)
        (namelessScans finish (pattern.occurrences :: scopes) scans)

def namelessSteps (scopes : List (List Name)) : List Step → NamelessQuery
  | [] => .done
  | .filter condition :: steps =>
      .filter (namelessIn scopes condition) (namelessSteps scopes steps)
  | .yield value :: steps =>
      .yield (namelessIn scopes value) (namelessSteps scopes steps)

end

/-- The nameless form of an expression. -/
def nameless (expr : Expr) : Nameless :=
  expr.namelessIn []

end Expr

namespace Nameless

mutual

/-- Replace all free names at once.  No binder can capture a free name. -/
def substitute (meant : Name → Nameless) : Nameless → Nameless
  | literal value => literal value
  | var (.free name) => meant name
  | var (.bound outward number) => var (.bound outward number)
  | tuple items => tuple (substituteList meant items)
  | list items => list (substituteList meant items)
  | apply function argument =>
      apply (substitute meant function) (substitute meant argument)
  | lambda param body => lambda param (substitute meant body)
  | andAlso left right =>
      andAlso (substitute meant left) (substitute meant right)
  | orElse left right => orElse (substitute meant left) (substitute meant right)
  | binary op left right =>
      binary op (substitute meant left) (substitute meant right)
  | collect query => collect (substituteQuery meant query)
  | existence query => existence (substituteQuery meant query)

def substituteList (meant : Name → Nameless) : List Nameless → List Nameless
  | [] => []
  | item :: items => substitute meant item :: substituteList meant items

def substituteQuery (meant : Name → Nameless) : NamelessQuery → NamelessQuery
  | .extent pattern rest => .extent pattern (substituteQuery meant rest)
  | .scan pattern source rest =>
      .scan pattern (substitute meant source) (substituteQuery meant rest)
  | .filter condition rest =>
      .filter (substitute meant condition) (substituteQuery meant rest)
  | .yield value rest =>
      .yield (substitute meant value) (substituteQuery meant rest)
  | .done => .done

end

end Nameless

theorem Name.resolve_of_mem {scope : List Name} {name : Name}
    (scopes : List (List Name)) (member : name ∈ scope) :
    Name.resolve (scope :: scopes) name = .bound 0 (scope.idxOf name) := by
  simp [resolve, member]

theorem Name.resolve_of_not_mem {scope : List Name} {name : Name}
    (scopes : List (List Name)) (absent : name ∉ scope) :
    Name.resolve (scope :: scopes) name =
      (Name.resolve scopes name).within := by
  simp [resolve, absent]

/-- Names that resolve alike still do so inside one more binder. -/
theorem Name.resolve_cons_congr {scopes others : List (List Name)}
    {bound names : List Name}
    (same : ∀ name ∈ Name.outside bound names, name.resolve scopes =
      name.resolve others) :
    ∀ name ∈ names, name.resolve (bound :: scopes) =
      name.resolve (bound :: others) := by
  intro name member
  by_cases inside : name ∈ bound
  · rw [resolve_of_mem _ inside, resolve_of_mem _ inside]
  · rw [resolve_of_not_mem _ inside, resolve_of_not_mem _ inside,
      same name (Name.mem_outside.mpr ⟨member, inside⟩)]

namespace Expr

mutual

/-- The nameless form depends only on where the free names are bound. -/
theorem namelessIn_congr {scopes others : List (List Name)} (expr : Expr)
    (same : ∀ name ∈ expr.freeVars, name.resolve scopes = name.resolve others) :
    expr.namelessIn scopes = expr.namelessIn others := by
  match expr with
  | literal value => rfl
  | var name => simp [namelessIn, same name List.mem_cons_self]
  | tuple items | list items => simp [namelessIn, namelessList_congr items same]
  | lambda param body =>
      have inner := namelessIn_congr body (Name.resolve_cons_congr same)
      simp [namelessIn, inner]
  | apply left right | andAlso left right | orElse left right
  | binary op left right =>
      obtain ⟨leftSame, rightSame⟩ := List.forall_mem_append.mp same
      simp [namelessIn, namelessIn_congr left leftSame,
        namelessIn_congr right rightSame]
  | collect query
  | existence query => simp [namelessIn, namelessQuery_congr query same]

theorem namelessList_congr {scopes others : List (List Name)}
    (items : List Expr)
    (same : ∀ name ∈ freeVarsList items, name.resolve scopes =
      name.resolve others) :
    namelessList scopes items = namelessList others items := by
  cases items with
  | nil => rfl
  | cons item items =>
      obtain ⟨itemSame, restSame⟩ := List.forall_mem_append.mp same
      simp [namelessList, namelessIn_congr item itemSame,
        namelessList_congr items restSame]

theorem namelessQuery_congr {scopes others : List (List Name)} (query : Query)
    (same : ∀ name ∈ freeVarsQuery query, name.resolve scopes =
      name.resolve others) :
    namelessQuery scopes query = namelessQuery others query := by
  match query with
  | ⟨scans, steps⟩ =>
      exact namelessScans_congr scans
        (fun _ _ inside => namelessSteps_congr steps inside) same

theorem namelessScans_congr {finish : List (List Name) → NamelessQuery}
    {body : List Name} {scopes others : List (List Name)} (scans : List Scan)
    (finishes : ∀ scopes others,
      (∀ name ∈ body, name.resolve scopes = name.resolve others) →
      finish scopes = finish others)
    (same : ∀ name ∈ freeVarsScans scans body, name.resolve scopes =
      name.resolve others) :
    namelessScans finish scopes scans = namelessScans finish others scans := by
  match scans with
  | [] => exact finishes scopes others same
  | ⟨pattern, none⟩ :: scans =>
      have inner :=
        namelessScans_congr scans finishes (Name.resolve_cons_congr same)
      simp [namelessScans, inner]
  | ⟨pattern, some source⟩ :: scans =>
      obtain ⟨sourceSame, innerSame⟩ := List.forall_mem_append.mp same
      have inner :=
        namelessScans_congr scans finishes (Name.resolve_cons_congr innerSame)
      simp [namelessScans, namelessIn_congr source sourceSame, inner]

theorem namelessSteps_congr {scopes others : List (List Name)}
    (steps : List Step)
    (same : ∀ name ∈ freeVarsSteps steps, name.resolve scopes =
      name.resolve others) :
    namelessSteps scopes steps = namelessSteps others steps := by
  match steps with
  | [] => rfl
  | .filter expr :: steps | .yield expr :: steps =>
      obtain ⟨exprSame, restSame⟩ := List.forall_mem_append.mp same
      simp [namelessSteps, namelessIn_congr expr exprSame,
        namelessSteps_congr steps restSame]

end

end Expr

end RecursiveQuery
