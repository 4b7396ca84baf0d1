import RecursiveQuery.Proofs.HelperVariables
import RecursiveQuery.Proofs.SplicedFilters

/-!
# Variables of spliced filters

Flattening takes the filters of a condition apart, also those inside each other,
into clauses over one common scope.  `Flattening` follows it from left to right
and lists the filters with the names that their variables get.  No two of these
names are the same, none of them means something else in that scope, and the
clauses mention no other free names beside those of the condition.
-/

namespace RecursiveQuery

/-- A filter that is taken apart, and the names that its variables have among
the clauses. -/
structure SplicedBlock where
  query : Query
  names : List Name

/-- All names that the variables of some filters have. -/
def SplicedBlock.namesOf (blocks : List SplicedBlock) : List Name :=
  blocks.flatMap SplicedBlock.names

namespace Name

end Name

namespace Scope

variable {scope : Scope} {program : Program} {query : Query}
  {taken names : List Name}
  {supply : NameSupply} {name : Name}
variable {clauses : List Expr} {blocks : List SplicedBlock}

theorem clashes_eq_false_iff :
    scope.clashes program taken name = false ↔
      name ∉ scope.goals ∧ scope.isBound name = false ∧ name ∉ taken ∧
        name ∉ Builtin.names ∧ program.decl? name = none := by
  simp only [clashes, isGoal, Bool.or_eq_false_iff, List.contains_eq_mem,
    decide_eq_false_iff_not, Option.isSome_eq_false_iff,
    Option.isNone_iff_eq_none, and_assoc]

theorem not_mem_of_clashes (apart : scope.clashes program taken name = false) :
    name ∉ taken :=
  (clashes_eq_false_iff.mp apart).2.2.1

/-- What clashes with no names clashes with no fewer names. -/
theorem clashes_of_subset {more : List Name} (subset : taken ⊆ more)
    (apart : scope.clashes program more name = false) :
    scope.clashes program taken name = false := by
  obtain ⟨notGoal, notBound, untaken, others⟩ := clashes_eq_false_iff.mp apart
  exact clashes_eq_false_iff.mpr
    ⟨notGoal, notBound, fun isTaken => untaken (subset isTaken), others⟩

/-- More taken names clash with themselves only. -/
theorem clashes_cons {first : Name}
    (clash : scope.clashes program (first :: taken) name = true) :
    name = first ∨ scope.clashes program taken name = true := by
  by_contra neither
  obtain ⟨other, apart⟩ := not_or.mp neither
  obtain ⟨notGoal, notBound, untaken, others⟩ :=
    clashes_eq_false_iff.mp (Bool.eq_false_iff.mpr apart)
  have stillApart := clashes_eq_false_iff.mpr
    ⟨notGoal, notBound,
      List.not_mem_cons_of_ne_of_not_mem other untaken, others⟩
  rw [stillApart] at clash
  cases clash

/-- Every name that clashes with taken names or with what a scope and a program
mean is reserved. -/
def ReservesClashes (scope : Scope) (program : Program) (taken : List Name)
    (supply : NameSupply) : Prop :=
  ∀ name, scope.clashes program taken name = true → name ∈ supply.used

theorem ReservesClashes.cons {first : Name} {later : NameSupply}
    (reserves : scope.ReservesClashes program taken supply)
    (grown : supply.used ⊆ later.used) (isReserved : first ∈ later.used) :
    scope.ReservesClashes program (first :: taken) later := by
  intro name clash
  rcases clashes_cons clash with isFirst | before
  · rw [isFirst]
    exact isReserved
  · exact grown (reserves name before)

/-- Names that are chosen one after the other: they differ, they clash with
nothing, and they are the ones that are taken from then on. -/
structure NamedApart (scope : Scope) (program : Program)
    (taken chosen next : List Name) (later : NameSupply) : Prop where
  distinct : chosen.Nodup
  apart : ∀ name ∈ chosen, scope.clashes program taken name = false
  mem_next : ∀ name, name ∈ next ↔ name ∈ chosen ∨ name ∈ taken
  reserves : scope.ReservesClashes program next later

/-- A name is chosen in front of others. -/
theorem NamedApart.cons {first : Name} {chosen next : List Name}
    {later : NameSupply}
    (rest : scope.NamedApart program (first :: taken) chosen next later)
    (apart : scope.clashes program taken first = false) :
    scope.NamedApart program taken (first :: chosen) next later where
  distinct := by
    apply List.nodup_cons.mpr
    refine ⟨?_, rest.distinct⟩
    intro again
    exact not_mem_of_clashes (rest.apart first again) List.mem_cons_self
  apart := by
    intro name member
    rcases List.mem_cons.mp member with isFirst | later
    · rw [isFirst]
      exact apart
    · exact clashes_of_subset (List.subset_cons_self _ _)
        (rest.apart name later)
  mem_next := by
    intro name
    rw [rest.mem_next, List.mem_cons, List.mem_cons, or_left_comm, or_assoc]
  reserves := rest.reserves

/-- What taking a filter apart leaves: its variables are named apart, and the
parts mention these names and what the filter mentions. -/
structure TakenApart (scope : Scope) (program : Program) (query : Query)
    (taken names : List Name) (parts : List Expr) (next : List Name)
    (later : NameSupply) : Prop where
  named : scope.NamedApart program taken names next later
  reserved : ∀ part ∈ parts, part.allNames ⊆ later.used
  only : ∀ part ∈ parts, ∀ name ∈ part.freeVars,
    name ∈ (Expr.existence query).freeVars ∨ name ∈ names

/-- How pending expressions become clauses, and which filters are taken apart on
the way.  Taken names and the supply of names are passed on from left to
right. -/
inductive Flattening (scope : Scope) (program : Program) :
    List Expr → List Name → NameSupply → List Expr → List SplicedBlock → Prop
  | nil {taken : List Name} {supply : NameSupply} :
      Flattening scope program [] taken supply [] []
  | andAlso {left right : Expr} {rest clauses : List Expr} {taken : List Name}
      {supply : NameSupply} {blocks : List SplicedBlock}
      (follows : Flattening scope program (left :: right :: rest) taken supply
        clauses blocks) :
      Flattening scope program (.andAlso left right :: rest) taken supply
        clauses blocks
  | splice {query : Query} {parts rest clauses : List Expr}
      {taken next : List Name}
      {supply later : NameSupply} {blocks : List SplicedBlock}
      (unwrapped : (scope.unwrap program query taken).run supply =
        ((some parts, next), later))
      (follows : Flattening scope program (parts ++ rest) next later clauses
        blocks) :
      Flattening scope program (.existence query :: rest) taken supply clauses
        (⟨query, query.scanVars.map
          (scope.nameAfter program query taken supply)⟩ :: blocks)
  | whole {query : Query} {rest clauses : List Expr} {taken : List Name}
      {supply : NameSupply}
      {blocks : List SplicedBlock} (together : query.filterClauses? = none)
      (follows : Flattening scope program rest taken supply clauses blocks) :
      Flattening scope program (.existence query :: rest) taken supply
        (.existence query :: clauses) blocks
  | clause {expr : Expr} {rest clauses : List Expr} {taken : List Name}
      {supply : NameSupply}
      {blocks : List SplicedBlock} (single : expr.conjuncts = [expr])
      (plain : ∀ query, expr ≠ .existence query)
      (follows : Flattening scope program rest taken supply clauses blocks) :
      Flattening scope program (expr :: rest) taken supply
        (expr :: clauses) blocks

/-- A run on some expressions goes in front of any flattening that starts where
it ends. -/
def Follows (scope : Scope) (program : Program) (exprs : List Expr)
    (taken : List Name) (supply : NameSupply)
    (flat : (List Expr × List Name) × NameSupply) : Prop :=
  ∃ blocks, ∀ rest clauses more,
    Flattening scope program rest flat.1.2 flat.2 clauses more →
    Flattening scope program (exprs ++ rest) taken supply (flat.1.1 ++ clauses)
      (blocks ++ more)

/-- What the names of the filters that are taken apart, and the clauses,
satisfy. -/
structure KeepsApart (scope : Scope) (program : Program) (pending : List Expr)
    (taken : List Name) (clauses : List Expr) (blocks : List SplicedBlock) :
    Prop where
  distinct : (SplicedBlock.namesOf blocks).Nodup
  apart : ∀ name ∈ SplicedBlock.namesOf blocks,
    scope.clashes program taken name = false
  only : ∀ clause ∈ clauses, ∀ name ∈ clause.freeVars,
    (∃ expr ∈ pending, name ∈ expr.freeVars) ∨
    name ∈ SplicedBlock.namesOf blocks

/-- A clause is left as it stands. -/
theorem KeepsApart.cons {expr : Expr} {rest clauses : List Expr}
    {blocks : List SplicedBlock}
    (keeps : scope.KeepsApart program rest taken clauses blocks) :
    scope.KeepsApart program (expr :: rest) taken (expr :: clauses) blocks where
  distinct := keeps.distinct
  apart := keeps.apart
  only := by
    intro clause member name isFree
    rcases List.mem_cons.mp member with isFirst | later
    · cases isFirst
      exact .inl ⟨expr, List.mem_cons_self, isFree⟩
    · apply (keeps.only clause later name isFree).imp_left
      intro found
      obtain ⟨other, isPending, otherFree⟩ := found
      exact ⟨other, List.mem_cons_of_mem _ isPending, otherFree⟩

/-- A filter is replaced by its parts. -/
theorem KeepsApart.splice {parts rest : List Expr} {next : List Name}
    {later : NameSupply}
    (taking : scope.TakenApart program query taken names parts next later)
    (keeps : scope.KeepsApart program (parts ++ rest) next clauses blocks) :
    scope.KeepsApart program (.existence query :: rest) taken clauses
      (⟨query, names⟩ :: blocks) where
  distinct := by
    apply List.nodup_append.mpr
    refine ⟨taking.named.distinct, keeps.distinct, ?_⟩
    intro name isNew other isLater same
    have untaken := not_mem_of_clashes (keeps.apart other isLater)
    exact untaken ((taking.named.mem_next other).mpr (.inl (same ▸ isNew)))
  apart := by
    intro name member
    rcases List.mem_append.mp member with isNew | isLater
    · exact taking.named.apart name isNew
    · apply clashes_of_subset _ (keeps.apart name isLater)
      intro other isTaken
      exact (taking.named.mem_next other).mpr (.inr isTaken)
  only := by
    intro clause member name isFree
    rcases keeps.only clause member name isFree with pending | isLater
    · obtain ⟨expr, isPending, exprFree⟩ := pending
      rcases List.mem_append.mp isPending with isPart | isRest
      · rcases taking.only expr isPart name exprFree with inFilter | isNew
        · exact .inl ⟨_, List.mem_cons_self, inFilter⟩
        · exact .inr (List.mem_append_left _ isNew)
      · exact .inl ⟨expr, List.mem_cons_of_mem _ isRest, exprFree⟩
    · exact .inr (List.mem_append_right _ isLater)

end Scope

end RecursiveQuery
