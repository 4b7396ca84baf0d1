import RecursiveQuery.Proofs.PlainRows

/-!
# Scans of separate variables

Scans bind their variables one after another, while an assignment gives values
to all of them at once.  The two say the same where each scan has variables of
its own and no source mentions a variable that is bound at its scan or behind
it.
-/

namespace RecursiveQuery

namespace Env

/-- Some variables have got values without bags and functions. -/
def ExtendsPlainly (env inner : Env) : Prop :=
  ∀ name, inner.lookup name = env.lookup name ∨
    ∃ value, inner.lookup name = some value ∧ value.toExpr?.isSome = true

/-- No variable has a function as its value. -/
def IsFunctionFree (env : Env) : Prop :=
  ∀ name value, env.lookup name = some value → value.isFunctionFree = true

namespace ExtendsPlainly

variable {env inner last : Env}

theorem refl (env : Env) : env.ExtendsPlainly env :=
  fun _ => .inl rfl

theorem bind (extended : env.ExtendsPlainly inner) {pattern : Pattern}
    {row : Value} (isPlain : row.toExpr?.isSome = true)
    (binds : pattern.bind row inner = some last) : env.ExtendsPlainly last := by
  intro name
  by_cases occurs : name ∈ pattern.occurrences
  · obtain ⟨value, found⟩ := Pattern.exists_lookup_of_bind binds occurs
    exact .inr ⟨value, found, Pattern.plain_of_bind isPlain binds occurs found⟩
  · rw [Pattern.lookup_of_bind binds occurs]
    exact extended name

theorem isFunctionFree (extended : env.ExtendsPlainly inner)
    (free : env.IsFunctionFree) : inner.IsFunctionFree := by
  intro name value found
  rcases extended name with same | ⟨plain, isPlain, plainValue⟩
  · rw [same] at found
    exact free name value found
  · rw [isPlain] at found
    cases found
    exact Value.isFunctionFree_of_plain plainValue

end ExtendsPlainly

end Env

namespace Session

/-- The rows of a source have neither bags nor functions, wherever variables get
such values. -/
def YieldsPlainly (session : Session) (env : Env) (source : Expr) : Prop :=
  ∀ inner, env.ExtendsPlainly inner → ∀ site kind rows, Started site →
    session.evalIn site inner source = .ok (.collection kind rows) →
    ∀ row ∈ rows, row.toExpr?.isSome = true

/-- Rows without bags and functions are the same wherever the variables of their
source have the same values. -/
theorem YieldsPlainly.rows_eq {session : Session} {env inner other : Env}
    {source : Expr} (plain : session.YieldsPlainly env source)
    (uniform : session.Uniform) (free : env.IsFunctionFree)
    (extended : env.ExtendsPlainly inner)
    (same : ∀ name ∈ source.freeVars, other.lookup name = inner.lookup name)
    {site site' : Site} (started : Started site) (started' : Started site')
    {kind : CollectionKind} {rows : List Value}
    (evaluated : session.evalIn site inner source =
      .ok (.collection kind rows)) :
    session.evalIn site' other source = .ok (.collection kind rows) := by
  have share : Env.Share source.freeVars inner other :=
    ⟨same, fun name _ => extended.isFunctionFree free name⟩
  obtain ⟨value, evaluated', pair⟩ :=
    exists_evalIn uniform started started' share evaluated
  have rowsFree : (Value.collection kind rows).isFunctionFree = true := by
    refine Value.areFunctionFree_iff.mpr ?_
    intro row member
    exact Value.isFunctionFree_of_plain
      (plain inner extended site kind rows started evaluated row member)
  rw [evaluated', pair.eq_of_isFunctionFree rowsFree]

end Session

namespace Generator

/-- The variables that some generators bind. -/
def boundBy (parts : List Generator) : List Name :=
  parts.flatMap fun part => part.pattern.occurrences

/-- Each generator has variables of its own, and no source mentions a variable
that is bound at its generator or behind it. -/
structure Separate (parts : List Generator) : Prop where
  distinct : (boundBy parts).Nodup
  inOrder : ∀ before part behind, parts = before ++ part :: behind →
    ∀ name ∈ part.source.freeVars, name ∉ boundBy (part :: behind)

theorem Separate.tail {part : Generator} {parts : List Generator}
    (separate : Separate (part :: parts)) : Separate parts := by
  constructor
  · exact (List.nodup_append.mp separate.distinct).2.1
  · intro before other behind equality
    exact separate.inOrder (part :: before) other behind
      (congrArg (part :: ·) equality)

variable {session : Session} {parts : List Generator} {start env last : Env}

/-- What scans reach extends the environment by their rows. -/
theorem Reaches.extendsPlainly (reaches : Reaches session parts env last)
    (plain : ∀ part ∈ parts, session.YieldsPlainly start part.source)
    (extended : start.ExtendsPlainly env) : start.ExtendsPlainly last := by
  induction reaches with
  | nil => exact extended
  | cons started scans _ induction =>
      rw [List.forall_mem_cons] at plain
      obtain ⟨kind, rows, row, evaluated, member, binds⟩ := scans
      have isPlain :=
        plain.1 _ extended _ kind rows started evaluated row member
      exact induction plain.2 (extended.bind isPlain binds)

/-- Where scans end, their variables have values without bags and functions. -/
theorem Reaches.exists_plain (reaches : Reaches session parts env last)
    (plain : ∀ part ∈ parts, session.YieldsPlainly start part.source)
    (extended : start.ExtendsPlainly env) {name : Name}
    (isBound : name ∈ boundBy parts) :
    ∃ value, last.lookup name = some value ∧ value.toExpr?.isSome = true := by
  induction reaches with
  | nil => cases isBound
  | @cons part parts env inner last _ started scans rest induction =>
      rw [List.forall_mem_cons] at plain
      obtain ⟨kind, rows, row, evaluated, member, binds⟩ := scans
      have isPlain :=
        plain.1 _ extended _ kind rows started evaluated row member
      by_cases later : name ∈ boundBy parts
      · exact induction plain.2 (extended.bind isPlain binds) later
      · have own := (List.mem_append.mp isBound).resolve_right later
        obtain ⟨value, found⟩ := Pattern.exists_lookup_of_bind binds own
        refine ⟨value, ?_, Pattern.plain_of_bind isPlain binds own found⟩
        rw [← found]
        apply rest.lookup
        intro other isOther occurs
        exact later (List.mem_flatMap.mpr ⟨other, isOther, occurs⟩)

/-- Where separate scans end, each source still has the row that the variables
build. -/
theorem Reaches.exists_row (reaches : Reaches session parts env last)
    (separate : Separate parts) (uniform : session.Uniform)
    (free : start.IsFunctionFree)
    (plain : ∀ part ∈ parts, session.YieldsPlainly start part.source)
    (extended : start.ExtendsPlainly env) {site : Site}
    (started : Session.Started site) : ∀ part ∈ parts, ∃ kind rows,
      session.evalIn site last part.source = .ok (.collection kind rows) ∧
        ∃ row ∈ rows, part.pattern.ReadIn last row := by
  induction reaches with
  | nil => exact nofun
  | @cons part parts env inner last inside startedInside scans rest induction =>
      rw [List.forall_mem_cons] at plain ⊢
      obtain ⟨kind, rows, row, evaluated, member, binds⟩ := scans
      obtain ⟨ownDistinct, -, apart⟩ := List.nodup_append.mp separate.distinct
      have isPlain :=
        plain.1 _ extended _ kind rows startedInside evaluated row member
      refine ⟨⟨kind, rows, ?_, row, member, ?_⟩,
        induction separate.tail plain.2 (extended.bind isPlain binds)⟩
      · refine plain.1.rows_eq uniform free extended ?_ startedInside started
          evaluated
        intro name inSource
        have absent := separate.inOrder [] part parts rfl name inSource
        have absentOwn : name ∉ part.pattern.occurrences :=
          fun own => absent (List.mem_append_left _ own)
        rw [rest.lookup fun other isOther occurs =>
          absent (List.mem_append_right _
            (List.mem_flatMap.mpr ⟨other, isOther, occurs⟩))]
        exact Pattern.lookup_of_bind binds absentOwn
      · refine (Pattern.readIn_of_bind ownDistinct binds).congr ?_
        intro name own
        exact rest.lookup fun other isOther occurs =>
          apart name own name
            (List.mem_flatMap.mpr ⟨other, isOther, occurs⟩) rfl

/-- An assignment for which each source has the right row guides separate scans
to itself. -/
theorem guides_of_assignment {full : Env} (separate : Separate parts)
    (plain : ∀ part ∈ parts, session.YieldsPlainly start part.source)
    (rows : ∀ part ∈ parts, ∀ middle, start.ExtendsPlainly middle →
      (∀ name ∈ part.source.freeVars, middle.lookup name = full.lookup name) →
      ∀ site kind rows, Session.Started site →
        session.evalIn site middle part.source = .ok (.collection kind rows) →
        ∃ row ∈ rows, part.pattern.ReadIn full row)
    (extended : start.ExtendsPlainly env)
    (agrees : ∀ name ∉ boundBy parts, env.lookup name = full.lookup name) :
    Guides session parts env fun last =>
      start.ExtendsPlainly last ∧
      ∀ name, last.lookup name = full.lookup name := by
  induction parts generalizing env with
  | nil => exact ⟨extended, fun name => agrees name List.not_mem_nil⟩
  | cons part parts induction =>
      rw [List.forall_mem_cons] at plain rows
      intro site kind found started evaluated
      have sameSource : ∀ name ∈ part.source.freeVars, env.lookup name =
        full.lookup name :=
        fun name inSource =>
          agrees name (separate.inOrder [] part parts rfl name inSource)
      obtain ⟨row, member, read⟩ :=
        rows.1 env extended sameSource site kind found started evaluated
      obtain ⟨inner, binds, keeps⟩ := Pattern.exists_bind_of_readIn read env
      have isPlain :=
        plain.1 env extended site kind found started evaluated row member
      refine ⟨row, member, inner, binds,
        induction separate.tail plain.2 rows.2 (extended.bind isPlain binds) ?_⟩
      intro name absent
      by_cases own : name ∈ part.pattern.occurrences
      · exact keeps name own
      · rw [Pattern.lookup_of_bind binds own]
        refine agrees name fun either => ?_
        exact (List.mem_append.mp either).elim own absent

end Generator

end RecursiveQuery
