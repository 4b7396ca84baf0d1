import RecursiveQuery.Evaluation.Load
import RecursiveQuery.Proofs.Comprehension
import RecursiveQuery.Proofs.Names

/-!
# Loaded programs

A loaded program gives each declared name what its last declaration says.  Names
that are not declared mean nothing.
-/

namespace RecursiveQuery

/-- The last of some declarations of a name. -/
def Decl.last? (decls : List Decl) (name : Name) : Option Decl :=
  decls.reverse.find? fun decl => decl.name == name

namespace Decl

theorem last?_cons {decl : Decl} {decls : List Decl} {name : Name} :
    last? (decl :: decls) name =
      (last? decls name).or (if decl.name = name then some decl else none) := by
  rw [last?, List.reverse_cons, List.find?_append, last?]
  by_cases named : decl.name = name
  · simp [named]
  · have other : (decl.name == name) = false := by simpa using named
    simp [named, other]

end Decl

namespace Session

variable {session final : Session} {decls : List Decl} {site : Site}
  {name : Name}
variable {decl : Decl}

@[simp] theorem limits_define {value : Value} :
    (session.define name value).limits = session.limits :=
  rfl

@[simp] theorem limits_declare {type : Option Ty} :
    (session.declare name type).limits = session.limits := by
  cases type <;> rfl

@[simp] theorem globals_declare {type : Option Ty} :
    (session.declare name type).globals = session.globals := by
  cases type <;> rfl

/-- What a declaration makes of its name. -/
def Settles (session : Session) : Decl → Prop
  | .val name type (some value) =>
      ∃ (earlier : Session) (site : Site) (result : Value),
      earlier.limits = session.limits ∧ earlier.eval site value = .ok result ∧
        session.globals.lookup name = some (result.coerce type)
  | .val name _ none => session.globals.lookup name = none
  | .function name param body => ∃ site : Site,
      session.globals.lookup name = some (.closure ⟨site, param, body, []⟩)

theorem Settles.congr {other : Session} (settles : session.Settles decl)
    (limits : other.limits = session.limits)
    (globals : other.globals.lookup decl.name =
      session.globals.lookup decl.name) :
    other.Settles decl := by
  rcases decl with ⟨name, type, _ | value⟩ | ⟨name, param, body⟩
  · exact globals.trans settles
  · obtain ⟨earlier, site, result, earlierLimits, evaluated, found⟩ := settles
    exact ⟨earlier, site, result, earlierLimits.trans limits.symm, evaluated,
      globals.trans found⟩
  · obtain ⟨site, found⟩ := settles
    exact ⟨site, globals.trans found⟩

/-- Running a declaration settles its name and leaves all others. -/
theorem exists_runDecls_cons
    (ran : session.runDecls (decl :: decls) site = .ok final) :
    ∃ next : Session, next.runDecls decls (1 :: site) = .ok final ∧
      next.limits = session.limits ∧ next.Settles decl ∧
      ∀ name ≠ decl.name, next.globals.lookup name =
        session.globals.lookup name := by
  rcases decl with ⟨name, type, _ | value⟩ | ⟨name, param, body⟩
  · refine ⟨_, ran, by simp, ?_, ?_⟩
    · simp [Settles, NameMap.lookup_erase]
    · intro other different
      simp only [globals_declare, NameMap.lookup_erase,
        Decl.name] at different ⊢
      rw [if_neg different]
  · rw [runDecls, Outcome.bind_eq_ok_iff] at ran
    obtain ⟨result, evaluated, ran⟩ := ran
    refine ⟨_, ran, by simp, ⟨_, _, result, by simp, evaluated, ?_⟩, ?_⟩
    · simp [define, NameMap.lookup_insert]
    · intro other different
      simp only [define, globals_declare, NameMap.lookup_insert,
        Decl.name] at different ⊢
      rw [if_neg different]
  · refine ⟨_, ran, by simp, ⟨0 :: site, ?_⟩, ?_⟩
    · simp only [define, NameMap.lookup_insert, if_true]
    · intro other different
      simp only [define, globals_declare, NameMap.lookup_insert,
        Decl.name] at different ⊢
      rw [if_neg different]

theorem limits_of_runDecls (ran : session.runDecls decls site = .ok final) :
    final.limits = session.limits := by
  induction decls generalizing session site with
  | nil =>
      cases ran
      rfl
  | cons decl decls induction =>
      obtain ⟨next, rest, limits, _, _⟩ := exists_runDecls_cons ran
      exact (induction rest).trans limits

theorem lookup_of_runDecls (ran : session.runDecls decls site = .ok final)
    (undeclared : Decl.last? decls name = none) :
    final.globals.lookup name = session.globals.lookup name := by
  induction decls generalizing session site with
  | nil =>
      cases ran
      rfl
  | cons decl decls induction =>
      rw [Decl.last?_cons, Option.or_eq_none_iff] at undeclared
      obtain ⟨next, rest, _, _, others⟩ := exists_runDecls_cons ran
      rw [induction rest undeclared.1]
      apply others
      rintro rfl
      simp at undeclared

theorem settles_of_runDecls (ran : session.runDecls decls site = .ok final)
    (declared : Decl.last? decls name = some decl) : final.Settles decl := by
  induction decls generalizing session site with
  | nil => cases declared
  | cons head decls induction =>
      obtain ⟨next, rest, _, settles, _⟩ := exists_runDecls_cons ran
      rw [Decl.last?_cons] at declared
      cases later : Decl.last? decls name with
      | some found =>
          rw [later, Option.some_or] at declared
          cases declared
          exact induction rest later
      | none =>
          rw [later, Option.none_or] at declared
          split at declared
          case isTrue named =>
              cases declared
              subst named
              exact settles.congr (limits_of_runDecls rest)
                (lookup_of_runDecls rest later)
          case isFalse => cases declared

/-- Declarations run if all declared values can be evaluated. -/
theorem exists_runDecls
    (evaluates : ∀ name type value, .val name type (some value) ∈ decls →
      ∀ (earlier : Session) (site : Site), ∃ result, earlier.eval site value =
        .ok result) :
    ∃ final, session.runDecls decls site = .ok final := by
  induction decls generalizing session site with
  | nil => exact ⟨session, rfl⟩
  | cons decl decls induction =>
      have rest := fun (next : Session) => @induction next (1 :: site)
        fun name type value member =>
          evaluates name type value (List.mem_cons_of_mem _ member)
      rcases decl with ⟨name, type, _ | value⟩ | ⟨name, param, body⟩
      · exact rest _
      · obtain ⟨result, evaluated⟩ :=
          evaluates name type value List.mem_cons_self
          (session.declare name type) (0 :: site)
        rw [runDecls, evaluated]
        exact rest _
      · exact rest _

theorem limits_defineFunctions :
    (session.defineFunctions decls site).limits = session.limits := by
  induction decls generalizing session site with
  | nil => rfl
  | cons decl decls induction =>
      cases decl with
      | val => exact induction
      | function => exact induction

theorem lookup_defineFunctions (undeclared : Decl.last? decls name = none) :
    (session.defineFunctions decls site).globals.lookup name =
    session.globals.lookup name := by
  induction decls generalizing session site with
  | nil => rfl
  | cons decl decls induction =>
      rw [Decl.last?_cons, Option.or_eq_none_iff] at undeclared
      cases decl with
      | val other type value =>
          rw [defineFunctions, induction undeclared.1]
      | function other param body =>
          have different : name ≠ other := by
            rintro rfl
            simp [Decl.name] at undeclared
          rw [defineFunctions, induction undeclared.1, define,
            NameMap.lookup_insert, if_neg different]

section Load

variable {program : Program} {limits : Limits}

theorem limits_of_load (loaded : load program limits = .ok session) :
    session.limits = limits :=
  (limits_of_runDecls loaded).trans limits_defineFunctions

theorem settles_of_load (loaded : load program limits = .ok session)
    (declared : program.decl? name = some decl) : session.Settles decl :=
  settles_of_runDecls loaded declared

theorem lookup_of_load (loaded : load program limits = .ok session)
    (undeclared : program.decl? name = none) :
    session.globals.lookup name = none := by
  rw [lookup_of_runDecls loaded undeclared, lookup_defineFunctions undeclared]
  rfl

end Load

end Session

end RecursiveQuery
