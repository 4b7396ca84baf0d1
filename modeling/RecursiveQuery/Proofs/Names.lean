import RecursiveQuery.Inversion.Scope
import RecursiveQuery.Proofs.FreshNames

/-!
# Names of scopes and programs

Which names a listing, a pattern, a scope or a program has.
-/

namespace RecursiveQuery

namespace Name

variable {name new : Name} {names : List Name}

theorem mem_insertAscending :
    name ∈ insertAscending new names ↔ name = new ∨ name ∈ names := by
  induction names with
  | nil => simp [insertAscending]
  | cons head tail induction =>
      rw [insertAscending]
      cases order : compare new head with
      | lt => simp
      | eq =>
          have equality : new = head := Std.LawfulEqCmp.eq_of_compare order
          simp [equality]
      | gt =>
          simp only [List.mem_cons, induction]
          exact or_left_comm

@[simp] theorem mem_ascending :
    name ∈ ascending names ↔ name ∈ names := by
  induction names with
  | nil => simp [ascending]
  | cons head tail induction =>
      have step : ascending (head :: tail) =
        insertAscending head (ascending tail) := rfl
      rw [step, mem_insertAscending, induction, List.mem_cons]

theorem pairwise_insertAscending
    (ascends : names.Pairwise fun first second => compare first second = .lt) :
    (insertAscending new names).Pairwise fun first second =>
    compare first second = .lt := by
  induction names with
  | nil => exact List.pairwise_singleton _ _
  | cons head tail induction =>
      obtain ⟨headFirst, tailAscends⟩ := List.pairwise_cons.mp ascends
      rw [insertAscending]
      cases order : compare new head with
      | lt =>
          apply List.pairwise_cons.mpr ⟨?_, ascends⟩
          intro other member
          rcases List.mem_cons.mp member with isHead | inTail
          · rw [isHead]
            exact order
          · exact Std.TransCmp.lt_trans order (headFirst other inTail)
      | eq => exact ascends
      | gt =>
          apply List.pairwise_cons.mpr ⟨?_, induction tailAscends⟩
          intro other member
          rcases mem_insertAscending.mp member with isNew | inTail
          · rw [isNew]
            exact Std.OrientedCmp.lt_of_gt order
          · exact headFirst other inTail

theorem nodup_ascending (names : List Name) : (ascending names).Nodup := by
  have ascends : (ascending names).Pairwise fun first second =>
    compare first second = .lt := by
    induction names with
    | nil => exact .nil
    | cons head tail induction => exact pairwise_insertAscending induction
  apply ascends.imp
  intro first second order equal
  have same : compare second second = .eq := Std.ReflCmp.compare_self
  rw [equal, same] at order
  cases order

@[simp] theorem mem_outside {bound : List Name} :
    name ∈ outside bound names ↔ name ∈ names ∧ name ∉ bound := by
  simp [outside]

end Name

namespace NameMap

variable {α : Type} {map : NameMap α} {name other : Name}

theorem lookup_erase :
    (map.erase other).lookup name =
      if name = other then none else map.lookup name := by
  induction map with
  | nil => simp [erase]
  | cons entry entries induction =>
      obtain ⟨key, value⟩ := entry
      have induction :
        List.lookup name (List.filter (fun entry => entry.1 != other) entries) =
        if name = other then none else List.lookup name entries := induction
      by_cases erased : key = other
      · subst erased
        simp only [erase, List.filter_cons, bne_self_eq_false,
          Bool.false_eq_true, if_false, induction, List.lookup_cons]
        by_cases equal : name = key
        · simp [equal]
        · have different : (name == key) = false := by simpa using equal
          rw [different]
      · have kept : (key != other) = true := by simpa using erased
        simp only [erase, List.filter_cons, kept, if_true, induction,
          List.lookup_cons]
        by_cases equal : name = key
        · subst equal
          simp [erased]
        · have different : (name == key) = false := by simpa using equal
          rw [different]

theorem lookup_insert {value : α} :
    (map.insert other value).lookup name =
      if name = other then some value else map.lookup name := by
  rw [insert, List.lookup_cons, lookup_erase]
  by_cases equal : name = other
  · simp [equal]
  · have different : (name == other) = false := by simpa using equal
    simp [equal, different]

theorem contains_insert {value : α} :
    (map.insert other value).contains name =
    (name == other || map.contains name) := by
  rw [contains, lookup_insert]
  by_cases equal : name = other <;> simp [equal, contains]

end NameMap

theorem nodup_eraseDups (names : List Name) : names.eraseDups.Nodup := by
  match names with
  | [] => exact List.nodup_nil
  | name :: names =>
      have shorter := List.length_filter_le (fun other => !other == name) names
      rw [List.eraseDups_cons, List.nodup_cons, List.mem_eraseDups]
      exact ⟨by simp, nodup_eraseDups _⟩
termination_by names.length

namespace Pattern

@[simp] theorem mem_vars {name : Name} {pattern : Pattern} :
    name ∈ pattern.vars ↔ name ∈ pattern.occurrences := by
  simp [vars]

theorem vars_pair {first second : Name} (different : first ≠ second) :
    (tuple [var first, var second]).vars = [first, second] := by
  have reverse : (second == first) = false := by simpa using different.symm
  simp [vars, occurrences, occurrencesList, List.eraseDups_cons, reverse]

/-- What a component of a tuple pattern binds, the tuple binds. -/
theorem occurrences_of_mem {item : Pattern} {items : List Pattern}
    (member : item ∈ items) : item.occurrences ⊆ (tuple items).occurrences := by
  induction items with
  | nil => cases member
  | cons first items induction =>
      rcases List.mem_cons.mp member with rfl | later
      · exact List.subset_append_left _ _
      · exact List.subset_append_of_subset_right _ (induction later)

/-- The variables of a row of names. -/
theorem occurrences_row (names : List Name) :
    (row names).occurrences = names := by
  have list (names : List Name) : occurrencesList (names.map var) = names := by
    induction names with
    | nil => rfl
    | cons name names induction => exact congrArg (name :: ·) induction
  rcases names with _ | ⟨first, _ | ⟨second, rest⟩⟩
  · rfl
  · rfl
  · exact list (first :: second :: rest)

end Pattern

namespace Program

variable {program : Program} {name : Name} {decl : Decl}

theorem decl?_eq_some (declared : program.decl? name = some decl) :
    decl ∈ program.decls ∧ decl.name = name := by
  constructor
  · exact List.mem_reverse.mp (List.mem_of_find?_eq_some declared)
  · have found := List.find?_some declared
    simpa using found

theorem mem_names_of_decl? (declared : program.decl? name = some decl) :
    name ∈ program.names := by
  obtain ⟨member, rfl⟩ := decl?_eq_some declared
  refine List.mem_flatMap.mpr ⟨decl, member, ?_⟩
  cases decl with
  | val name type value => cases value <;> simp [Decl.name, Decl.names]
  | function name param body => simp [Decl.name, Decl.names]

end Program

namespace Scope

theorem mem_locals {scope : Scope} {program : Program} {expr : Expr}
    {name : Name} : name ∈ scope.locals program expr ↔
      name ∈ expr.freeVars ∧ scope.isGlobal program name = false := by
  simp [locals]

theorem mem_goals_initial {goals : List Name} {goal : Name} :
    goal ∈ (initial goals []).goals ↔ goal ∈ goals := by
  simp [initial, NameMap.contains]

variable {scope : Scope} {generator : Generator} {name : Name}

theorem goals_produce : (scope.produce generator).goals = scope.goals := by
  rw [produce]
  generalize generator.pattern.vars = names
  induction names generalizing scope with
  | nil => rfl
  | cons head tail induction =>
      rw [List.foldl_cons, induction]
      split <;> rfl

/-- A generator binds its variables and keeps what is bound. -/
theorem isBound_produce :
    (scope.produce generator).isBound name =
      (scope.isBound name || generator.pattern.vars.contains name) := by
  rw [produce]
  generalize generator.pattern.vars = names
  induction names generalizing scope with
  | nil => simp
  | cons head tail induction =>
      rw [List.foldl_cons, induction]
      by_cases bound : scope.isBound head = true
      · rw [if_pos bound]
        by_cases equal : name = head
        · simp [equal, bound]
        · simp [equal]
      · rw [if_neg bound]
        simp only [isBound, bind, NameMap.contains_insert, List.contains_cons]
        rw [Bool.or_comm (name == head), Bool.or_assoc]

theorem isBound_produce_iff :
    (scope.produce generator).isBound name = true ↔
      scope.isBound name = true ∨ name ∈ generator.pattern.occurrences := by
  rw [isBound_produce, Bool.or_eq_true, List.contains_iff_mem, Pattern.mem_vars]

/-- All bound names of a scope are among some names. -/
def BindsAmong (scope : Scope) (names : List Name) : Prop :=
  ∀ name, scope.isBound name = true → name ∈ names

namespace BindsAmong

variable {names more : List Name}

theorem mono (among : scope.BindsAmong names) (subset : names ⊆ more) :
    scope.BindsAmong more := fun name isBound =>
  subset (among name isBound)

theorem produce (among : scope.BindsAmong names)
    (pattern : generator.pattern.occurrences ⊆ names) :
    (scope.produce generator).BindsAmong names := fun name isBound =>
  (isBound_produce_iff.mp isBound).elim (among name) fun occurs =>
    pattern occurs

end BindsAmong

end Scope

end RecursiveQuery
