import RecursiveQuery.Inversion.Base
import RecursiveQuery.Proofs.Join
import RecursiveQuery.Proofs.Names
import RecursiveQuery.Proofs.NamingRuns
import RecursiveQuery.Proofs.ValueEquality

/-!
# Freshened patterns

A variable of a pattern that is bound already, or occurs more than once, says
that components are equal.  Matching does not see that, but it does once such
occurrences have names of their own, with equations between the new names and
the old ones.
-/

namespace RecursiveQuery

namespace Pattern

mutual

/-- A value equals what a pattern stands for if its variables have the given
values; a wildcard stands for any value. -/
def Fits (values : Name → Value) : Pattern → Value → Prop
  | wildcard, _ => True
  | var name, value => value.Alike (values name)
  | literal expected, value => (Value.ofLiteral expected).Alike value
  | tuple patterns, .tuple items => FitsEach values patterns items
  | tuple _, _ => False

def FitsEach (values : Name → Value) : List Pattern → List Value → Prop
  | [], [] => True
  | pattern :: patterns, item :: items => Fits values pattern item ∧
      FitsEach values patterns items
  | _, _ => False

end

mutual

/-- A value is what a pattern stands for with the variables of an
environment. -/
def ReadIn (env : Env) : Pattern → Value → Prop
  | wildcard, _ => True
  | var name, value => env.lookup name = some value
  | literal expected, value => (Value.ofLiteral expected).Alike value
  | tuple patterns, .tuple items => ReadEachIn env patterns items
  | tuple _, _ => False

def ReadEachIn (env : Env) : List Pattern → List Value → Prop
  | [], [] => True
  | pattern :: patterns, item :: items => ReadIn env pattern item ∧
      ReadEachIn env patterns items
  | _, _ => False

end

mutual

theorem ReadIn.congr {env other : Env} {pattern : Pattern} {value : Value}
    (same : ∀ name ∈ pattern.occurrences, other.lookup name = env.lookup name)
    (read : pattern.ReadIn env value) : pattern.ReadIn other value := by
  cases pattern with
  | wildcard => trivial
  | var name => exact (same name List.mem_cons_self).trans read
  | literal expected => exact read
  | tuple patterns =>
      cases value with
      | tuple items => exact ReadEachIn.congr same read
      | _ => exact read

theorem ReadEachIn.congr {env other : Env} {patterns : List Pattern}
    {items : List Value}
    (same : ∀ name ∈ occurrencesList patterns, other.lookup name =
      env.lookup name) (read : ReadEachIn env patterns items) :
    ReadEachIn other patterns items := by
  match patterns, items with
  | [], [] => trivial
  | [], _ :: _ => exact read
  | _ :: _, [] => exact read
  | pattern :: patterns, item :: items =>
      obtain ⟨first, rest⟩ := List.forall_mem_append.mp same
      exact ⟨ReadIn.congr first read.1, ReadEachIn.congr rest read.2⟩

end

theorem of_bindList_cons {pattern : Pattern} {patterns : List Pattern}
    {item : Value} {items : List Value} {env inner : Env}
    (binds : bindList (pattern :: patterns) (item :: items) env = some inner) :
    ∃ middle, pattern.bind item env = some middle ∧
      bindList patterns items middle = some inner := by
  rw [bindList] at binds
  cases first : pattern.bind item env with
  | none =>
      rw [first] at binds
      cases binds
  | some middle =>
      rw [first] at binds
      exact ⟨middle, rfl, binds⟩

mutual

/-- Matching leaves all other variables. -/
theorem lookup_of_bind {pattern : Pattern} {value : Value} {env inner : Env}
    (binds : pattern.bind value env = some inner) {name : Name}
    (absent : name ∉ pattern.occurrences) :
    inner.lookup name = env.lookup name := by
  cases pattern with
  | wildcard =>
      cases binds
      rfl
  | var other =>
      cases binds
      have different : (name == other) = false := by
        simpa [occurrences] using absent
      rw [List.lookup_cons, different]
  | literal expected =>
      rw [bind] at binds
      split at binds
      · cases binds
        rfl
      · cases binds
  | tuple patterns =>
      cases value with
      | tuple items => exact lookup_of_bindList binds absent
      | _ => cases binds

theorem lookup_of_bindList {patterns : List Pattern} {items : List Value}
    {env inner : Env} (binds : bindList patterns items env = some inner)
    {name : Name} (absent : name ∉ occurrencesList patterns) :
    inner.lookup name = env.lookup name := by
  match patterns, items with
  | [], [] =>
      cases binds
      rfl
  | [], _ :: _ => cases binds
  | _ :: _, [] => cases binds
  | pattern :: patterns, item :: items =>
      rw [occurrencesList, List.mem_append, not_or] at absent
      obtain ⟨middle, first, binds⟩ := of_bindList_cons binds
      exact (lookup_of_bindList binds absent.2).trans
        (lookup_of_bind first absent.1)

end

mutual

/-- Where no variable occurs twice, matching leaves what the pattern stands for
in the environment. -/
theorem readIn_of_bind {pattern : Pattern}
    (distinct : pattern.occurrences.Nodup) {value : Value} {env inner : Env}
    (binds : pattern.bind value env = some inner) :
    pattern.ReadIn inner value := by
  cases pattern with
  | wildcard => trivial
  | var name =>
      cases binds
      exact List.lookup_cons_self
  | literal expected =>
      rw [bind] at binds
      split at binds
      · next same => exact same
      · cases binds
  | tuple patterns =>
      cases value with
      | tuple items => exact readEachIn_of_bindList distinct binds
      | _ => cases binds

theorem readEachIn_of_bindList {patterns : List Pattern}
    (distinct : (occurrencesList patterns).Nodup) {items : List Value}
    {env inner : Env} (binds : bindList patterns items env = some inner) :
    ReadEachIn inner patterns items := by
  match patterns, items with
  | [], [] => trivial
  | [], _ :: _ => cases binds
  | _ :: _, [] => cases binds
  | pattern :: patterns, item :: items =>
      obtain ⟨firstDistinct, restDistinct, disjoint⟩ :=
        List.nodup_append.mp distinct
      obtain ⟨middle, first, binds⟩ := of_bindList_cons binds
      refine ⟨?_, readEachIn_of_bindList restDistinct binds⟩
      refine ReadIn.congr ?_ (readIn_of_bind firstDistinct first)
      intro name member
      exact lookup_of_bindList binds fun later =>
        disjoint name member name later rfl

end

end Pattern

theorem Session.lookup_of_env {session : Session} {env : Env} {name : Name}
    {value : Value} (found : env.lookup name = some value) :
    session.lookup env name = .ok value := by
  rw [lookup, found]
  rfl

/-- A variable has a value that equals the given one. -/
def Env.Gives (env : Env) (values : Name → Value) (name : Name) : Prop :=
  ∃ value, env.lookup name = some value ∧ value.Alike (values name)

namespace Pattern

variable {scope : Scope}

/-- The names of a freshened pattern: fresh ones, and variables that were
neither bound nor seen, which are seen from then on. -/
structure FreshNames (scope : Scope) (occurrences seen : List Name)
    (supply : NameSupply) (newOccurrences newSeen : List Name)
    (later : NameSupply) : Prop where
  distinct : newOccurrences.Nodup
  reserved : newOccurrences ⊆ later.used
  new : ∀ name ∈ newOccurrences, name ∉ supply.used ∨
    scope.isBound name = false ∧ name ∉ seen ∧ name ∈ newSeen
  kept : ∀ name ∈ newSeen, name ∈ seen ∨ name ∈ newOccurrences
  seen : ∀ name, name ∈ newSeen ↔
    name ∈ seen ∨ name ∈ occurrences ∧ scope.isBound name = false

mutual

theorem freshenFrom_names (pattern : Pattern) {seen : List Name}
    {supply : NameSupply} (reserved : pattern.occurrences ⊆ supply.used) :
    (pattern.freshenFrom scope seen).Ensures supply fun result later =>
      FreshNames scope pattern.occurrences seen supply result.1.occurrences
        result.2.1 later := by
  cases pattern with
  | wildcard | literal value =>
      exact .pure
        ⟨List.nodup_nil, nofun, nofun, fun _ => .inl, by simp [occurrences]⟩
  | var name =>
      rw [freshenFrom]
      split
      · next known =>
          refine .bind (NameSupply.fresh_spec name supply) ?_
          intro target later _ drawn
          refine .pure ⟨List.nodup_singleton _, ?_, ?_, fun _ => .inl, ?_⟩
          · simpa [occurrences] using drawn.2
          · intro other member
            rw [List.mem_singleton.mp member]
            exact .inl drawn.1
          · intro other
            constructor
            · exact .inl
            · intro either
              rcases either with old | ⟨isName, unbound⟩
              · exact old
              · rw [List.mem_singleton.mp isName] at unbound ⊢
                simpa [unbound] using known
      · next unknown =>
          obtain ⟨unbound, unseen⟩ : scope.isBound name = false ∧
            name ∉ seen := by
            simpa using unknown
          refine .pure ⟨List.nodup_singleton _, reserved, ?_, ?_, ?_⟩
          · intro other member
            rw [List.mem_singleton.mp member]
            exact .inr ⟨unbound, unseen, List.mem_cons_self⟩
          · intro other member
            rcases List.mem_cons.mp member with isName | old
            · exact .inr (List.mem_singleton.mpr isName)
            · exact .inl old
          · intro other
            simp only [occurrences, List.mem_cons, List.not_mem_nil, or_false]
            constructor
            · intro either
              rcases either with isName | old
              · exact .inr ⟨isName, isName ▸ unbound⟩
              · exact .inl old
            · intro either
              rcases either with old | ⟨isName, _⟩
              · exact .inr old
              · exact .inl isName
  | tuple items =>
      refine .bind (freshenFromList_names items reserved) ?_
      intro result later _ names
      exact .pure names

theorem freshenFromList_names (items : List Pattern) {seen : List Name}
    {supply : NameSupply} (reserved : occurrencesList items ⊆ supply.used) :
    (freshenFromList scope items seen).Ensures supply fun result later =>
      FreshNames scope (occurrencesList items) seen supply
        (occurrencesList result.1) result.2.1 later := by
  cases items with
  | nil =>
      exact .pure
        ⟨List.nodup_nil, nofun, nofun, fun _ => .inl, by simp [occurrencesList]⟩
  | cons item items =>
      obtain ⟨itemReserved, restReserved⟩ := List.append_subset.mp reserved
      refine .bind (freshenFrom_names item itemReserved) ?_
      intro first middle grown firstNames
      obtain ⟨newItem, middleSeen, equations⟩ := first
      refine .bind (freshenFromList_names items
        (List.Subset.trans restReserved grown)).keeps ?_
      intro rest last _ restNames
      obtain ⟨newItems, lastSeen, moreEquations⟩ := rest
      obtain ⟨grownLast, restNames⟩ := restNames
      dsimp only at firstNames restNames ⊢
      have oldSeen : seen ⊆ middleSeen :=
        fun name old => (firstNames.seen name).mpr (.inl old)
      have newSeen : middleSeen ⊆ lastSeen :=
        fun name old => (restNames.seen name).mpr (.inl old)
      refine .pure ⟨?_, ?_, ?_, ?_, ?_⟩
      · refine List.nodup_append.mpr
          ⟨firstNames.distinct, restNames.distinct, ?_⟩
        intro name inFirst other inRest equal
        subst equal
        rcases restNames.new name inRest with fresh | ⟨_, unseen, isSeen⟩
        · exact fresh (firstNames.reserved inFirst)
        · -- a variable that the rest sees first is none of the fresh names
          rcases (restNames.seen name).mp isSeen with old | ⟨inItems, _⟩
          · exact unseen old
          · rcases firstNames.new name inFirst with fresh | ⟨_, _, old⟩
            · exact fresh (restReserved inItems)
            · exact unseen old
      · exact List.append_subset.mpr
          ⟨List.Subset.trans firstNames.reserved grownLast, restNames.reserved⟩
      · intro name member
        rcases List.mem_append.mp member with inFirst | inRest
        · exact (firstNames.new name inFirst).imp_right
            fun ⟨unbound, unseen, isSeen⟩ =>
            ⟨unbound, unseen, newSeen isSeen⟩
        · rcases restNames.new name inRest with
            fresh | ⟨unbound, unseen, isSeen⟩
          · exact .inl fun used => fresh (grown used)
          · exact .inr ⟨unbound, fun old => unseen (oldSeen old), isSeen⟩
      · intro name member
        rcases restNames.kept name member with middle | inRest
        · exact (firstNames.kept name middle).imp_right (List.mem_append_left _)
        · exact .inr (List.mem_append_right _ inRest)
      · intro name
        rw [restNames.seen, firstNames.seen, occurrencesList, List.mem_append,
          or_and_right, or_assoc]

end

mutual

/-- What fits a pattern matches its freshened form. -/
theorem freshenFrom_matches (pattern : Pattern) (seen : List Name)
    (supply : NameSupply) :
    (pattern.freshenFrom scope seen).Ensures supply fun result _ =>
      ∀ values value env, pattern.Fits values value →
        ∃ inner, result.1.bind value env = some inner := by
  cases pattern with
  | wildcard => exact .pure fun _ _ env _ => ⟨env, rfl⟩
  | literal expected =>
      refine .pure fun values value env fits => ⟨env, ?_⟩
      rw [bind]
      exact if_pos fits
  | var name =>
      rw [freshenFrom]
      split
      · refine .bind (NameSupply.fresh_spec name supply) ?_
        intro target later _ _
        exact .pure fun _ value env _ => ⟨(target, value) :: env, rfl⟩
      · exact .pure fun _ value env _ => ⟨(name, value) :: env, rfl⟩
  | tuple items =>
      refine .bind (freshenFromList_matches items seen supply) ?_
      intro result later _ found
      refine .pure fun values value env fits => ?_
      cases value with
      | tuple components => exact found values components env fits
      | _ => cases fits

theorem freshenFromList_matches (items : List Pattern) (seen : List Name)
    (supply : NameSupply) :
    (freshenFromList scope items seen).Ensures supply fun result _ =>
      ∀ values components env, FitsEach values items components →
        ∃ inner, bindList result.1 components env = some inner := by
  cases items with
  | nil =>
      refine .pure fun values components env fits => ?_
      cases components with
      | nil => exact ⟨env, rfl⟩
      | cons _ _ => cases fits
  | cons item items =>
      refine .bind (freshenFrom_matches item seen supply) ?_
      intro first middle _ firstFound
      refine .bind (freshenFromList_matches items first.2.1 middle) ?_
      intro rest last _ restFound
      refine .pure fun values components env fits => ?_
      cases components with
      | nil => cases fits
      | cons component components =>
          obtain ⟨inner, binds⟩ := firstFound values component env fits.1
          obtain ⟨innermost, bindsRest⟩ :=
            restFound values components inner fits.2
          refine ⟨innermost, ?_⟩
          rw [bindList, binds]
          exact bindsRest

end

/-- Whether an expression says that two variables are equal. -/
def IsEquation (equation : Expr) : Prop :=
  ∃ target name, equation = .equals (.var target) (.var name)

section Equations

variable {session : Session} {call : Caller} {site : Site}
variable {env : Env}

/-- The equations, and the values of the variables that were not known, say that
a pattern with some variables fits. -/
def Restores (session : Session) (call : Caller) (site : Site) (scope : Scope)
    (names seen : List Name) (fits : (Name → Value) → Prop)
    (newSeen : List Name) (equations : List Expr) (env : Env) : Prop :=
  ∀ values : Name → Value,
    (∀ name ∈ names, scope.isBound name = true → env.Gives values name) →
    (∀ name ∈ seen, env.Gives values name) →
    (fits values ↔
      (∀ equation ∈ equations, equation.eval session call env site =
        .ok (.bool true)) ∧ ∀ name ∈ newSeen, env.Gives values name)

/-- Without constraints nothing has to be restored. -/
theorem Restores.nothing {names seen : List Name} {fits : (Name → Value) → Prop}
    (always : ∀ values, fits values) :
    Restores session call site scope names seen fits seen [] env := by
  intro values _ known
  constructor
  · intro _
    exact ⟨nofun, known⟩
  · intro _
    exact always values

theorem Restores.both {names more seen middleSeen lastSeen : List Name}
    {first rest : List Expr} {fitsFirst fitsRest : (Name → Value) → Prop}
    (grown : middleSeen ⊆ lastSeen)
    (restoresFirst : Restores session call site scope names seen fitsFirst
      middleSeen first env)
    (restoresRest : Restores session call site scope more middleSeen fitsRest
      lastSeen rest env) :
    Restores session call site scope (names ++ more) seen
      (fun values => fitsFirst values ∧ fitsRest values) lastSeen
        (first ++ rest) env := by
  intro values bound known
  obtain ⟨firstBound, restBound⟩ := List.forall_mem_append.mp bound
  have firstIff := restoresFirst values firstBound known
  constructor
  · intro fits
    obtain ⟨firstHold, gives⟩ := firstIff.mp fits.1
    obtain ⟨restHold, givesAll⟩ :=
      (restoresRest values restBound gives).mp fits.2
    exact ⟨List.forall_mem_append.mpr ⟨firstHold, restHold⟩, givesAll⟩
  · intro holds
    obtain ⟨firstHold, restHold⟩ := List.forall_mem_append.mp holds.1
    have gives : ∀ name ∈ middleSeen, env.Gives values name :=
      fun name member => holds.2 name (grown member)
    exact ⟨firstIff.mpr ⟨firstHold, gives⟩,
      (restoresRest values restBound gives).mpr ⟨restHold, holds.2⟩⟩

mutual

/-- A pattern is freshened by equations that restore its constraints. -/
theorem freshenFrom_restores (pattern : Pattern) (seen : List Name)
    (supply : NameSupply) :
    (pattern.freshenFrom scope seen).Ensures supply fun result _ =>
      seen ⊆ result.2.1 ∧ (∀ equation ∈ result.2.2, IsEquation equation) ∧
        ∀ session call site value env, result.1.ReadIn env value →
          Restores session call site scope pattern.occurrences seen
            (pattern.Fits · value) result.2.1 result.2.2 env := by
  cases pattern with
  | wildcard =>
      exact .pure ⟨List.Subset.refl _, nofun,
        fun _ _ _ _ _ _ => .nothing fun _ => trivial⟩
  | literal expected =>
      exact .pure ⟨List.Subset.refl _, nofun,
        fun _ _ _ _ _ read => .nothing fun _ => read⟩
  | var name =>
      rw [freshenFrom]
      split
      · next isKnown =>
          refine .bind (NameSupply.fresh_spec name supply) ?_
          intro target later _ _
          refine .pure ⟨List.Subset.refl _,
            List.forall_mem_singleton.mpr ⟨target, name, rfl⟩, ?_⟩
          intro session call site value env read values bound known
          obtain ⟨other, found, alike⟩ : env.Gives values name := by
            rcases Bool.or_eq_true_iff.mp isKnown with isBound | isSeen
            · exact bound name List.mem_cons_self isBound
            · exact known name (List.contains_iff_mem.mp isSeen)
          have evaluated :
            (Expr.equals (.var target) (.var name)).eval session call env site =
              .ok (.bool (value.same other)) :=
            Expr.eval_equals (Session.lookup_of_env read)
              (Session.lookup_of_env found)
          simp only [List.forall_mem_singleton, evaluated, Except.ok.injEq,
            Value.bool.injEq]
          constructor
          · intro fits
            exact ⟨Value.Alike.trans fits alike.symm, known⟩
          · intro both
            exact Value.Alike.trans both.1 alike
      · refine .pure ⟨List.subset_cons_self _ _, nofun, ?_⟩
        intro session call site value env read values _ known
        constructor
        · intro fits
          exact ⟨nofun, List.forall_mem_cons.mpr ⟨⟨value, read, fits⟩, known⟩⟩
        · intro both
          obtain ⟨other, found, alike⟩ := both.2 name List.mem_cons_self
          cases found.symm.trans read
          exact alike
  | tuple items =>
      refine .bind (freshenFromList_restores items seen supply) ?_
      intro result later _ found
      obtain ⟨grown, areEquations, restores⟩ := found
      refine .pure ⟨grown, areEquations, ?_⟩
      intro session call site value env read
      cases value with
      | tuple components => exact restores session call site components env read
      | _ => cases read

theorem freshenFromList_restores (items : List Pattern) (seen : List Name)
    (supply : NameSupply) :
    (freshenFromList scope items seen).Ensures supply fun result _ =>
      seen ⊆ result.2.1 ∧ (∀ equation ∈ result.2.2, IsEquation equation) ∧
        ∀ session call site components env, ReadEachIn env result.1 components →
          Restores session call site scope (occurrencesList items) seen
            (FitsEach · items components) result.2.1 result.2.2 env := by
  cases items with
  | nil =>
      refine .pure ⟨List.Subset.refl _, nofun, ?_⟩
      intro session call site components env read
      cases components with
      | nil => exact .nothing fun _ => trivial
      | cons _ _ => cases read
  | cons item items =>
      refine .bind (freshenFrom_restores item seen supply) ?_
      rintro first middle _ ⟨grown, areEquations, restores⟩
      refine .bind (freshenFromList_restores items first.2.1 middle) ?_
      rintro rest last _ ⟨grownRest, restEquations, restRestores⟩
      refine .pure ⟨List.Subset.trans grown grownRest,
        List.forall_mem_append.mpr ⟨areEquations, restEquations⟩, ?_⟩
      intro session call site components env read
      cases components with
      | nil => cases read
      | cons component components =>
          exact .both grownRest
            (restores session call site component env read.1)
            (restRestores session call site components env read.2)

end

/-- What a pattern becomes: it binds each of its variables once and none that
was bound, and other names are new.  A value fits the pattern exactly if it
matches the freshened one with the given values for the variables that were not
bound and all equations hold. -/
structure Freshened (scope : Scope) (pattern : Pattern) (supply : NameSupply)
    (newPattern : Pattern) (equations : List Expr) (later : NameSupply) :
    Prop where
  reserved : newPattern.occurrences ⊆ later.used
  areEquations : ∀ equation ∈ equations, IsEquation equation
  distinct : newPattern.occurrences.Nodup
  unbound : ∀ name ∈ newPattern.occurrences, scope.isBound name = false
  new : ∀ name ∈ newPattern.occurrences, name ∉ supply.used ∨
    name ∈ pattern.occurrences
  kept : ∀ name ∈ pattern.occurrences, scope.isBound name = false →
    name ∈ newPattern.occurrences
  fits : ∀ session call site values value env,
    (∀ name ∈ pattern.occurrences, scope.isBound name = true →
      env.Gives values name) →
    (pattern.Fits values value ↔
      ∃ inner, newPattern.bind value env = some inner ∧
        (∀ name ∈ pattern.occurrences, scope.isBound name = false →
          inner.Gives values name) ∧
        ∀ equation ∈ equations, equation.eval session call inner site =
          .ok (.bool true))

theorem freshen_spec (pattern : Pattern) {supply : NameSupply}
    (reserved : pattern.occurrences ⊆ supply.used)
    (boundReserved : scope.BindsAmong supply.used) :
    (pattern.freshen scope).Ensures supply fun result later =>
      Freshened scope pattern supply result.1 result.2 later := by
  refine .bind ((freshenFrom_names pattern reserved).and
    ((freshenFrom_matches pattern [] supply).and
      (freshenFrom_restores pattern [] supply))) ?_
  intro result later _ found
  obtain ⟨newPattern, seen, equations⟩ := result
  obtain ⟨names, bindable, _, areEquations, restores⟩ := found
  dsimp only at names areEquations bindable restores ⊢
  have seenIff : ∀ name, name ∈ seen ↔ name ∈ pattern.occurrences ∧
    scope.isBound name = false := by
    simpa using names.seen
  have unbound : ∀ name ∈ newPattern.occurrences, scope.isBound name =
    false := by
    intro name member
    rcases names.new name member with fresh | ⟨isUnbound, _⟩
    · rw [← Bool.not_eq_true]
      exact fun isBound => fresh (boundReserved name isBound)
    · exact isUnbound
  refine .pure
    ⟨names.reserved, areEquations, names.distinct, unbound, ?_, ?_, ?_⟩
  · intro name member
    exact (names.new name member).imp_right fun ⟨_, _, isSeen⟩ =>
      ((seenIff name).mp isSeen).1
  · intro name member isUnbound
    have kept := names.kept name ((seenIff name).mpr ⟨member, isUnbound⟩)
    simpa using kept
  intro session call site values value env given
  have fitsIff (inner : Env) (binds : newPattern.bind value env = some inner) :
      pattern.Fits values value ↔
        (∀ equation ∈ equations, equation.eval session call inner site =
          .ok (.bool true)) ∧ ∀ name ∈ seen, inner.Gives values name := by
    refine restores session call site value inner
      (readIn_of_bind names.distinct binds) values ?_
      nofun
    intro name member isBound
    have absent : name ∉ newPattern.occurrences := by
      intro occurs
      rw [unbound name occurs] at isBound
      cases isBound
    obtain ⟨other, lookedUp, alike⟩ := given name member isBound
    exact ⟨other, (lookup_of_bind binds absent).trans lookedUp, alike⟩
  constructor
  · intro fits
    obtain ⟨inner, binds⟩ := bindable values value env fits
    obtain ⟨hold, gives⟩ := (fitsIff inner binds).mp fits
    exact ⟨inner, binds, fun name member isUnbound =>
      gives name ((seenIff name).mpr ⟨member, isUnbound⟩), hold⟩
  · intro found
    obtain ⟨inner, binds, gives, hold⟩ := found
    refine (fitsIff inner binds).mpr ⟨hold, fun name isSeen => ?_⟩
    obtain ⟨member, isUnbound⟩ := (seenIff name).mp isSeen
    exact gives name member isUnbound

end Equations

end Pattern

end RecursiveQuery
