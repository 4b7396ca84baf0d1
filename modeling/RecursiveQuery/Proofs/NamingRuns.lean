import RecursiveQuery.Proofs.FreshNames
import RecursiveQuery.Substitution

/-!
# Properties of runs that draw names

Drawing names only adds to the reserved ones.  A property of what a computation
returns is put together from its parts, each of which starts from a supply that
still reserves all names reserved before.
-/

namespace RecursiveQuery

namespace Naming

variable {α β : Type}

/-- A run from a supply keeps all reserved names, and what it returns and the
supply it leaves have a property. -/
def Ensures (run : Naming α) (supply : NameSupply)
    (holds : α → NameSupply → Prop) : Prop :=
  supply.used ⊆ (run.run supply).2.used ∧
    holds (run.run supply).1 (run.run supply).2

namespace Ensures

variable {run : Naming α} {next : α → Naming β} {supply : NameSupply}
  {holds expected : α → NameSupply → Prop} {last : β → NameSupply → Prop}

theorem pure {value : α} (here : holds value supply) :
    Ensures (Pure.pure value) supply holds :=
  ⟨List.Subset.refl _, here⟩

theorem bind (first : Ensures run supply holds)
    (rest : ∀ value later, supply.used ⊆ later.used → holds value later →
      Ensures (next value) later last) :
    Ensures (run >>= next) supply last := by
  obtain ⟨grown, here⟩ := first
  obtain ⟨grownLater, there⟩ := rest _ _ grown here
  exact ⟨List.Subset.trans grown grownLater, there⟩

theorem and (first : Ensures run supply holds)
    (second : Ensures run supply expected) :
    Ensures run supply fun value later => holds value later ∧
      expected value later :=
  ⟨first.1, first.2, second.2⟩

theorem mono (first : Ensures run supply holds)
    (weaker : ∀ value later, supply.used ⊆ later.used → holds value later →
      expected value later) :
    Ensures run supply expected :=
  ⟨first.1, weaker _ _ first.1 first.2⟩

theorem of_run {value : α} {later : NameSupply}
    (ensured : Ensures run supply holds)
    (ran : run.run supply = (value, later)) :
    supply.used ⊆ later.used ∧ holds value later := by
  rwa [Ensures, ran] at ensured

theorem fresh {base : Name} {holds : Name → NameSupply → Prop}
    (here : holds (supply.freshName base)
      (supply.reserve (supply.freshName base))) :
    Ensures (NameSupply.fresh base) supply holds :=
  ⟨List.subset_cons_self _ _, here⟩

/-- An acquired name is the wanted one or a fresh one. -/
theorem acquire {base : Name} {holds : Name → NameSupply → Prop}
    (wanted : base ∉ supply.used → holds base (supply.reserve base))
    (other : holds (supply.freshName base)
      (supply.reserve (supply.freshName base))) :
    Ensures (NameSupply.acquire base) supply holds := by
  unfold Ensures
  rw [NameSupply.acquire_run]
  by_cases taken : supply.isReserved base = true
  · rw [if_pos taken]
    exact fresh other
  · rw [if_neg taken]
    refine ⟨List.subset_cons_self _ _, wanted ?_⟩
    intro member
    exact taken ((supply.isReserved_iff base).mpr member)

/-- What a run ensures includes that it keeps reserved names. -/
theorem keeps (ensured : Ensures run supply holds) :
    Ensures run supply fun value later => supply.used ⊆ later.used ∧
      holds value later :=
  ⟨ensured.1, ensured⟩

end Ensures

end Naming

namespace Naming

variable {α β : Type} {run : Naming α} {next other : α → Naming β}
  {holds : α → Prop}

/-- Whatever names are taken, a computation returns a value with a property. -/
def Returns (run : Naming α) (holds : α → Prop) : Prop :=
  ∀ supply, holds (run.run supply).1

theorem Returns.of_ensures
    (ensured : ∀ supply, run.Ensures supply fun value _ => holds value) :
    run.Returns holds :=
  fun supply => (ensured supply).2

theorem Returns.bind {last : β → Prop} (first : run.Returns holds)
    (rest : ∀ value, holds value → (next value).Returns last) :
    (run >>= next).Returns last := by
  intro supply
  exact rest _ (first supply) _

/-- Continuations may differ where the computation does not return. -/
theorem Returns.bind_congr (returns : run.Returns holds)
    (same : ∀ value, holds value → next value = other value) :
    run >>= next = run >>= other := by
  funext supply
  exact congrFun (same _ (returns supply)) (run.run supply).2

end Naming

theorem NameSupply.fresh_spec (base : Name) (supply : NameSupply) :
    (fresh base).Ensures supply fun name later => name ∉ supply.used ∧
    name ∈ later.used :=
  .fresh ⟨supply.freshName_not_mem base, List.mem_cons_self⟩

theorem NameSupply.acquire_spec (supply : NameSupply) (base : Name) :
    (acquire base).Ensures supply fun name later => name ∉ supply.used ∧
    name ∈ later.used :=
  .acquire (fun new => ⟨new, List.mem_cons_self⟩)
    ⟨supply.freshName_not_mem base, List.mem_cons_self⟩

namespace Naming

/-- Names are refreshed in order, each by a name that was free. -/
theorem refresh_spec (names : List Name) (supply : NameSupply) :
    (refresh names).Ensures supply fun renames later =>
      renames.map Prod.fst = names ∧
        ∀ rename ∈ renames, rename.2 ∉ supply.used ∧ rename.2 ∈ later.used := by
  induction names generalizing supply with
  | nil => exact .pure (by simp)
  | cons name names induction =>
      refine .bind (NameSupply.fresh_spec name supply) ?_
      intro target later grown ⟨new, reserved⟩
      refine .bind (induction later).keeps ?_
      rintro renames last _ ⟨grownLast, rfl, targets⟩
      refine .pure
        ⟨rfl, List.forall_mem_cons.mpr ⟨⟨new, grownLast reserved⟩, ?_⟩⟩
      intro rename member
      exact ⟨fun used => (targets rename member).1 (grown used),
        (targets rename member).2⟩

end Naming

end RecursiveQuery
