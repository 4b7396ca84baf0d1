import Mathlib.Data.List.Nodup
import RecursiveQuery.NameSupply

/-!
# Fresh names are new

The candidates of one stem are pairwise different, so a supply with `n`
reserved names leaves one of `n + 1` candidates free.  A drawn name is therefore
never a reserved one, and it is reserved from then on.
-/

namespace RecursiveQuery

namespace Naming

variable {α β : Type}

theorem run_pure (value : α) (supply : NameSupply) :
    (pure value : Naming α).run supply = (value, supply) :=
  rfl

theorem run_bind (first : Naming α) (next : α → Naming β)
    (supply : NameSupply) : (first >>= next).run supply =
      (next (first.run supply).1).run (first.run supply).2 :=
  rfl

end Naming

namespace Name

theorem indexed_injective (stem : Name) :
    Function.Injective stem.indexed := by
  intro left right equality
  have characters : stem.toList ++ '_' :: Nat.toDigits 10 left =
      stem.toList ++ '_' :: Nat.toDigits 10 right :=
    String.ofList_injective equality
  have digits : Nat.toDigits 10 left = Nat.toDigits 10 right := by
    simpa using characters
  have values := congrArg (fun chars => Nat.ofDigitChars 10 chars 0) digits
  simpa using values

end Name

namespace NameSupply

theorem isReserved_iff (supply : NameSupply) (name : Name) :
    supply.isReserved name = true ↔ name ∈ supply.used := by
  simp [isReserved]

/-- The search passes reserved candidates only, and it stops at a reserved one
only if no tries are left. -/
theorem firstFree_passes (supply : NameSupply) (stem : Name)
    (tries index : Nat) :
    ∃ offset, offset ≤ tries ∧
      supply.firstFree stem tries index = stem.indexed (index + offset) ∧
      (∀ passed, passed < offset →
        stem.indexed (index + passed) ∈ supply.used) ∧
      (stem.indexed (index + offset) ∈ supply.used → offset = tries) := by
  induction tries generalizing index with
  | zero =>
      exact ⟨0, Nat.le_refl _, rfl,
        fun _ before => absurd before (Nat.not_lt_zero _), fun _ => rfl⟩
  | succ tries induction =>
      by_cases taken : supply.isReserved (stem.indexed index) = true
      · obtain ⟨offset, bound, found, passes, last⟩ := induction (index + 1)
        rw [Nat.add_assoc, Nat.add_comm 1] at found last
        refine ⟨offset + 1, Nat.succ_le_succ bound, ?_, ?_,
          fun reserved => congrArg _ (last reserved)⟩
        · rw [firstFree, if_pos taken, found]
        · intro passed before
          cases passed with
          | zero => exact (supply.isReserved_iff _).mp taken
          | succ passed =>
              have later := passes passed (Nat.lt_of_succ_lt_succ before)
              rwa [Nat.add_assoc, Nat.add_comm 1] at later
      · refine ⟨0, Nat.zero_le _, ?_,
          fun _ before => absurd before (Nat.not_lt_zero _), ?_⟩
        · rw [firstFree, if_neg taken, Nat.add_zero]
        · intro reserved
          exact absurd ((supply.isReserved_iff _).mpr reserved) taken

theorem freshName_not_mem (supply : NameSupply) (base : Name) :
    supply.freshName base ∉ supply.used := by
  intro reserved
  obtain ⟨offset, _, found, passes, last⟩ :=
    supply.firstFree_passes base.stem supply.used.length 1
  rw [freshName, found] at reserved
  let names := (List.range (supply.used.length + 1)).map
    fun offset => base.stem.indexed (1 + offset)
  have distinct : names.Nodup := by
    refine List.Nodup.map ?_ List.nodup_range
    intro left right equality
    exact Nat.add_left_cancel (base.stem.indexed_injective equality)
  have included : names ⊆ supply.used := by
    intro name member
    obtain ⟨passed, inRange, rfl⟩ := List.mem_map.mp member
    rw [List.mem_range, ← last reserved] at inRange
    rcases Nat.lt_succ_iff_lt_or_eq.mp inRange with before | rfl
    · exact passes passed before
    · exact reserved
  have bound := distinct.length_le_of_subset included
  simp only [names, List.length_map, List.length_range] at bound
  omega

@[simp] theorem used_reserve (supply : NameSupply) (name : Name) :
    (supply.reserve name).used = name :: supply.used :=
  rfl

theorem fresh_run (base : Name) (supply : NameSupply) :
    (fresh base).run supply =
      (supply.freshName base, supply.reserve (supply.freshName base)) :=
  rfl

theorem acquire_run (base : Name) (supply : NameSupply) :
    (acquire base).run supply =
      if supply.isReserved base then (fresh base).run supply
      else (base, supply.reserve base) := by
  unfold acquire
  rw [Naming.run_bind]
  change StateT.run (if supply.isReserved base = true then _ else _) supply = _
  split <;> rfl

/-- Acquiring a name reserves a name that was free. -/
theorem exists_acquire_run (base : Name) (supply : NameSupply) :
    ∃ name, name ∉ supply.used ∧
      (acquire base).run supply = (name, supply.reserve name) := by
  rw [acquire_run]
  by_cases taken : supply.isReserved base = true
  · rw [if_pos taken]
    exact ⟨_, supply.freshName_not_mem base, fresh_run base supply⟩
  · rw [if_neg taken]
    refine ⟨base, ?_, rfl⟩
    intro member
    exact taken ((supply.isReserved_iff base).mpr member)

end NameSupply

end RecursiveQuery
