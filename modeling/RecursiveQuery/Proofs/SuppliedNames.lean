import Mathlib.Data.List.TakeWhile
import RecursiveQuery.Proofs.FreshNames

/-!
# Sequences of requests for names

A supply serves requests one after another.  What it remembers is, up to order,
what it started with, what was reserved and what was returned.  Each name that
it returns is therefore new, and a fresh name has the least index that none of
these names has.
-/

namespace RecursiveQuery

variable {name : Name}

namespace Name

/-- A name is some stem with an underscore and digits behind it. -/
def IsIndexed (name stem : Name) : Prop :=
  stem ≠ "" ∧ ∃ digits : List Char, digits ≠ [] ∧
    (∀ digit ∈ digits, digit.isDigit = true) ∧
    name.toList = stem.toList ++ '_' :: digits

/-- The stem of a name: what the digits of its index stand behind, or the name
itself if it has no index. -/
def HasStem (name stem : Name) : Prop :=
  name.IsIndexed stem ∨ stem = name ∧ ∀ other, ¬ name.IsIndexed other

theorem stem_of_isIndexed {stem : Name} (indexed : name.IsIndexed stem) :
    name.stem = stem := by
  obtain ⟨nonempty, digits, some, areDigits, letters⟩ := indexed
  have reversed : name.toList.reverse =
    digits.reverse ++ '_' :: stem.toList.reverse := by
    simp [letters]
  have taken : name.toList.reverse.takeWhile Char.isDigit = digits.reverse := by
    rw [reversed, List.takeWhile_append_of_pos (by simpa using areDigits)]
    simp
  have dropped : name.toList.reverse.dropWhile Char.isDigit =
    '_' :: stem.toList.reverse := by
    rw [reversed, List.dropWhile_append_of_pos (by simpa using areDigits)]
    simp
  obtain ⟨digit, others, isDigits⟩ :=
    List.exists_cons_of_ne_nil (List.reverse_ne_nil_iff.mpr some)
  obtain ⟨char, rest, isStem⟩ := List.exists_cons_of_ne_nil
    (List.reverse_ne_nil_iff.mpr fun empty =>
      nonempty (String.toList_eq_nil_iff.mp empty))
  rw [Name.stem, taken, dropped, isDigits, isStem]
  change String.ofList (char :: rest).reverse = stem
  rw [← isStem, List.reverse_reverse, String.ofList_toList]

theorem isIndexed_stem_or_eq (name : Name) :
    name.IsIndexed name.stem ∨ name.stem = name := by
  rw [Name.stem]
  split
  · next digit others char rest taken dropped =>
      refine .inl ⟨by simp, (digit :: others).reverse, by simp, ?_, ?_⟩
      · intro found member
        rw [← taken, List.mem_reverse] at member
        exact List.mem_takeWhile_imp member
      · have whole :=
          @List.takeWhile_append_dropWhile _ Char.isDigit name.toList.reverse
        rw [taken, dropped] at whole
        rw [← List.reverse_reverse name.toList, ← whole]
        simp
  · exact .inr rfl

theorem hasStem_stem (name : Name) : name.HasStem name.stem := by
  by_cases indexed : ∃ other, name.IsIndexed other
  · obtain ⟨other, isIndexed⟩ := indexed
    rw [stem_of_isIndexed isIndexed]
    exact .inl isIndexed
  · have none : ∀ other, ¬ name.IsIndexed other :=
      fun other found => indexed ⟨other, found⟩
    exact .inr ⟨(isIndexed_stem_or_eq name).resolve_left (none _), none⟩

end Name

namespace NameSupply

/-- A name is the candidate for a given name with the least index that is not
taken.  The candidates up to it are tried, at most one more than there are taken
names. -/
def IsLeastFree (taken : List Name) (base name : Name) : Prop :=
  ∃ stem index, base.HasStem stem ∧ name = stem.indexed index ∧ name ∉ taken ∧
    1 ≤ index ∧ index ≤ taken.length + 1 ∧
    ∀ smaller, 1 ≤ smaller → smaller < index → stem.indexed smaller ∈ taken

theorem freshName_isLeastFree (supply : NameSupply) (base : Name) :
    IsLeastFree supply.used base (supply.freshName base) := by
  obtain ⟨offset, bound, found, passes, _⟩ :=
    supply.firstFree_passes base.stem supply.used.length 1
  refine ⟨base.stem, 1 + offset, base.hasStem_stem, found,
    supply.freshName_not_mem base, Nat.le_add_right _ _, by omega, ?_⟩
  intro smaller positive before
  obtain ⟨passed, rfl⟩ := Nat.exists_eq_add_of_le positive
  exact passes passed (Nat.lt_of_add_lt_add_left before)

theorem IsLeastFree.of_perm {taken others : List Name} {base : Name}
    (same : taken.Perm others) (least : IsLeastFree taken base name) :
    IsLeastFree others base name := by
  obtain ⟨stem, index, hasStem, isCandidate, free, positive, bound, passes⟩ :=
    least
  refine ⟨stem, index, hasStem, isCandidate, mt same.mem_iff.mpr free,
    positive, ?_, ?_⟩
  · rwa [← same.length_eq]
  · intro smaller positive before
    exact same.mem_iff.mp (passes smaller positive before)

end NameSupply

/-- What can be asked of a supply. -/
inductive NameRequest where
  | reserve (name : Name)
  | fresh (base : Name)
  | acquire (base : Name)

namespace NameRequest

/-- Serve a request; a mere reservation returns no name. -/
def serve : NameRequest → Naming (Option Name)
  | reserve name => do
      modify (·.reserve name)
      return none
  | fresh base => return some (← NameSupply.fresh base)
  | acquire base => return some (← NameSupply.acquire base)

/-- Serve requests in order and return all names that they return. -/
def serveAll : List NameRequest → Naming (List Name)
  | [] => return []
  | request :: requests => do
      let answer ← request.serve
      return answer.toList ++ (← serveAll requests)

def reserved? : NameRequest → Option Name
  | reserve name => some name
  | _ => none

/-- The names that are taken after some requests to a supply with initial names:
these, the names that were reserved and the names that were returned. -/
def taken (initial : List Name) (requests : List NameRequest) : List Name :=
  initial ++ (requests.filterMap reserved? ++
    ((serveAll requests).run (.reserving initial)).1)

theorem serve_fresh_run (base : Name) (supply : NameSupply) :
    (serve (.fresh base)).run supply =
      (some (supply.freshName base), supply.reserve (supply.freshName base)) :=
  rfl

theorem serve_acquire_run (base : Name) (supply : NameSupply) :
    (serve (.acquire base)).run supply =
      if supply.isReserved base then (serve (.fresh base)).run supply
      else (some base, supply.reserve base) := by
  change (some ((NameSupply.acquire base).run supply).1,
    ((NameSupply.acquire base).run supply).2) = _
  rw [NameSupply.acquire_run]
  split <;> rfl

/-- One request adds the name that it reserves or returns. -/
theorem serve_used (request : NameRequest) (supply : NameSupply) :
    (request.serve.run supply).2.used =
      (request.reserved?.toList ++ (request.serve.run supply).1.toList) ++
        supply.used := by
  cases request with
  | reserve name => rfl
  | fresh base => rfl
  | acquire base =>
      rw [serve_acquire_run]
      split <;> rfl

theorem serveAll_cons_run (request : NameRequest) (requests : List NameRequest)
    (supply : NameSupply) :
    (serveAll (request :: requests)).run supply =
      ((request.serve.run supply).1.toList ++
          ((serveAll requests).run (request.serve.run supply).2).1,
        ((serveAll requests).run (request.serve.run supply).2).2) :=
  rfl

/-- A run remembers what it started with, what was reserved and what was
returned. -/
theorem serveAll_used (requests : List NameRequest) (supply : NameSupply) :
    ((serveAll requests).run supply).2.used.Perm
      (supply.used ++ (requests.filterMap reserved? ++
        ((serveAll requests).run supply).1)) := by
  induction requests generalizing supply with
  | nil =>
      rw [List.filterMap_nil, List.nil_append]
      exact List.Perm.of_eq (List.append_nil _).symm
  | cons request requests induction =>
      have later := induction (request.serve.run supply).2
      rw [serve_used] at later
      have split : (request :: requests).filterMap reserved? =
          request.reserved?.toList ++ requests.filterMap reserved? := by
        cases found : request.reserved? <;> simp [found]
      rw [serveAll_cons_run, split]
      -- reserved and returned names come in turn, but are listed apart
      refine later.trans (List.perm_iff_count.mpr fun name => ?_)
      simp only [List.count_append]
      omega

theorem serveAll_append_run (before after : List NameRequest)
    (supply : NameSupply) : ((serveAll (before ++ after)).run supply).2 =
      ((serveAll after).run ((serveAll before).run supply).2).2 := by
  induction before generalizing supply with
  | nil => rfl
  | cons request before induction =>
      exact induction (request.serve.run supply).2

/-- What a request returns behind others and in front of others: a name that was
not taken and that is reserved from then on. -/
structure Serves (initial : List Name) (before : List NameRequest)
    (request : NameRequest) (after : List NameRequest) (name : Name) :
    Prop where
  answer : (request.serve.run
    ((serveAll before).run (.reserving initial)).2).1 = some name
  new : name ∉ taken initial before
  reserved : ((serveAll (before ++ request :: after)).run
    (.reserving initial)).2.isReserved name = true

theorem reserved_of_answer {request : NameRequest}
    {before after : List NameRequest} {supply : NameSupply}
    (answer : (request.serve.run ((serveAll before).run supply).2).1 =
      some name) :
    ((serveAll (before ++ request :: after)).run supply).2.isReserved name =
    true := by
  rw [NameSupply.isReserved_iff, serveAll_append_run, serveAll_cons_run]
  refine (serveAll_used after _).mem_iff.mpr (List.mem_append_left _ ?_)
  rw [serve_used, answer]
  simp

/-- Whatever was asked of a supply before, a fresh name is found, and it has the
least index that is free; an acquired name is the wanted one unless that is
taken.  Neither was reserved or returned before, and both are reserved from then
on. -/
theorem supply_never_repeats_names (initial : List Name)
    (before after : List NameRequest) (base : Name) :
    (∃ name, Serves initial before (.fresh base) after name ∧
      NameSupply.IsLeastFree (taken initial before) base name) ∧
    ∃ name, Serves initial before (.acquire base) after name ∧
      (base ∉ taken initial before ∧ name = base ∨
        base ∈ taken initial before ∧
          NameSupply.IsLeastFree (taken initial before) base name) := by
  have remembered := serveAll_used before (.reserving initial)
  generalize supplied : ((serveAll before).run (.reserving initial)).2 =
    supply at remembered
  have least := (supply.freshName_isLeastFree base).of_perm remembered
  have new : supply.freshName base ∉ taken initial before :=
    mt remembered.mem_iff.mpr (supply.freshName_not_mem base)
  constructor
  · have answer : ((serve (.fresh base)).run
      ((serveAll before).run (.reserving initial)).2).1 =
        some (supply.freshName base) := by
      rw [supplied, serve_fresh_run]
    exact ⟨supply.freshName base,
      ⟨answer, new, reserved_of_answer answer⟩, least⟩
  · by_cases isTaken : supply.isReserved base = true
    · have answer : ((serve (.acquire base)).run
        ((serveAll before).run (.reserving initial)).2).1 =
          some (supply.freshName base) := by
        rw [supplied, serve_acquire_run, if_pos isTaken, serve_fresh_run]
      refine ⟨supply.freshName base, ⟨answer, new, reserved_of_answer answer⟩,
        .inr ⟨?_, least⟩⟩
      exact remembered.mem_iff.mp ((supply.isReserved_iff base).mp isTaken)
    · have answer : ((serve (.acquire base)).run
        ((serveAll before).run (.reserving initial)).2).1 = some base := by
        rw [supplied, serve_acquire_run, if_neg isTaken]
      have free : base ∉ taken initial before := fun member =>
        isTaken
          ((supply.isReserved_iff base).mpr (remembered.mem_iff.mpr member))
      exact ⟨base, ⟨answer, free, reserved_of_answer answer⟩, .inl ⟨free, rfl⟩⟩

-- `z`, `z_2` and `z_07` share a stem, while the stem of `_1` is the name
-- itself.
example :
    ((serveAll
      [.fresh "z", .reserve "z_4", .fresh "z_2", .acquire "w", .acquire "w",
      .fresh "z_07", .fresh "_1"]).run (.reserving ["z", "z_1"])).1 =
        ["z_2", "z_3", "w", "w_1", "z_5", "_1_1"] := by
  decide +kernel

end NameRequest

end RecursiveQuery
