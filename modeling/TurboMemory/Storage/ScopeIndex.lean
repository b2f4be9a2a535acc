import TurboMemory.Lib.Postings
import TurboMemory.Storage.Record

/-!
# The scope index

A record's scope is an optional namespace tag: records without one are global, the others are
private to their scope. A scoped search sees the records of its scope and the global ones.

## Main results

* `ScopeIndex.Holds.add`, `ScopeIndex.Holds.remove` — both operations keep that the index holds
  each record under exactly its scope.
* `ScopeIndex.Holds.eq` — indexes that hold the same records are equal.
-/

set_option autoImplicit false

namespace TurboMemory

open Function

/-- Offsets by memory scope. -/
structure ScopeIndex where
  /-- Scope name to the offsets with that exact scope. -/
  byScope : Postings String := ∅
  /-- Offsets without a scope. -/
  global : Bitmap := ∅

namespace ScopeIndex

variable (idx : ScopeIndex)

/-- Index an offset under its scope. -/
def add (offset : PointOffset) (scope : Option String) : ScopeIndex :=
  match scope with
  | some s => { idx with byScope := idx.byScope.add s (bmOffset offset) }
  | none => { idx with global := insert (bmOffset offset) idx.global }

/-- Remove an offset from the scope it was indexed under. -/
def remove (offset : PointOffset) (scope : Option String) : ScopeIndex :=
  match scope with
  | some s => { idx with byScope := idx.byScope.remove s (bmOffset offset) }
  | none => { idx with global := idx.global.erase (bmOffset offset) }

/-- The offsets a search in a scope may see. -/
def query : Option String → Bitmap
  | none => ∅
  | some s => idx.global ∪ idx.byScope.at s

/-- Every scope that holds at least one record, sorted. -/
def scopes : List String := idx.byScope.keys

/-! ## What is indexed -/

/-- Every record is held under exactly its scope; `scopes` has the scopes of all records. -/
structure Holds (idx : ScopeIndex) (scopes : PointOffset → Option (Option String)) : Prop where
  bound : ∀ o scope, scopes o = some scope → o < 2 ^ 32
  global : ∀ d, d ∈ idx.global ↔ scopes d = some none
  byScope : ∀ d s, d ∈ idx.byScope.at s ↔ scopes d = some (some s)
  tight : idx.byScope.Tight

variable {idx idx' : ScopeIndex} {scopes : PointOffset → Option (Option String)} {o : PointOffset}
  {scope : Option String}

/-- An empty index holds no record. -/
lemma holds_empty : ({} : ScopeIndex).Holds fun _ => none where
  bound _ _ h := by cases h
  global d := by simp
  byScope d s := by simp
  tight := Postings.tight_empty

section

variable (h : idx.Holds scopes)
include h

/-- A record is indexed under its scope. -/
lemma Holds.add (hfresh : scopes o = none) (hbound : o < 2 ^ 32)
    (scope : Option String) : (idx.add o scope).Holds (update scopes o (some scope)) := by
  have hbm : bmOffset o = o := Nat.mod_eq_of_lt hbound
  have hbounds := lt_of_update h.bound hbound (some scope)
  cases scope with
  | none =>
    refine ⟨hbounds, fun d => ?_, fun d s => ?_, h.tight⟩
    · show d ∈ insert (bmOffset o) idx.global ↔ _
      rw [Finset.mem_insert, h.global, hbm]
      by_cases heq : d = o <;> simp [heq]
    · show d ∈ idx.byScope.at s ↔ _
      rw [h.byScope]
      by_cases heq : d = o <;> simp [heq, hfresh]
  | some t =>
    refine ⟨hbounds, fun d => ?_, fun d s => ?_, h.tight.add t _⟩
    · show d ∈ idx.global ↔ _
      rw [h.global]
      by_cases heq : d = o <;> simp [heq, hfresh]
    · show d ∈ (idx.byScope.add t (bmOffset o)).at s ↔ _
      rw [Postings.mem_at_add, h.byScope, hbm]
      by_cases heq : d = o <;> simp [heq, hfresh]

/-- A record is dropped from the scope it was indexed under, if it was indexed at all. -/
lemma Holds.drop (hadded : ∀ s, scopes o = some s → s = scope) (hbound : o < 2 ^ 32) :
    (idx.remove o scope).Holds (update scopes o none) := by
  have hbm : bmOffset o = o := Nat.mod_eq_of_lt hbound
  have hbounds := lt_of_update h.bound hbound none
  have hother : ∀ s, s ≠ scope → scopes o ≠ some s := fun s hne hs => hne (hadded s hs)
  cases scope with
  | none =>
    refine ⟨hbounds, fun d => ?_, fun d s => ?_, h.tight⟩
    · show d ∈ idx.global.erase (bmOffset o) ↔ _
      rw [Finset.mem_erase, h.global, hbm]
      by_cases heq : d = o <;> simp [heq]
    · show d ∈ idx.byScope.at s ↔ _
      rw [h.byScope]
      by_cases heq : d = o <;> simp [heq, hother]
  | some t =>
    refine ⟨hbounds, fun d => ?_, fun d s => ?_, h.tight.remove t _⟩
    · show d ∈ idx.global ↔ _
      rw [h.global]
      by_cases heq : d = o <;> simp [heq, hother]
    · show d ∈ (idx.byScope.remove t (bmOffset o)).at s ↔ _
      rw [Postings.mem_at_remove, h.byScope, hbm]
      by_cases heq : d = o
      · subst heq
        simp only [update_self, reduceCtorEq, iff_false, not_and]
        exact fun hne => hother (some s) (by simpa [eq_comm] using hne)
      · simp [heq]

/-- A record is dropped from the scope it was indexed under. -/
lemma Holds.remove (hadded : scopes o = some scope) :
    (idx.remove o scope).Holds (update scopes o none) :=
  h.drop (fun _ hs => Option.some.inj (hs.symm.trans hadded)) (h.bound o scope hadded)

/-- Indexes that hold the same records are equal. -/
lemma Holds.eq (h' : idx'.Holds scopes) : idx = idx' := by
  have hglobal : idx.global = idx'.global := by
    ext d
    rw [h.global, h'.global]
  have hscope : idx.byScope = idx'.byScope := by
    refine h.tight.ext h'.tight fun s => ?_
    ext d
    rw [h.byScope, h'.byScope]
  cases idx
  cases idx'
  cases hglobal
  cases hscope
  rfl

end

end ScopeIndex

end TurboMemory
