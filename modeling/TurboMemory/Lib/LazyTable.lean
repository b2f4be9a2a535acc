import Mathlib.Data.Finset.Basic
import Std.Data.ExtTreeMap

/-!
# Tables that are saved lazily

A table in memory, the keys that changed since it was last saved, and the saved table, in which a
value is stored in an encoded form. Saving writes only the keys that changed. Values are compared
by a relation `same`, which is equality for most types; a float may be replaced by another one
that compares equal to it.

## Main results

* `LazyTable.Covers.insert`, `LazyTable.Covers.erase`, `LazyTable.Covers.keep` — that the changed
  keys cover every difference is kept by changes that mark their key, and by one that replaces a
  value by a like one.
-/

set_option autoImplicit false

/-- A table in memory over a saved one. -/
structure LazyTable (V B : Type) where
  memory : Std.ExtTreeMap ℕ V := ∅
  /-- The keys that changed since the last save. -/
  dirty : List ℕ := []
  saved : Std.ExtTreeMap ℕ B := ∅

namespace LazyTable

open Std (ExtTreeMap)

variable {V B : Type}

variable (t : LazyTable V B)

/-- Set a value. -/
def insert (k : ℕ) (v : V) : LazyTable V B :=
  { t with memory := t.memory.insert k v, dirty := t.dirty.insert k }

/-- Drop a value. -/
def erase (k : ℕ) : LazyTable V B :=
  { t with memory := t.memory.erase k, dirty := t.dirty.insert k }

/-- Drop a value, if there is one. -/
def eraseIfPresent (k : ℕ) : LazyTable V B :=
  if k ∈ t.memory then t.erase k else t

/-- Set a value without marking the key. -/
def keep (k : ℕ) (v : V) : LazyTable V B :=
  { t with memory := t.memory.insert k v }

/-- The saved table with the changed keys brought up to date. -/
def save (encode : V → B) (t : LazyTable V B) : Std.ExtTreeMap ℕ B :=
  t.dirty.foldl (fun table k =>
    match t.memory[k]? with
    | some v => table.insert k (encode v)
    | none => table.erase k) t.saved

/-- Save the changed keys. -/
def flush (encode : V → B) (t : LazyTable V B) : LazyTable V B :=
  { t with dirty := [], saved := t.save encode }

/-- Saving what is read, or reading what is saved. -/
lemma filterMap_save {encode : V → B} {decode : B → Option V}
    (hread : ∀ v, decode (encode v) = some v) (t : LazyTable V B) :
    (t.save encode).filterMap (fun _ => decode) =
      save id ⟨t.memory, t.dirty, t.saved.filterMap fun _ => decode⟩ := by
  obtain ⟨memory, dirty, saved⟩ := t
  unfold save
  induction dirty generalizing saved with
  | nil => rfl
  | cons k dirty ih =>
    rw [List.foldl_cons, List.foldl_cons, ih]
    congr 1
    refine ExtTreeMap.ext_getElem? fun k' => ?_
    dsimp only
    cases memory[k]? with
    | none =>
      simp only [ExtTreeMap.getElem?_filterMap', ExtTreeMap.getElem?_erase]
      split <;> rfl
    | some v =>
      simp only [ExtTreeMap.getElem?_filterMap', ExtTreeMap.getElem?_insert]
      split
      · exact hread v
      · rfl

/-- Read a saved table; a value that cannot be read is an error. -/
def load (decode : B → Option V) (saved : ExtTreeMap ℕ B) : Option (ExtTreeMap ℕ V) :=
  if saved.toList.all fun p => (decode p.2).isSome then some (saved.filterMap fun _ b => decode b)
  else none

/-- A table that was just read. -/
def «open» (decode : B → Option V) (saved : Std.ExtTreeMap ℕ B) : Option (LazyTable V B) :=
  (load decode saved).map fun memory => ⟨memory, [], saved⟩

/-! ## The invariant -/

variable (decode : B → Option V) (same : V → V → Prop)

/-- A saved value reads back as one like the value in memory. -/
def Agrees : Option B → Option V → Prop
  | none, none => True
  | some b, some v => ∃ v', decode b = some v' ∧ same v' v
  | _, _ => False

/-- Wherever the saved table does not agree with memory, the key is marked. -/
def Covers (t : LazyTable V B) : Prop :=
  ∀ k : ℕ, k ∉ t.dirty → Agrees decode same t.saved[k]? t.memory[k]?

variable {decode same} {t : LazyTable V B} {encode : V → B}

section

variable (h : t.Covers decode same)
include h

/-- An insertion marks its key. -/
lemma Covers.insert (k : ℕ) (v : V) : (t.insert k v).Covers decode same := by
  intro k' hk'
  have hne : k' ≠ k ∧ k' ∉ t.dirty := by simpa [LazyTable.insert, not_or] using hk'
  show Agrees decode same t.saved[k']? (t.memory.insert k v)[k']?
  rw [Std.ExtTreeMap.getElem?_insert, if_neg (by simpa using hne.1.symm)]
  exact h k' hne.2

/-- A removal marks its key. -/
lemma Covers.erase (k : ℕ) : (t.erase k).Covers decode same := by
  intro k' hk'
  have hne : k' ≠ k ∧ k' ∉ t.dirty := by simpa [LazyTable.erase, not_or] using hk'
  show Agrees decode same t.saved[k']? (t.memory.erase k)[k']?
  rw [Std.ExtTreeMap.getElem?_erase, if_neg (by simpa using hne.1.symm)]
  exact h k' hne.2

/-- A removal that marks its key if it was there. -/
lemma Covers.eraseIfPresent (k : ℕ) : (t.eraseIfPresent k).Covers decode same := by
  unfold LazyTable.eraseIfPresent
  split
  · exact h.erase k
  · exact h

/-- Replacing a value by a like one needs no mark. -/
lemma Covers.keep {k : ℕ} {old new : V}
    (htrans : ∀ v, same v old → same v new) (hold : t.memory[k]? = some old) :
    (t.keep k new).Covers decode same := by
  intro k' hk'
  have hagrees := h k' hk'
  show Agrees decode same t.saved[k']? (t.memory.insert k new)[k']?
  rw [Std.ExtTreeMap.getElem?_insert]
  by_cases hk : k = k'
  · subst hk
    rw [hold] at hagrees
    rw [if_pos (by simp)]
    cases hsaved : t.saved[k]? with
    | none =>
      rw [hsaved] at hagrees
      exact hagrees
    | some b =>
      rw [hsaved] at hagrees
      obtain ⟨v, hv, hsame⟩ := hagrees
      exact ⟨v, hv, htrans v hsame⟩
  · rw [if_neg (by simpa using hk)]
    exact hagrees

end

/-- What is saved at a key: memory at the keys that were marked, unchanged elsewhere. -/
lemma getElem?_save (encode : V → B) (t : LazyTable V B) (k : ℕ) :
    (t.save encode)[k]? = if k ∈ t.dirty then t.memory[k]?.map encode else t.saved[k]? := by
  unfold save
  generalize t.saved = table
  generalize t.dirty = dirty
  induction dirty generalizing table with
  | nil => simp
  | cons d dirty ih =>
    rw [List.foldl_cons, ih]
    by_cases hmem : k ∈ dirty
    · simp [hmem]
    · by_cases hd : d = k
      · subst hd
        cases h : t.memory[d]? <;> simp [hmem]
      · have hne : k ≠ d := Ne.symm hd
        cases h : t.memory[d]? <;>
          simp [hmem, hd, hne, ExtTreeMap.getElem?_insert, ExtTreeMap.getElem?_erase]

section

variable (h : t.Covers decode same) (hcodec : ∀ v, decode (encode v) = some v)
  (hrefl : ∀ v, same v v)
include h hcodec hrefl

/-- After a save the two tables agree everywhere. -/
lemma Covers.agrees_save (k : ℕ) :
    Agrees decode same (t.save encode)[k]? t.memory[k]? := by
  rw [getElem?_save]
  split
  · cases t.memory[k]? with
    | none => trivial
    | some v => exact ⟨v, hcodec v, hrefl v⟩
  · next hk => exact h k hk

/-- Saving leaves no difference. -/
lemma Covers.flush :
    (t.flush encode).Covers decode same :=
  fun k _ => h.agrees_save hcodec hrefl k

end

/-! ## Reading back -/

/-- An entry of the decoded table. -/
lemma getElem?_filterMap_decode (saved : ExtTreeMap ℕ B) (k : ℕ) :
    (saved.filterMap fun _ b => decode b)[k]? = saved[k]?.bind decode := by
  rw [ExtTreeMap.getElem?_filterMap]
  cases saved[k]? <;> rfl

variable {saved : ExtTreeMap ℕ B} {memory : ExtTreeMap ℕ V}

/-- A table all of whose values can be read is read value by value. -/
lemma load_eq_some : load decode saved = some memory ↔
      (∀ (k : ℕ) b, saved[k]? = some b → (decode b).isSome) ∧
        ∀ k : ℕ, memory[k]? = saved[k]?.bind decode := by
  have hall : (saved.toList.all fun p => (decode p.2).isSome) = true ↔
      ∀ (k : ℕ) b, saved[k]? = some b → (decode b).isSome := by
    simp only [List.all_eq_true, Prod.forall, ExtTreeMap.mem_toList_iff_getElem?_eq_some]
  unfold load
  split
  case isTrue h =>
    rw [Option.some.injEq]
    constructor
    · rintro rfl
      exact ⟨hall.mp h, getElem?_filterMap_decode saved⟩
    · rintro ⟨-, hmemory⟩
      exact ExtTreeMap.ext_getElem? fun k =>
        (getElem?_filterMap_decode saved k).trans (hmemory k).symm
  case isFalse h =>
    constructor
    · intro hnone
      cases hnone
    · rintro ⟨hread, -⟩
      exact absurd (hall.mpr hread) h

/-- A table that was just read is covered. -/
lemma covers_open (hrefl : ∀ v, same v v)
    (h : LazyTable.open decode saved = some t) : t.Covers decode same := by
  obtain ⟨memory, hload, rfl⟩ := Option.map_eq_some_iff.mp h
  obtain ⟨hread, hmemory⟩ := load_eq_some.mp hload
  intro k _
  show Agrees decode same saved[k]? memory[k]?
  rw [hmemory k]
  cases hk : saved[k]? with
  | none => trivial
  | some b =>
    obtain ⟨v, hv⟩ := Option.isSome_iff_exists.mp (hread k b hk)
    simp only [Option.bind_some, hv]
    exact ⟨v, hv, hrefl v⟩

/-- Values that are like each other, or both missing. -/
def SameAt (same : V → V → Prop) : Option V → Option V → Prop
  | none, none => True
  | some v, some w => same v w
  | _, _ => False

/-- A saved table that agrees with memory reads back as memory. -/
lemma exists_load_of_agrees (h : ∀ k : ℕ, Agrees decode same saved[k]? memory[k]?) :
    ∃ m, load decode saved = some m ∧ ∀ k : ℕ, SameAt same m[k]? memory[k]? := by
  have hread : ∀ (k : ℕ) b, saved[k]? = some b → (decode b).isSome := by
    intro k b hb
    have hk := h k
    rw [hb] at hk
    cases hm : memory[k]? with
    | none => rw [hm] at hk; cases hk
    | some v =>
      rw [hm] at hk
      obtain ⟨v', hv', -⟩ := hk
      rw [hv']
      rfl
  refine ⟨saved.filterMap fun _ b => decode b,
    load_eq_some.mpr ⟨hread, getElem?_filterMap_decode saved⟩, fun k => ?_⟩
  have hk := h k
  rw [getElem?_filterMap_decode]
  cases hb : saved[k]? with
  | none =>
    rw [hb] at hk
    cases hm : memory[k]? with
    | none => trivial
    | some v => rw [hm] at hk; cases hk
  | some b =>
    rw [hb] at hk
    cases hm : memory[k]? with
    | none => rw [hm] at hk; cases hk
    | some v =>
      rw [hm] at hk
      obtain ⟨v', hv', hsame⟩ := hk
      simp only [Option.bind_some, hv']
      exact hsame

/-- Tables whose values are equal everywhere are equal. -/
lemma eq_of_sameAt {m m' : ExtTreeMap ℕ V} (h : ∀ k : ℕ, SameAt Eq m[k]? m'[k]?) : m = m' := by
  refine ExtTreeMap.ext_getElem? fun k => ?_
  have hk := h k
  revert hk
  cases m[k]? with
  | none =>
    cases m'[k]? with
    | none => exact fun _ => rfl
    | some v => exact False.elim
  | some v =>
    cases m'[k]? with
    | none => exact False.elim
    | some w => exact congrArg some

end LazyTable
