import Mathlib.Data.Finset.Basic
import Std.Data.ExtTreeMap

/-!
# Posting lists

An inverted index: a finite map from keys to the set of documents that carry the key. A key
whose last document is removed is dropped, so an index never stores an empty set (`Tight`).
`Postings` is one such map, `Fielded` a family of them by field.

## Main results

* `Postings.mem_at_add`, `Postings.mem_at_remove`, `Fielded.mem_at_add`,
  `Fielded.mem_at_remove` — which documents a key has afterwards.
* `Postings.Tight.ext` — tight indexes that answer alike are equal.
* `getElem?_foldl_insert`, `getElem?_foldl_insert_of_ne` — tables built by insertions.
* `holds_foldl` — an index built from a list holds the list.
-/

set_option autoImplicit false

/-- Documents by key. -/
abbrev Postings (K : Type) [Ord K] := Std.ExtTreeMap K (Finset ℕ)

namespace Postings

variable {K : Type} [Ord K] [Std.TransOrd K] [Std.LawfulEqOrd K] {p : Postings K}

/-- The documents of a key. -/
def «at» (p : Postings K) (k : K) : Finset ℕ := p[k]?.getD ∅

/-- Add a document under a key. -/
def add (p : Postings K) (k : K) (d : ℕ) : Postings K := p.insert k (insert d (p.at k))

/-- Remove a document from a key, and the key with its last document. -/
def remove (p : Postings K) (k : K) (d : ℕ) : Postings K :=
  match p[k]? with
  | none => p
  | some s => if s.erase d = ∅ then p.erase k else p.insert k (s.erase d)

/-- No key has an empty set. -/
def Tight (p : Postings K) : Prop := ∀ k : K, p[k]? ≠ some ∅

omit [Std.LawfulEqOrd K] in
/-- An empty index has no document. -/
@[simp] lemma at_empty (k : K) : (∅ : Postings K).at k = ∅ := by simp [«at»]

/-- An addition puts one document under one key. -/
@[simp] lemma mem_at_add {k k' : K} {d e : ℕ} :
    e ∈ (p.add k d).at k' ↔ k = k' ∧ e = d ∨ e ∈ p.at k' := by
  rw [add, «at», Std.ExtTreeMap.getElem?_insert]
  by_cases h : k = k'
  · subst h
    simp
  · simp [h, «at»]

/-- A removal takes one document from one key. -/
@[simp] lemma mem_at_remove {k k' : K} {d e : ℕ} :
    e ∈ (p.remove k d).at k' ↔ ¬(k = k' ∧ e = d) ∧ e ∈ p.at k' := by
  rw [remove]
  cases hk : p[k]? with
  | none =>
    by_cases h : k = k'
    · subst h
      simp [«at», hk]
    · simp [h]
  | some s =>
    by_cases h : k = k'
    · subst h
      by_cases he : s.erase d = ∅
      · have hnone : ¬ e = d → e ∉ s := fun hne hmem =>
          Finset.notMem_empty e (he ▸ Finset.mem_erase.mpr ⟨hne, hmem⟩)
        simpa [«at», he, hk] using hnone
      · simp [«at», he, hk]
    · by_cases he : s.erase d = ∅
      · simp [«at», he, h, Std.ExtTreeMap.getElem?_erase]
      · simp [«at», he, h, Std.ExtTreeMap.getElem?_insert]

section

omit [Std.LawfulEqOrd K]

/-- It stores no empty set. -/
lemma tight_empty : (∅ : Postings K).Tight := by simp [Tight]

/-- An addition stores none. -/
lemma Tight.add (h : p.Tight) (k : K) (d : ℕ) : (p.add k d).Tight := by
  intro k'
  rw [Postings.add, Std.ExtTreeMap.getElem?_insert]
  split
  · simp
  · exact h k'

/-- A removal drops it. -/
lemma Tight.remove (h : p.Tight) (k : K) (d : ℕ) : (p.remove k d).Tight := by
  intro k'
  rw [Postings.remove]
  split
  · exact h k'
  · split
    · rw [Std.ExtTreeMap.getElem?_erase]
      split
      · simp
      · exact h k'
    · next hne =>
      rw [Std.ExtTreeMap.getElem?_insert]
      split
      · simpa using hne
      · exact h k'

/-- Every key has a document. -/
lemma Tight.mem_iff (h : p.Tight) (k : K) : k ∈ p ↔ ∃ d, d ∈ p.at k := by
  rw [Std.ExtTreeMap.mem_iff_isSome_getElem?, «at»]
  cases hk : p[k]? with
  | none => simp
  | some s => exact iff_of_true rfl (Finset.nonempty_iff_ne_empty.mpr fun hs => h k (hs ▸ hk))

end

/-- Indexes that store no empty set are determined by their answers. -/
lemma Tight.ext {q : Postings K} (hp : p.Tight) (hq : q.Tight) (h : ∀ k, p.at k = q.at k) :
    p = q := by
  refine Std.ExtTreeMap.ext_getElem? fun k => ?_
  have hk := h k
  have hpk := hp k
  have hqk := hq k
  rw [«at», «at»] at hk
  cases hp' : p[k]? with
  | none =>
    cases hq' : q[k]? with
    | none => rfl
    | some s =>
      obtain rfl : ∅ = s := by simpa [hp', hq'] using hk
      exact absurd hq' hqk
  | some s =>
    cases hq' : q[k]? with
    | none =>
      obtain rfl : s = ∅ := by simpa [hp', hq'] using hk
      exact absurd hp' hpk
    | some t => simpa [hp', hq'] using hk

end Postings

/-- Posting lists by field. -/
abbrev Fielded (F K : Type) [Ord F] [Ord K] := Std.ExtTreeMap F (Postings K)

namespace Fielded

variable {F K : Type} [Ord F] [Std.TransOrd F] [Std.LawfulEqOrd F]
  [Ord K] [Std.TransOrd K] [Std.LawfulEqOrd K] {p : Fielded F K} {keys : List (F × K)}

/-- The documents of a key of a field. -/
def «at» (p : Fielded F K) (f : F) (k : K) : Finset ℕ := (p[f]?.getD ∅).at k

/-- Add a document under a key of a field. -/
def add (p : Fielded F K) (f : F) (k : K) (d : ℕ) : Fielded F K :=
  p.insert f ((p[f]?.getD ∅).add k d)

/-- Remove a document from a key of a field. The field stays, even without keys. -/
def remove (p : Fielded F K) (f : F) (k : K) (d : ℕ) : Fielded F K :=
  match p[f]? with
  | none => p
  | some q => p.insert f (q.remove k d)

omit [Std.LawfulEqOrd F] [Std.LawfulEqOrd K] in
/-- An empty family has no document. -/
@[simp] lemma at_empty (f : F) (k : K) : (∅ : Fielded F K).at f k = ∅ := by simp [«at»]

/-- It puts one document under one key of one field. -/
@[simp] lemma mem_at_add {f f' : F} {k k' : K} {d e : ℕ} :
    e ∈ (p.add f k d).at f' k' ↔ f = f' ∧ k = k' ∧ e = d ∨ e ∈ p.at f' k' := by
  rw [«at», add, Std.ExtTreeMap.getElem?_insert]
  by_cases h : f = f'
  · subst h
    simp [«at»]
  · simp [h, «at»]

/-- It takes one document from one key of one field. -/
@[simp] lemma mem_at_remove {f f' : F} {k k' : K} {d e : ℕ} :
    e ∈ (p.remove f k d).at f' k' ↔ ¬(f = f' ∧ k = k' ∧ e = d) ∧ e ∈ p.at f' k' := by
  rw [remove]
  cases hf : p[f]? with
  | none =>
    by_cases h : f = f'
    · subst h
      simp [«at», hf]
    · simp [h]
  | some q =>
    rw [«at», Std.ExtTreeMap.getElem?_insert]
    by_cases h : f = f'
    · subst h
      simp [«at», hf]
    · simp [h, «at»]

/-- Add a document under every key of a list. -/
def addAll (p : Fielded F K) (keys : List (F × K)) (d : ℕ) : Fielded F K :=
  keys.foldl (fun p i => p.add i.1 i.2 d) p

/-- Remove a document from every key of a list. -/
def removeAll (p : Fielded F K) (keys : List (F × K)) (d : ℕ) : Fielded F K :=
  keys.foldl (fun p i => p.remove i.1 i.2 d) p

/-- One document under several keys. -/
@[simp] lemma mem_at_addAll {f : F} {k : K} {d e : ℕ} :
    e ∈ (p.addAll keys d).at f k ↔ (f, k) ∈ keys ∧ e = d ∨ e ∈ p.at f k := by
  induction keys generalizing p with
  | nil => simp [addAll]
  | cons i keys ih =>
    rw [addAll, List.foldl_cons, ← addAll, ih, mem_at_add, List.mem_cons, Prod.ext_iff]
    tauto

/-- One document taken from several keys. -/
@[simp] lemma mem_at_removeAll {f : F} {k : K} {d e : ℕ} :
    e ∈ (p.removeAll keys d).at f k ↔ ¬((f, k) ∈ keys ∧ e = d) ∧ e ∈ p.at f k := by
  induction keys generalizing p with
  | nil => simp [removeAll]
  | cons i keys ih =>
    rw [removeAll, List.foldl_cons, ← removeAll, ih, mem_at_remove, List.mem_cons, Prod.ext_iff]
    tauto

end Fielded

/-! ## Tables -/

section Tables

variable {K V α : Type} [Ord K] [Std.TransOrd K] [Std.LawfulEqOrd K] {k : α → K} {v : α → V}
  {m : Std.ExtTreeMap K V}

/-- What a table built by insertions holds came from one of its items, or was there before. -/
lemma exists_of_getElem?_foldl_insert {items : List α} {a : K} {b : V}
    (h : (items.foldl (fun m p => m.insert (k p) (v p)) m)[a]? = some b) :
    (∃ p ∈ items, k p = a ∧ v p = b) ∨ m[a]? = some b := by
  induction items generalizing m with
  | nil => exact .inr h
  | cons q items ih =>
    rcases ih h with ⟨p, hp, heq⟩ | hm
    · exact .inl ⟨p, by simp [hp], heq⟩
    · rw [Std.ExtTreeMap.getElem?_insert] at hm
      by_cases hq : k q = a
      · simp only [hq, Std.ReflCmp.compare_self, if_true, Option.some.injEq] at hm
        exact .inl ⟨q, by simp, hq, hm⟩
      · simp only [Std.LawfulEqCmp.compare_eq_iff_eq, hq, if_false] at hm
        exact .inr hm

/-- An item whose key no other item has with another value is found. -/
lemma getElem?_foldl_insert {items : List α} {p : α} (hp : p ∈ items)
    (hunique : ∀ q ∈ items, k q = k p → v q = v p) :
    (items.foldl (fun m p => m.insert (k p) (v p)) m)[k p]? = some (v p) := by
  induction items using List.reverseRecOn with
  | nil => simp at hp
  | append_singleton items q ih =>
    rw [List.foldl_append, List.foldl_cons, List.foldl_nil, Std.ExtTreeMap.getElem?_insert]
    by_cases hq : k q = k p
    · simp [hq, hunique q (by simp) hq]
    · simp only [Std.LawfulEqCmp.compare_eq_iff_eq, hq, if_false]
      refine ih ?_ fun r hr => hunique r (by simp [hr])
      rcases List.mem_append.mp hp with hp | hp
      · exact hp
      · obtain rfl := List.mem_singleton.mp hp
        exact absurd rfl hq

/-- A key that no item has keeps its value. -/
lemma getElem?_foldl_insert_of_ne {items : List α} {a : K} (hne : ∀ p ∈ items, k p ≠ a) :
    (items.foldl (fun m p => m.insert (k p) (v p)) m)[a]? = m[a]? := by
  induction items generalizing m with
  | nil => rfl
  | cons q items ih =>
    rw [List.foldl_cons, ih fun p hp => hne p (List.mem_cons_of_mem _ hp),
      Std.ExtTreeMap.getElem?_insert]
    simp [hne q List.mem_cons_self]

end Tables

/-! ## Indexing a list -/

section Indexing

variable {σ α β : Type} {d : α → ℕ} {b : α → β}

/-- Documents below a bound stay below it. -/
lemma lt_of_update {n o : ℕ} {f : ℕ → Option β} (h : ∀ d x, f d = some x → d < n) (ho : o < n)
    (y : Option β) (d : ℕ) (x : β) (hd : Function.update f o y d = some x) : d < n := by
  by_cases heq : d = o
  · exact heq ▸ ho
  · rw [Function.update_of_ne heq] at hd
    exact h d x hd

/-- What documents are indexed with after a list of them is added. -/
def indexing (d : α → ℕ) (b : α → β) (items : List α) (f : ℕ → Option β) : ℕ → Option β :=
  items.foldl (fun f p => Function.update f (d p) (some (b p))) f

/-- New documents are indexed with what they came with. -/
lemma indexing_eq_some_iff {items : List α} {f : ℕ → Option β} (hnodup : (items.map d).Nodup)
    (hfresh : ∀ p ∈ items, f (d p) = none) (n : ℕ) (x : β) :
    indexing d b items f n = some x ↔ f n = some x ∨ ∃ p ∈ items, d p = n ∧ b p = x := by
  induction items generalizing f with
  | nil => simp [indexing]
  | cons q items ih =>
    obtain ⟨hq, hnodup⟩ := List.nodup_cons.mp hnodup
    have hne : ∀ p ∈ items, d p ≠ d q := fun p hp heq => hq (heq ▸ List.mem_map_of_mem hp)
    rw [indexing, List.foldl_cons, ← indexing, ih hnodup]
    · by_cases hn : n = d q
      · subst hn
        have hnone : f (d q) = none := hfresh q List.mem_cons_self
        simp [hnone]
      · rw [Function.update_of_ne hn]
        simp [Ne.symm hn]
    · intro p hp
      rw [Function.update_of_ne (hne p hp)]
      exact hfresh p (List.mem_cons_of_mem q hp)

/-- An index that holds what is added to it holds what a list adds. -/
lemma holds_foldl {H : σ → (ℕ → Option β) → Prop} {add : σ → α → σ} {items : List α}
    (hadd : ∀ p ∈ items, ∀ s f, H s f → f (d p) = none →
      H (add s p) (Function.update f (d p) (some (b p))))
    (hnodup : (items.map d).Nodup) {s : σ} {f : ℕ → Option β} (hs : H s f)
    (hfresh : ∀ p ∈ items, f (d p) = none) : H (items.foldl add s) (indexing d b items f) := by
  induction items generalizing s f with
  | nil => exact hs
  | cons q items ih =>
    obtain ⟨hq, hnodup⟩ := List.nodup_cons.mp hnodup
    refine ih (fun p hp => hadd p (List.mem_cons_of_mem q hp)) hnodup
      (hadd q List.mem_cons_self s f hs (hfresh q List.mem_cons_self)) fun p hp => ?_
    have hne : d p ≠ d q := fun heq => hq (heq ▸ List.mem_map_of_mem hp)
    show Function.update f (d q) (some (b q)) (d p) = none
    rw [Function.update_of_ne hne]
    exact hfresh p (List.mem_cons_of_mem q hp)

end Indexing
