import Mathlib.Data.List.Induction
import Std.Data.ExtTreeMap

/-!
# Grouping and chunking lists

A list is grouped by a key, each group in the order of the list, and cut into chunks of a given
size.

## Main results

* `Grouping.getElem?_group` — a group is what a filter by its key gives, and there is none for
  a key that does not occur.
* `Grouping.flatten_chunks`, `Grouping.ne_nil_of_mem_chunks` — the chunks make up the list, and
  none of them is empty.
-/

set_option autoImplicit false

namespace Grouping

open List

variable {κ α : Type}

/-- A table lists every key once. -/
lemma nodup_toList_keys {κ β : Type} {cmp : κ → κ → Ordering} [Std.TransCmp cmp]
    [Std.LawfulEqCmp cmp] (m : Std.ExtTreeMap κ β cmp) : (m.toList.map Prod.fst).Nodup := by
  refine pairwise_map.mpr (m.distinct_keys_toList.imp fun hne heq => hne ?_)
  exact Std.LawfulEqCmp.compare_eq_iff_eq.mpr heq

/-- Looking up a key in the list of a table. -/
lemma lookup_toList {κ β : Type} {cmp : κ → κ → Ordering} [Std.TransCmp cmp]
    [Std.LawfulEqCmp cmp] [BEq κ] [LawfulBEq κ] (m : Std.ExtTreeMap κ β cmp) (k : κ) :
    m.toList.lookup k = m[k]? := by
  have hmem : ∀ v, (k, v) ∈ m.toList ↔ m[k]? = some v :=
    fun v => Std.ExtTreeMap.mem_toList_iff_getElem?_eq_some
  cases hfound : m.toList.lookup k with
  | none =>
    refine (Option.eq_none_iff_forall_ne_some.mpr fun v hv => ?_).symm
    simpa using lookup_eq_none_iff.mp hfound _ ((hmem v).mpr hv)
  | some v =>
    obtain ⟨l₁, l₂, hsplit, -⟩ := lookup_eq_some_iff.mp hfound
    exact ((hmem v).mp (hsplit ▸ mem_append_right _ mem_cons_self)).symm

/-- A key with a value is in the table. -/
lemma mem_of_getElem? {κ β : Type} {cmp : κ → κ → Ordering} [Std.TransCmp cmp]
    {m : Std.ExtTreeMap κ β cmp} {k : κ} {v : β} (h : m[k]? = some v) : k ∈ m :=
  Std.ExtTreeMap.mem_iff_isSome_getElem?.mpr (by simp [h])

/-! ## Groups -/

section Group

variable [Ord κ] [Std.TransOrd κ] [Std.LawfulEqOrd κ]

/-- The groups of a list by a key, each in the order of the list. -/
def group (f : α → κ) (l : List α) : Std.ExtTreeMap κ (List α) :=
  l.foldl (fun m x => m.insert (f x) (m.getD (f x) [] ++ [x])) ∅

omit [Std.LawfulEqOrd κ] in
/-- One more element joins its group. -/
lemma group_concat (f : α → κ) (l : List α) (x : α) :
    group f (l ++ [x]) = (group f l).insert (f x) ((group f l).getD (f x) [] ++ [x]) := by
  rw [group, foldl_append]
  rfl

/-- **A group** is the part of the list with its key. -/
lemma getElem?_group [DecidableEq κ] (f : α → κ) (l : List α) (k : κ) : (group f l)[k]? =
      if l.filter (f · = k) = [] then none else some (l.filter (f · = k)) := by
  induction l using reverseRecOn with
  | nil => simp [group]
  | append_singleton l x ih =>
    rw [group_concat, Std.ExtTreeMap.getElem?_insert, filter_append]
    by_cases hk : f x = k
    · subst hk
      have hgetD : (group f l).getD (f x) [] = l.filter (f · = f x) := by
        rw [Std.ExtTreeMap.getD_eq_getD_getElem?, ih]
        split
        · next hnil => rw [hnil]; rfl
        · rfl
      simp [hgetD]
    · simp [hk, ih]

/-- A group that is there is not empty, and has the elements with its key. -/
lemma group_eq_some [DecidableEq κ] {f : α → κ} {l g : List α} {k : κ}
    (h : (group f l)[k]? = some g) : g = l.filter (f · = k) ∧ g ≠ [] := by
  rw [getElem?_group] at h
  split at h
  · cases h
  · next hne =>
    cases h
    exact ⟨rfl, hne⟩

end Group

/-! ## Chunks -/

/-- Pieces of `n` elements of a list of at most `fuel` elements. -/
def chunksAux (n : ℕ) : ℕ → List α → List (List α)
  | 0, _ => []
  | _ + 1, [] => []
  | fuel + 1, l => l.take n :: chunksAux n fuel (l.drop n)

/-- Consecutive pieces of `n` elements; the last one may be shorter. -/
def chunks (n : ℕ) (l : List α) : List (List α) := chunksAux n l.length l

variable {n : ℕ}

section

variable (hn : 0 < n)
include hn

/-- Enough fuel leaves nothing out. -/
lemma flatten_chunksAux (fuel : ℕ) (l : List α) (h : l.length ≤ fuel) :
    (chunksAux n fuel l).flatten = l := by
  induction fuel generalizing l with
  | zero =>
    obtain rfl : l = [] := length_eq_zero_iff.mp (by omega)
    rfl
  | succ fuel ih =>
    cases l with
    | nil => rfl
    | cons x xs =>
      have hlen : ((x :: xs).drop n).length ≤ fuel := by
        rw [length_drop]
        simp only [length_cons] at h ⊢
        omega
      rw [chunksAux, flatten_cons, ih _ hlen, take_append_drop]
      simp

/-- **The chunks make up the list.** -/
lemma flatten_chunks (l : List α) : (chunks n l).flatten = l :=
  flatten_chunksAux hn l.length l (Nat.le_refl _)

/-- No chunk is empty. -/
lemma ne_nil_of_mem_chunks {l c : List α} (h : c ∈ chunks n l) : c ≠ [] := by
  suffices haux : ∀ fuel l, c ∈ chunksAux n fuel l → c ≠ [] from
    haux l.length l h
  intro fuel
  induction fuel with
  | zero => simp [chunksAux]
  | succ fuel ih =>
    intro l hc
    cases l with
    | nil => simp [chunksAux] at hc
    | cons x xs =>
      rw [chunksAux] at hc
      · rcases mem_cons.mp hc with rfl | hc
        · obtain ⟨m, rfl⟩ : ∃ m, n = m + 1 := ⟨n - 1, by omega⟩
          simp
        · exact ih _ hc
      · simp

/-- A chunk is a part of the list, in its order. -/
lemma sublist_of_mem_chunks {l c : List α} (h : c ∈ chunks n l) : c.Sublist l := by
  conv_rhs => rw [← flatten_chunks hn l]
  exact sublist_flatten_of_mem h

/-- Every element is in a chunk. -/
lemma exists_mem_chunks {l : List α} {x : α} (h : x ∈ l) :
    ∃ c ∈ chunks n l, x ∈ c := by
  rw [← flatten_chunks hn l] at h
  exact mem_flatten.mp h

end

end Grouping
