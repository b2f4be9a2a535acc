import Mathlib.Data.List.Sort
import Mathlib.Data.Multiset.Count

/-!
# Selecting the best elements of a list

`IsTop r k l out` says that `out` is a choice of the `k` best elements of `l` under the ranking
`r`, best first, or all of `l` if it has fewer. When `r` has ties there are several choices;
they agree on everything `r` can tell apart. `SelectNth` is a partial sort and `MaxHeap` a
priority queue.

## Main results

* `Selection.isTop_take_insertionSort` — sorting and cutting is such a choice.
* `Selection.IsTop.unique` — the only one, if `r` is antisymmetric.
* `Selection.IsTop.map` — what a monotone map sees of a choice is a choice of what it sees.
* `Selection.IsTop.append_dominated` — elements that `k` others outrank do not matter.
* `Selection.IsTop.filter_take` — a choice, filtered afterwards, is a choice from the filtered
  list, as long as enough of it survives or nothing was left out.
-/

set_option autoImplicit false

namespace Selection

open List

variable {α β : Type}

/-- `out` is a best-first choice of the `k` best elements of `l`: it is ranked, has `k` elements
unless `l` has fewer, and outranks everything it leaves out. -/
structure IsTop (r : α → α → Prop) (k : ℕ) (l out : List α) : Prop where
  sorted : out.Pairwise r
  split : ∃ rest, l.Perm (out ++ rest) ∧ (∀ x ∈ out, ∀ y ∈ rest, r x y) ∧
    (out.length = k ∨ rest = [] ∧ out.length ≤ k)

variable {r : α → α → Prop}

namespace IsTop

variable {k : ℕ} {l out : List α}

section

variable (h : IsTop r k l out)
include h

/-- The choice is from the list. -/
lemma mem {x : α} (hx : x ∈ out) : x ∈ l := by
  obtain ⟨rest, hperm, -⟩ := h.split
  exact hperm.mem_iff.mpr (mem_append_left _ hx)

/-- The order of the list does not matter. -/
lemma perm {l' : List α} (hp : l.Perm l') : IsTop r k l' out := by
  obtain ⟨rest, hperm, hdom, hlen⟩ := h.split
  exact ⟨h.sorted, rest, hp.symm.trans hperm, hdom, hlen⟩

/-- Nothing is chosen twice. -/
lemma nodup (hl : l.Nodup) : out.Nodup := by
  obtain ⟨rest, hperm, -⟩ := h.split
  exact (nodup_append.mp (hperm.nodup_iff.mp hl)).1

/-- At most `k` are chosen. -/
lemma length_le : out.length ≤ k := by
  obtain ⟨rest, -, -, hlen | ⟨-, hlen⟩⟩ := h.split
  · exact hlen.le
  · exact hlen

/-- A choice that falls short leaves nothing out. -/
lemma perm_of_length_lt (hlt : out.length < k) : l.Perm out := by
  obtain ⟨rest, hperm, -, hlen | ⟨rfl, -⟩⟩ := h.split
  · omega
  · simpa using hperm

/-- If the ranking tells all elements apart there is only one choice. -/
lemma unique [Std.Antisymm r] [IsTrans α r] [Std.Total r] {out' : List α}
    (h' : IsTop r k l out') : out = out' := by
  classical
  -- Both choices are a head of the sorted list.
  have hhead : ∀ {o}, IsTop r k l o → o = (l.insertionSort r).take k := by
    intro o ho
    obtain ⟨rest, hperm, hdom, hlen⟩ := ho.split
    have hsorted : (o ++ rest.insertionSort r).Pairwise r := by
      refine pairwise_append.mpr ⟨ho.sorted, pairwise_insertionSort r rest, ?_⟩
      intro x hx y hy
      exact hdom x hx y ((mem_insertionSort r).mp hy)
    have hall : o ++ rest.insertionSort r = l.insertionSort r := by
      refine Perm.eq_of_pairwise' hsorted (pairwise_insertionSort r l) ?_
      exact ((perm_insertionSort r rest).append_left o).trans
        (hperm.symm.trans (perm_insertionSort r l).symm)
    rw [← hall]
    rcases hlen with rfl | ⟨rfl, hle⟩
    · exact take_left.symm
    · simp [take_of_length_le hle]
  rw [hhead h, hhead h']

end

/-- A map that respects the ranking carries a choice to a choice. -/
lemma map {r' : β → β → Prop} (f : α → β) (hf : ∀ x ∈ l, ∀ y ∈ l, r x y → r' (f x) (f y))
    (h : IsTop r k l out) : IsTop r' k (l.map f) (out.map f) := by
  obtain ⟨rest, hperm, hdom, hlen⟩ := h.split
  have hrest : ∀ y ∈ rest, y ∈ l := fun y hy => hperm.mem_iff.mpr (mem_append_right _ hy)
  refine ⟨?_, rest.map f, ?_, ?_, ?_⟩
  · exact pairwise_map.mpr (h.sorted.imp_of_mem fun hx hy hr =>
      hf _ (h.mem hx) _ (h.mem hy) hr)
  · simpa using hperm.map f
  · intro x hx y hy
    obtain ⟨a, ha, rfl⟩ := mem_map.mp hx
    obtain ⟨b, hb, rfl⟩ := mem_map.mp hy
    exact hf a (h.mem ha) b (hrest b hb) (hdom a ha b hb)
  · simpa using hlen

/-- An element that `k` elements of the list all outrank is outranked by every element of the
choice. **Proof sketch.** Let `x` in the choice not outrank `d`. Then `x` outranks none of the `k`
elements, so the choice consists of them, and `x` is one. -/
lemma dominates [IsTrans α r] (h : IsTop r k l out) {A B : List α} (hl : l.Perm (A ++ B))
    (hA : k ≤ A.length) {d : α} (hd : ∀ a ∈ A, r a d) : ∀ x ∈ out, r x d := by
  classical
  intro x hx
  by_contra hxd
  obtain ⟨rest, hperm, hdom, -⟩ := h.split
  have hkept : ∀ a ∈ A, a ∉ rest := fun a ha hrest =>
    hxd (IsTrans.trans _ _ _ (hdom x hx a hrest) (hd a ha))
  have hle : (A : Multiset α) ≤ (out : Multiset α) := by
    rw [Multiset.le_iff_count]
    intro a
    by_cases ha : a ∈ A
    · have hcount := (hl.symm.trans hperm).count_eq a
      rw [count_append, count_append, count_eq_zero_of_not_mem (hkept a ha)]
        at hcount
      simp only [Multiset.coe_count]
      omega
    · simp [count_eq_zero_of_not_mem ha]
  have heq : (A : Multiset α) = (out : Multiset α) := by
    refine Multiset.eq_of_le_of_card_le hle ?_
    simpa using h.length_le.trans hA
  have hxA : x ∈ A := by
    have hmem : x ∈ (A : Multiset α) := heq ▸ (Multiset.mem_coe.mpr hx)
    exact Multiset.mem_coe.mp hmem
  exact hxd (hd x hxA)

/-- Elements that each have `k` others outranking them can be added without changing the
choice. -/
lemma append_dominated [IsTrans α r] (h : IsTop r k l out) {D : List α}
    (hD : ∀ d ∈ D, ∃ A B, l.Perm (A ++ B) ∧ k ≤ A.length ∧ ∀ a ∈ A, r a d) :
    IsTop r k (l ++ D) out := by
  rcases D.eq_nil_or_concat with rfl | ⟨D', d, rfl⟩
  · simpa using h
  obtain ⟨rest, hperm, hdom, hlen⟩ := h.split
  refine ⟨h.sorted, rest ++ D'.concat d, ?_, ?_, .inl ?_⟩
  · rw [← append_assoc]
    exact hperm.append_right _
  · intro x hx y hy
    rcases mem_append.mp hy with hy | hy
    · exact hdom x hx y hy
    · obtain ⟨A, B, hl, hA, hout⟩ := hD y hy
      exact h.dominates hl hA hout x hx
  · -- Something is outranked by `k` elements, so there are `k` to choose.
    obtain ⟨A, B, hl, hA, -⟩ := hD d (by simp)
    have h1 := hperm.length_eq
    have h2 := hl.length_eq
    simp only [length_append] at h1 h2
    rcases hlen with hlen | ⟨rfl, hle⟩
    · exact hlen
    · simp only [length_nil] at h1
      omega

/-- A choice that is filtered is a choice from the filtered list, as long as enough of it survives
or nothing was left out. -/
lemma filter_take (h : IsTop r k l out) (p : α → Bool) {j : ℕ}
    (hj : j ≤ (out.filter p).length ∨ l.Perm out) :
    IsTop r j (l.filter p) ((out.filter p).take j) := by
  obtain ⟨rest, hperm, hdom, hlen⟩ := h.split
  have hsplit := take_append_drop j (out.filter p)
  have hsorted : (out.filter p).Pairwise r := h.sorted.filter p
  have hparts := hsorted
  rw [← hsplit, pairwise_append] at hparts
  refine ⟨hsorted.sublist (take_sublist j _), (out.filter p).drop j ++ rest.filter p, ?_, ?_, ?_⟩
  · rw [← append_assoc, hsplit, ← filter_append]
    exact hperm.filter p
  · intro x hx y hy
    rcases mem_append.mp hy with hy | hy
    · exact hparts.2.2 x hx y hy
    · exact hdom x (mem_of_mem_filter (mem_of_mem_take hx)) y
        (mem_of_mem_filter hy)
  · rcases hj with hj | hall
    · left
      rw [length_take]
      omega
    · have hnil : rest = [] := by
        have hsum := hperm.length_eq
        rw [hall.length_eq, length_append] at hsum
        exact length_eq_zero_iff.mp (by omega)
      by_cases hle : j ≤ (out.filter p).length
      · left
        rw [length_take]
        omega
      · right
        refine ⟨?_, length_take_le _ _⟩
        rw [hnil, drop_eq_nil_of_le (by omega)]
        rfl

end IsTop

/-- **Sorting and cutting is a choice.** -/
lemma isTop_take_insertionSort [DecidableRel r] [Std.Total r] [IsTrans α r] (k : ℕ)
    (l : List α) : IsTop r k l ((l.insertionSort r).take k) := by
  have hsorted := pairwise_insertionSort r l
  have hsplit := take_append_drop k (l.insertionSort r)
  refine ⟨hsorted.sublist (take_sublist k _), (l.insertionSort r).drop k, ?_, ?_, ?_⟩
  · rw [hsplit]
    exact (perm_insertionSort r l).symm
  · rw [← hsplit, pairwise_append] at hsorted
    exact hsorted.2.2
  · rcases Nat.lt_or_ge (l.insertionSort r).length k with hlt | hge
    · right
      exact ⟨drop_eq_nil_of_le hlt.le, length_take_le _ _⟩
    · left
      rw [length_take]
      omega

/-- **What is among the first `k`** of a sorted list without ties: the elements that fewer than
`k` others outrank. -/
lemma mem_take_insertionSort_iff [DecidableEq α] [DecidableRel r] [Std.Total r] [IsTrans α r]
    {l : List α} (hl : l.Nodup) (hanti : ∀ x ∈ l, ∀ y ∈ l, r x y → r y x → x = y) (k : ℕ) (x : α) :
    x ∈ (l.insertionSort r).take k ↔ x ∈ l ∧ (l.filter fun y => r y x ∧ y ≠ x).length < k := by
  have hperm := perm_insertionSort r l
  have hsorted := pairwise_insertionSort r l
  have hnodup : (l.insertionSort r).Nodup := hperm.nodup_iff.mpr hl
  simp only [← hperm.mem_iff] at hanti
  rw [← hperm.mem_iff, ← (hperm.filter _).length_eq]
  generalize l.insertionSort r = s at hsorted hnodup hanti ⊢
  by_cases hx : x ∈ s
  swap
  · simp only [hx, false_and, iff_false]
    exact fun h => hx (mem_of_mem_take h)
  obtain ⟨before, after, rfl⟩ := append_of_mem hx
  rw [pairwise_append, pairwise_cons] at hsorted
  rw [nodup_append, nodup_cons] at hnodup
  obtain ⟨-, ⟨hafter, -⟩, hbefore⟩ := hsorted
  obtain ⟨-, ⟨hxafter, -⟩, hne⟩ := hnodup
  have hxbefore : x ∉ before := fun h => hne x h x (by simp) rfl
  -- The elements that outrank `x` are those before it.
  have hfirst : before.filter (fun y => r y x ∧ y ≠ x) = before := by
    refine filter_eq_self.mpr fun y hy => ?_
    simpa using ⟨hbefore y hy x (by simp), hne y hy x (by simp)⟩
  have hlast : after.filter (fun y => r y x ∧ y ≠ x) = [] := by
    refine filter_eq_nil_iff.mpr fun y hy hyx => ?_
    obtain ⟨hyx, hyne⟩ := of_decide_eq_true hyx
    exact hyne (hanti y (by simp [hy]) x (by simp) hyx (hafter y hy))
  have hcount : ((before ++ x :: after).filter fun y => r y x ∧ y ≠ x).length = before.length := by
    rw [filter_append, hfirst, filter_cons, hlast]
    simp
  rw [hcount, take_append, mem_append]
  constructor
  · rintro (h | h)
    · exact absurd (mem_of_mem_take h) hxbefore
    · refine ⟨hx, ?_⟩
      by_contra hle
      rw [Nat.sub_eq_zero_of_le (by omega)] at h
      simp at h
  · rintro ⟨-, hlt⟩
    right
    obtain ⟨n, hn⟩ : ∃ n, k - before.length = n + 1 := ⟨k - before.length - 1, by omega⟩
    rw [hn, take_succ_cons]
    exact mem_cons_self

/-! ## Partial sorting -/

/-- A partial sort around position `n`: the element at `n` is the one a full sort would put there,
and nothing behind it outranks anything up to it. The order on either side is unspecified. -/
structure SelectNth (r : α → α → Prop) where
  run : List α → ℕ → List α
  perm : ∀ l n, (run l n).Perm l
  ranked : ∀ l n, n < l.length → ∀ x ∈ (run l n).take (n + 1), ∀ y ∈ (run l n).drop (n + 1), r x y
  nth_last : ∀ l n, ∀ z ∈ (run l n)[n]?, ∀ x ∈ (run l n).take (n + 1), r x z

namespace SelectNth

/-- A full sort is a partial sort around every position. -/
def ofSort (r : α → α → Prop) [DecidableRel r] [Std.Total r] [IsTrans α r] : SelectNth r where
  run l _ := l.insertionSort r
  perm l _ := perm_insertionSort r l
  ranked l n _ := by
    have hsorted := pairwise_insertionSort r l
    rw [← take_append_drop (n + 1) (l.insertionSort r), pairwise_append] at hsorted
    exact hsorted.2.2
  nth_last l n z hz x hx := by
    have hsorted := pairwise_insertionSort r l
    rw [take_add_one, Option.mem_def.mp hz] at hx
    rcases mem_append.mp hx with hx | hx
    · rw [← take_append_drop n (l.insertionSort r), pairwise_append] at hsorted
      refine hsorted.2.2 x hx z ?_
      exact mem_iff_getElem?.mpr ⟨0, by simpa using hz⟩
    · obtain rfl : x = z := by simpa using hx
      exact Std.Total.total x x |>.elim id id

end SelectNth

/-! ## Heaps -/

/-- A priority queue: `pop` takes out an element that no other outranks. Which one, among
equals, is unspecified. -/
structure MaxHeap (r : α → α → Prop) where
  pop : List α → Option (α × List α)
  eq_nil_of_pop_eq_none : ∀ {l}, pop l = none → l = []
  perm_of_pop : ∀ {l x rest}, pop l = some (x, rest) → l.Perm (x :: rest)
  ranked_of_pop : ∀ {l x rest}, pop l = some (x, rest) → ∀ y ∈ rest, r x y

namespace MaxHeap

/-- A sorted list is a priority queue. -/
def ofSort (r : α → α → Prop) [DecidableRel r] [Std.Total r] [IsTrans α r] : MaxHeap r where
  pop l := match l.insertionSort r with
    | [] => none
    | x :: rest => some (x, rest)
  eq_nil_of_pop_eq_none {l} h := by
    have hlen := length_insertionSort r l
    split at h
    · next heq =>
      rw [heq] at hlen
      exact length_eq_zero_iff.mp hlen.symm
    · cases h
  perm_of_pop {l x rest} h := by
    split at h
    · cases h
    · next heq =>
      obtain ⟨rfl, rfl⟩ : _ = x ∧ _ = rest := by simpa using h
      exact heq ▸ (perm_insertionSort r l).symm
  ranked_of_pop {l x rest} h := by
    have hsorted := pairwise_insertionSort r l
    split at h
    · cases h
    · next heq =>
      obtain ⟨rfl, rfl⟩ : _ = x ∧ _ = rest := by simpa using h
      rw [heq, pairwise_cons] at hsorted
      exact hsorted.1

end MaxHeap

end Selection
