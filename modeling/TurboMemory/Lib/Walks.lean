import Mathlib.Data.Finset.Card

/-!
# Walks along a partial function

A walk follows a partial function and stops when there is no next node or the next node was
visited before. `Walk` is the relation, and `walk` computes it with fuel.

## Main results

* `Walks.walk_spec` — the fuel is enough when it is the number of nodes not visited yet.
* `Walks.Walk.eq_iff_agree` — two walks are equal just if their functions agree on the way.
* `Walks.Walk.nodup`, `Walks.Walk.isChain` — a walk is a chain of steps without repetition.
* `Walks.Walk.map` — a renaming of the nodes renames the walk.
* `Walks.Walk.next_getLast` — if the function goes up in rank, the walk ends where it is
  undefined.
-/

set_option autoImplicit false

namespace Walks

open List Option

variable {α β : Type}

/-- The nodes of the walk from a node, without the node itself. -/
inductive Walk (next : α → Option α) : List α → α → List α → Prop
  | stop {visited : List α} {n : α} (h : ∀ m, next n = some m → m ∈ visited) :
      Walk next visited n []
  | step {visited : List α} {n m : α} {path : List α} (hnext : next n = some m)
      (hnew : m ∉ visited) (h : Walk next (m :: visited) m path) :
      Walk next visited n (m :: path)

/-- Compute a walk, with fuel. -/
def walk [DecidableEq α] (next : α → Option α) : ℕ → List α → α → List α
  | 0, _, _ => []
  | fuel + 1, visited, n =>
    match next n with
    | none => []
    | some m => if m ∈ visited then [] else m :: walk next fuel (m :: visited) m

/-- The functions agree along a walk: at each node both lead to the same new node, at the last one
to none. -/
inductive Agree (f g : α → Option α) : List α → α → Prop
  | stop {visited : List α} {n : α} (hf : ∀ m, f n = some m → m ∈ visited)
      (hg : ∀ m, g n = some m → m ∈ visited) : Agree f g visited n
  | step {visited : List α} {n m : α} (hf : f n = some m) (hg : g n = some m)
      (hnew : m ∉ visited) (h : Agree f g (m :: visited) m) : Agree f g visited n

section Walk

variable {next f g : α → Option α} {visited visited' path path' : List α} {n m : α}

section

variable (h : Walk next visited n path)
include h

/-- A function has one walk. -/
lemma Walk.unique (h' : Walk next visited n path') : path = path' := by
  induction h generalizing path' with
  | stop hstop =>
    cases h' with
    | stop _ => rfl
    | step hnext hnew _ => exact absurd (hstop _ hnext) hnew
  | step hnext hnew _ ih =>
    cases h' with
    | stop hstop => exact absurd (hstop _ hnext) hnew
    | step hnext' _ h' =>
      cases hnext.symm.trans hnext'
      rw [ih h']

/-- A walk goes to nodes that were not visited. -/
lemma Walk.not_mem_visited : ∀ x ∈ path, x ∉ visited := by
  induction h with
  | stop _ => simp
  | step _ hnew _ ih =>
    intro x hx
    rcases mem_cons.mp hx with rfl | hx
    · exact hnew
    · exact fun hmem => ih x hx (mem_cons_of_mem _ hmem)

/-- A walk goes to no node twice. -/
lemma Walk.nodup : path.Nodup := by
  induction h with
  | stop _ => exact nodup_nil
  | step _ _ hwalk ih =>
    exact nodup_cons.mpr ⟨fun hm => hwalk.not_mem_visited _ hm mem_cons_self, ih⟩

/-- A walk goes from each node to the next one. -/
lemma Walk.isChain : (n :: path).IsChain fun x y => next x = some y := by
  induction h with
  | stop _ => exact .singleton _
  | step hnext _ _ ih => exact isChain_cons_cons.mpr ⟨hnext, ih⟩

end

/-- A walk that visited nothing but its start ends elsewhere just if there is a next node. -/
lemma Walk.getLast_ne_iff (h : Walk next [n] n path) (hself : next n ≠ some n) :
    (n :: path).getLast (cons_ne_nil _ _) ≠ n ↔ (next n).isSome = true := by
  cases path with
  | nil =>
    cases h with
    | stop hstop =>
      suffices hnone : next n = none by simp [hnone]
      refine eq_none_iff_forall_not_mem.mpr fun m hm => hself ?_
      exact mem_singleton.mp (hstop m hm) ▸ hm
  | cons m path =>
    have hlast : (n :: m :: path).getLast (cons_ne_nil _ _) ∈ m :: path := by
      rw [getLast_cons (cons_ne_nil _ _)]
      exact getLast_mem _
    have hne := mem_singleton.not.mp (h.not_mem_visited _ hlast)
    cases h with
    | step hnext _ _ => simp only [hnext, isSome_some, iff_true]; exact hne

/-- Every node of a walk is the next one of some node. -/
lemma Walk.exists_next (h : Walk next visited n path) :
    ∀ x ∈ path, ∃ y ∈ n :: path, next y = some x := by
  induction h with
  | stop _ => simp
  | step hnext _ _ ih =>
    intro x hx
    rcases mem_cons.mp hx with rfl | hx
    · exact ⟨_, mem_cons_self, hnext⟩
    · obtain ⟨y, hy, hyx⟩ := ih x hx
      exact ⟨y, mem_cons_of_mem _ hy, hyx⟩

/-- The last node of a walk is reached by steps of the function. -/
lemma Walk.reflTransGen (h : Walk next visited n path) :
    Relation.ReflTransGen (fun x y => next x = some y) n
      ((n :: path).getLast (cons_ne_nil _ _)) := by
  induction h with
  | stop _ => exact .refl
  | step hnext _ _ ih =>
    rw [getLast_cons (cons_ne_nil _ _)]
    exact .head hnext ih

/-- If the function goes up in rank, a walk ends at a node where it is undefined. -/
lemma Walk.next_getLast {rank : α → ℕ} (hrank : ∀ n m, next n = some m → rank n < rank m)
    (h : Walk next visited n path) (hvisited : ∀ x ∈ visited, rank x ≤ rank n) :
    next ((n :: path).getLast (cons_ne_nil _ _)) = none := by
  induction h with
  | @stop visited n hstop =>
    refine eq_none_iff_forall_not_mem.mpr fun m hm => ?_
    exact absurd (hvisited m (hstop m hm)) (Nat.not_le.mpr (hrank n m hm))
  | @step visited n m path hnext _ _ ih =>
    rw [getLast_cons (cons_ne_nil _ _)]
    refine ih fun x hx => ?_
    rcases mem_cons.mp hx with rfl | hx
    · exact le_rfl
    · exact (hvisited x hx).trans (hrank n m hnext).le

/-- Two walks from a node are equal just if their functions agree on the way. -/
lemma Walk.eq_iff_agree (h : Walk f visited n path) (h' : Walk g visited n path') :
    path = path' ↔ Agree f g visited n := by
  constructor
  · rintro rfl
    induction h with
    | stop hf =>
      cases h' with
      | stop hg => exact .stop hf hg
    | step hf hnew _ ih =>
      cases h' with
      | step hg _ h' => exact .step hf hg hnew (ih h')
  · intro hagree
    induction hagree generalizing path path' with
    | stop hf hg =>
      rw [h.unique (.stop hf), h'.unique (.stop hg)]
    | @step visited n m hf hg hnew _ ih =>
      cases h with
      | stop hstop => exact absurd (hstop m hf) hnew
      | step hf' _ h =>
        cases h' with
        | stop hstop => exact absurd (hstop m hg) hnew
        | step hg' _ h' =>
          cases hf.symm.trans hf'
          cases hg.symm.trans hg'
          rw [ih h h']

/-- A renaming that is injective on the nodes of a closed set renames a walk in it. -/
lemma Walk.map {next' : β → Option β} (name : α → β) {s : Set α}
    (hinj : Set.InjOn name s) (hclosed : ∀ n ∈ s, ∀ m, next n = some m → m ∈ s)
    (hnext : ∀ n ∈ s, next' (name n) = (next n).map name)
    (h : Walk next visited n path) (hn : n ∈ s) (hvisited : ∀ x ∈ visited, x ∈ s) :
    Walk next' (visited.map name) (name n) (path.map name) := by
  induction h with
  | @stop visited n hstop =>
    refine .stop fun m hm => ?_
    rw [hnext n hn, map_eq_some_iff] at hm
    obtain ⟨x, hx, rfl⟩ := hm
    exact mem_map_of_mem (hstop x hx)
  | @step visited n m path hstep hnew _ ih =>
    have hm : m ∈ s := hclosed n hn m hstep
    have hall : ∀ x ∈ m :: visited, x ∈ s := by
      intro x hx
      rcases mem_cons.mp hx with rfl | hx
      · exact hm
      · exact hvisited x hx
    refine .step (by rw [hnext n hn, hstep, map_some]) ?_ (ih hm hall)
    intro hmem
    obtain ⟨x, hx, heq⟩ := mem_map.mp hmem
    exact hnew (hinj (hvisited x hx) hm heq ▸ hx)

end Walk

section Fuel

variable [DecidableEq α] {next : α → Option α}

/-- The fuel is enough when it is the number of nodes that were not visited. -/
lemma walk_spec (nodes : Finset α) (hnodes : ∀ n m, next n = some m → m ∈ nodes) (fuel : ℕ)
    (visited : List α) (n : α) (hfuel : (nodes \ visited.toFinset).card ≤ fuel) :
    Walk next visited n (walk next fuel visited n) := by
  induction fuel generalizing visited n with
  | zero =>
    refine .stop fun m hm => ?_
    have hempty := Finset.card_eq_zero.mp (Nat.le_zero.mp hfuel)
    have hsub := Finset.sdiff_eq_empty_iff_subset.mp hempty (hnodes n m hm)
    exact List.mem_toFinset.mp hsub
  | succ fuel ih =>
    rw [walk]
    cases hm : next n with
    | none => exact .stop fun m hm' => by simp [hm] at hm'
    | some m =>
      by_cases hmem : m ∈ visited
      · simp only [hmem, if_true]
        refine .stop fun m' hm' => ?_
        cases hm.symm.trans hm'
        exact hmem
      · simp only [hmem, if_false]
        refine .step hm hmem (ih (m :: visited) m ?_)
        -- The new node is one of those that were not visited.
        have hlt : (nodes \ (m :: visited).toFinset).card < (nodes \ visited.toFinset).card := by
          apply Finset.card_lt_card
          refine Finset.ssubset_iff_subset_ne.mpr ⟨?_, fun heq => ?_⟩
          · intro x hx
            simp only [Finset.mem_sdiff, List.mem_toFinset, mem_cons, not_or] at hx ⊢
            exact ⟨hx.1, hx.2.2⟩
          · have hin : m ∈ nodes \ visited.toFinset := by
              simp [hnodes n m hm, hmem]
            rw [← heq] at hin
            simp at hin
        omega

end Fuel

end Walks
