import TurboMemory.Lib.Loops
import TurboMemory.Tsm.Text

/-!
# Choosing memories for a context budget

`selectUnderBudget` picks a set of retrieved memories whose texts fit a token budget: greedily by
relevance, less their redundancy with what is chosen already, plus a bonus for a turn that is not
covered yet.

## Main results

* `Tsm.Chosen.step` — what the loop keeps.
* `Tsm.selectUnderBudget_maximal` — the loop ends with a maximal admissible set.

## Implementation notes

Scores are elements of an ordered field: the arithmetic is exact. Embedding the texts and
multiplying the vectors are one parameter, the similarity of two candidates. The order in which
`numpy` sorts is another.
-/

set_option autoImplicit false

namespace TurboMemory.Tsm

open List

/-- A retrieved memory. -/
structure PoolItem (R : Type) where
  text : Option Str
  score : R
  /-- The text that will be shown, if it is another one. -/
  context : Option Str
  id : Option Str
  supersededBy : Option Str
  turnIndex : Option ℤ
deriving DecidableEq

/-- How memories are chosen. -/
inductive Method
  | mmr
  | truncate
  | other (name : String)

section Select

variable {R : Type} [Field R] [LinearOrder R]

/-- A candidate more similar than this to a chosen one is skipped. -/
def maxRedundancy : R := 72 / 100

/-- The bonus for the first memory of a turn. -/
def newTurnBonus : R := 20 / 100

/-- The text of a candidate. -/
def PoolItem.textOf (p : PoolItem R) : Str := p.text.getD []

/-- The text that is shown: the context, unless there is none. -/
def PoolItem.shown (p : PoolItem R) : Str :=
  match p.context with
  | none => p.textOf
  | some context => if context = [] then p.textOf else context

/-- What a candidate costs. -/
def PoolItem.tokens (p : PoolItem R) : ℕ := max 1 (p.shown.length / 4)

variable (pool : List (PoolItem R))

/-- The cost of the candidate at an index. -/
def shownTokens (i : ℕ) : ℕ := (pool[i]?.map PoolItem.tokens).getD 1

/-- Whether a candidate was superseded by another. -/
def PoolItem.isReplacedBy (first second : PoolItem R) : Bool :=
  first.supersededBy ≠ none ∧ first.supersededBy = second.id

/-- Whether one of two candidates replaced the other. -/
def replaces (a b : ℕ) : Bool :=
  match pool[a]?, pool[b]? with
  | some first, some second => first.isReplacedBy second || second.isReplacedBy first
  | _, _ => false

/-- The similarity of a candidate to the chosen one it is most similar to. -/
def redundancy (sim : ℕ → ℕ → R) (selected : List ℕ) (i : ℕ) : R :=
  (((selected.filter fun j => !replaces pool i j).map (sim i)).max?).getD 0

/-- The state of the greedy loop. -/
structure Mmr where
  selected : List ℕ
  used : ℕ
  remaining : List ℕ
  selectedTurns : List ℤ

/-- The turn of the candidate at an index. -/
def turnOf (i : ℕ) : Option ℤ := pool[i]?.bind PoolItem.turnIndex

/-- What choosing a candidate is worth. -/
def gain (sim : ℕ → ℕ → R) (lam : R) (s : Mmr) (i : ℕ) : R :=
  let bonus : R := match turnOf pool i with
    | none => 0
    | some turn => if turn ∈ s.selectedTurns then 0 else newTurnBonus
  lam * ((pool[i]?.map PoolItem.score).getD 0) -
    (1 - lam) * redundancy pool sim s.selected i + bonus

variable (tokenBudget : ℤ)

variable (sim : ℕ → ℕ → R)

/-- Whether a candidate fits the budget and is not redundant. -/
def admits (s : Mmr) (i : ℕ) :
    Bool :=
  ((s.used + shownTokens pool i : ℕ) : ℤ) ≤ tokenBudget ∧
    ¬ maxRedundancy < redundancy pool sim s.selected i

/-- Choose a candidate. -/
def Mmr.choose (s : Mmr) (i : ℕ) : Mmr where
  selected := s.selected ++ [i]
  used := s.used + shownTokens pool i
  remaining := s.remaining.erase i
  selectedTurns := s.selectedTurns ++ (turnOf pool i).toList

/-- One round: choose the best candidate, or stop. -/
def mmrStep (lam : R) (cap : ℤ)
    (s : Mmr) : Option Mmr :=
  if s.remaining ≠ [] ∧ (s.selected.length : ℤ) < cap then
    (Loop.best (gain pool sim lam s) (admits pool tokenBudget sim s) (-10 ^ 9) s.remaining).map
      (s.choose pool)
  else none

/-- The state before the first round. -/
def Mmr.start (n : ℕ) : Mmr := ⟨[], 0, range n, []⟩

/-- The state after some rounds. -/
def mmrRun (lam : R) (cap : ℤ)
    (rounds : ℕ) : Mmr :=
  Loop.run (mmrStep pool tokenBudget sim lam cap) rounds (Mmr.start pool.length)

/-- The largest number of items: every item, if no other number is given. -/
def itemCap (maxItems : Option ℤ) : ℤ :=
  match maxItems with
  | none => pool.length
  | some n => if n = 0 then pool.length else n

/-- The greedy loop. Every round takes a candidate, so it ends after as many rounds as there are
candidates. -/
def selectMmr (lam : R)
    (maxItems : Option ℤ) : List ℕ :=
  (mmrRun pool tokenBudget sim lam (itemCap pool maxItems) pool.length).selected

/-- The baseline: candidates in order of relevance, skipping those that do not fit. -/
def selectTruncate (pool : List (PoolItem R)) (tokenBudget : ℤ) (cap : ℤ) :
    List ℕ → List ℕ → ℕ → List ℕ
  | [], selected, _ => selected
  | i :: order, selected, used =>
    if cap ≤ selected.length then selected
    else if ((used + shownTokens pool i : ℕ) : ℤ) ≤ tokenBudget then
      selectTruncate pool tokenBudget cap order (selected ++ [i]) (used + shownTokens pool i)
    else selectTruncate pool tokenBudget cap order selected used

/-- Select a set of items whose texts fit the budget, in selection order. -/
def selectUnderBudget (argsort : List R → List ℕ) (pool : List (PoolItem R)) (tokenBudget : ℤ)
    (embed : Option (List Str → ℕ → ℕ → R)) (method : Method) (lam : R) (maxItems : Option ℤ) :
    Except PyError (List (PoolItem R)) :=
  if pool = [] then .ok []
  else
    match method with
    | .truncate =>
      let order := argsort (pool.map PoolItem.score)
      .ok ((selectTruncate pool tokenBudget (itemCap pool maxItems) order [] 0).filterMap
        (pool[·]?))
    | .other name =>
      .error (.valueError s!"unknown selection method: '{name}' (use 'mmr' or 'truncate')")
    | .mmr =>
      match embed with
      | none => .error (.valueError "method='mmr' needs an embed callable for redundancy")
      | some embed =>
        .ok ((selectMmr pool tokenBudget (embed (pool.map PoolItem.textOf)) lam maxItems).filterMap
          (pool[·]?))

/-! ## What the loop keeps -/

variable [IsStrictOrderedRing R] {pool : List (PoolItem R)} {tokenBudget : ℤ} {sim : ℕ → ℕ → R}
  {lam : R} {cap : ℤ}

omit [Field R] [LinearOrder R] [IsStrictOrderedRing R] in
/-- One of two, in either order. -/
lemma replaces_comm (a b : ℕ) : replaces pool a b = replaces pool b a := by
  unfold replaces
  cases pool[a]? <;> cases pool[b]? <;> simp [Bool.or_comm]

variable {i : ℕ}

/-- A candidate is redundant if it is too similar to a chosen one that it is not linked to. -/
lemma maxRedundancy_lt_redundancy {selected : List ℕ} :
    maxRedundancy < redundancy pool sim selected i ↔
      ∃ j ∈ selected, replaces pool i j = false ∧ maxRedundancy < sim i j := by
  unfold redundancy
  set others := (selected.filter fun j => !replaces pool i j).map (sim i) with hothers
  have hmem : ∀ x, x ∈ others ↔ ∃ j ∈ selected, replaces pool i j = false ∧ sim i j = x := by
    intro x
    simp [hothers, and_assoc]
  cases hmax : others.max? with
  | none =>
    have hnonneg : (0 : R) ≤ maxRedundancy := by
      unfold maxRedundancy
      positivity
    have hnil : others = [] := max?_eq_none_iff.mp hmax
    constructor
    · intro h
      exact absurd h (not_lt.mpr hnonneg)
    · rintro ⟨j, hj, hreplaces, -⟩
      have := (hmem _).mpr ⟨j, hj, hreplaces, rfl⟩
      rw [hnil] at this
      cases this
  | some top =>
    obtain ⟨htop, hle⟩ := max?_eq_some_iff.mp hmax
    constructor
    · intro h
      obtain ⟨j, hj, hreplaces, rfl⟩ := (hmem top).mp htop
      exact ⟨j, hj, hreplaces, h⟩
    · rintro ⟨j, hj, hreplaces, hlt⟩
      exact lt_of_lt_of_le hlt (hle _ ((hmem _).mpr ⟨j, hj, hreplaces, rfl⟩))

variable (pool tokenBudget sim cap) in
/-- What the loop keeps: each candidate is chosen or remains, the costs are counted and within the
budget, and none is redundant with one chosen before it. -/
structure Chosen (s : Mmr) : Prop where
  split : (s.selected ++ s.remaining).Perm (range pool.length)
  used : s.used = (s.selected.map (shownTokens pool)).sum
  fits : (s.used : ℤ) ≤ tokenBudget
  count : (s.selected.length : ℤ) ≤ cap
  apart : s.selected.Pairwise fun i j => replaces pool j i = false → sim j i ≤ maxRedundancy

variable {s s' : Mmr}

omit [IsStrictOrderedRing R] in
/-- What a round does, if it does not stop. -/
lemma mmrStep_eq_some (h : mmrStep pool tokenBudget sim lam cap s = some s') :
    (s.selected.length : ℤ) < cap ∧ ∃ i ∈ s.remaining,
      admits pool tokenBudget sim s i = true ∧ s' = s.choose pool i := by
  unfold mmrStep at h
  split at h
  case isFalse => cases h
  case isTrue hgo =>
    obtain ⟨i, hbest, rfl⟩ := Option.map_eq_some_iff.mp h
    obtain ⟨hmem, hadmits⟩ := Loop.best_mem hbest
    exact ⟨hgo.2, i, hmem, hadmits, rfl⟩

/-- What is added is admitted and fits. -/
lemma Chosen.step (h : Chosen pool tokenBudget sim cap s)
    (hstep : mmrStep pool tokenBudget sim lam cap s = some s') :
    Chosen pool tokenBudget sim cap s' := by
  obtain ⟨hcap, i, hmem, hadmits, rfl⟩ := mmrStep_eq_some hstep
  simp only [admits, decide_eq_true_eq, maxRedundancy_lt_redundancy, not_exists, not_and,
    not_lt] at hadmits
  refine ⟨?_, ?_, hadmits.1, ?_, ?_⟩
  · show (s.selected ++ [i] ++ s.remaining.erase i).Perm _
    rw [append_assoc]
    exact ((perm_cons_erase hmem).symm.append_left s.selected).trans h.split
  · show s.used + shownTokens pool i = ((s.selected ++ [i]).map (shownTokens pool)).sum
    simp [h.used]
  · show ((s.selected ++ [i]).length : ℤ) ≤ cap
    simp only [length_append, length_singleton]
    omega
  · refine pairwise_append.mpr ⟨h.apart, pairwise_singleton _ _, ?_⟩
    intro j hj k hk
    obtain rfl := mem_singleton.mp hk
    exact hadmits.2 j hj

omit [IsStrictOrderedRing R] in
/-- Every round takes a candidate away. -/
lemma length_remaining_lt (h : mmrStep pool tokenBudget sim lam cap s = some s') :
    s'.remaining.length < s.remaining.length := by
  obtain ⟨-, i, hmem, -, rfl⟩ := mmrStep_eq_some h
  show (s.remaining.erase i).length < s.remaining.length
  have := length_pos_of_mem hmem
  rw [length_erase_of_mem hmem]
  omega

/-- Every state that the loop reaches is as it should be. -/
lemma chosen_mmrRun (hbudget : 0 ≤ tokenBudget) (hcap : 0 ≤ cap) (rounds : ℕ) :
    Chosen pool tokenBudget sim cap (mmrRun pool tokenBudget sim lam cap rounds) :=
  Loop.run_induction rounds _ ⟨.refl _, rfl, hbudget, hcap, Pairwise.nil⟩
    fun _ _ h hstep => h.step hstep

omit [IsStrictOrderedRing R] in
/-- The loop has ended after as many rounds as there are candidates. -/
lemma mmrStep_mmrRun :
    mmrStep pool tokenBudget sim lam cap (mmrRun pool tokenBudget sim lam cap pool.length) = none :=
  Loop.step_run (fun s => s.remaining.length) (fun _ _ => length_remaining_lt) _ _ (by
    simp [Mmr.start])

/-- Where the loop has ended, no candidate that remains can be added, unless the number of items is
reached. **Proof sketch.** The last round found none among those that remain, so by the bound on the
gains each does not fit, or is redundant with a chosen one. -/
lemma Chosen.maximal {s : Mmr} (h : Chosen pool tokenBudget sim cap s)
    (hend : mmrStep pool tokenBudget sim lam cap s = none) (hcap : (s.selected.length : ℤ) < cap)
    (hgain : ∀ i ∈ s.remaining, admits pool tokenBudget sim s i = true →
      -10 ^ 9 < gain pool sim lam s i) (hi : i ∈ s.remaining) :
    tokenBudget < ((s.selected.map (shownTokens pool)).sum + shownTokens pool i : ℕ) ∨
      ∃ j ∈ s.selected, replaces pool i j = false ∧ maxRedundancy < sim i j := by
  have hgo : s.remaining ≠ [] ∧ (s.selected.length : ℤ) < cap := ⟨ne_nil_of_mem hi, hcap⟩
  rw [mmrStep, if_pos hgo, Option.map_eq_none_iff] at hend
  have hnot : ¬ admits pool tokenBudget sim s i = true := by
    intro hadmits
    have := Loop.not_of_best_eq_none hend hi (hgain i hi hadmits)
    rw [hadmits] at this
    cases this
  simp only [admits, decide_eq_true_eq, not_and_or, not_not, not_le,
    maxRedundancy_lt_redundancy] at hnot
  rw [← h.used]
  exact hnot

variable (argsort : List R → List ℕ) (embed : List Str → ℕ → ℕ → R) {maxItems : Option ℤ}

/-- With a budget that is not negative, a symmetric similarity and gains above the starting bound of
a round, the items that are returned are distinct, at most as many as asked for, and within the
budget; any two of them that are not linked are similar at most to the limit; and unless the number
of items was reached, no other item can be added. **Proof sketch.** The loop ends (`mmrStep_mmrRun`)
in a good state (`chosen_mmrRun`), where nothing can be added (`Chosen.maximal`). If it was stopped
by the number of candidates, none remains. -/
theorem selectUnderBudget_maximal (hbudget : 0 ≤ tokenBudget)
    (hitems : ∀ n, maxItems = some n → 0 < n)
    (hsym : ∀ i j, embed (pool.map PoolItem.textOf) i j = embed (pool.map PoolItem.textOf) j i)
    (hgain : ∀ rounds, ∀ s, s = mmrRun pool tokenBudget (embed (pool.map PoolItem.textOf)) lam
        (itemCap pool maxItems) rounds → (s.selected.length : ℤ) < itemCap pool maxItems →
      ∀ i ∈ s.remaining, admits pool tokenBudget (embed (pool.map PoolItem.textOf)) s i = true →
        -10 ^ 9 < gain pool (embed (pool.map PoolItem.textOf)) lam s i) : ∃ chosen : List ℕ,
      selectUnderBudget argsort pool tokenBudget (some embed) .mmr lam maxItems =
        .ok (chosen.filterMap (pool[·]?)) ∧ chosen.Nodup ∧ (∀ i ∈ chosen, i < pool.length) ∧
      (∀ n, maxItems = some n → (chosen.length : ℤ) ≤ n) ∧
      ((chosen.map (shownTokens pool)).sum : ℤ) ≤ tokenBudget ∧
      (∀ i ∈ chosen, ∀ j ∈ chosen, i ≠ j → replaces pool i j = false →
        embed (pool.map PoolItem.textOf) i j ≤ maxRedundancy) ∧
      (maxItems ≠ some (chosen.length : ℤ) → ∀ i < pool.length, i ∉ chosen →
        tokenBudget < ((chosen.map (shownTokens pool)).sum + shownTokens pool i : ℕ) ∨
          ∃ j ∈ chosen, replaces pool i j = false ∧
            maxRedundancy < embed (pool.map PoolItem.textOf) i j) := by
  set sim := embed (pool.map PoolItem.textOf) with hsim
  set cap := itemCap pool maxItems with hcap
  have hcases : (∃ n, maxItems = some n ∧ 0 < n ∧ cap = n) ∨
      maxItems = none ∧ cap = pool.length := by
    cases maxItems with
    | none => exact .inr ⟨rfl, rfl⟩
    | some n =>
      have hpos := hitems n rfl
      exact .inl ⟨n, rfl, hpos, if_neg (by omega)⟩
  have hcap_nonneg : 0 ≤ cap := by
    rcases hcases with ⟨n, -, hpos, heq⟩ | ⟨-, heq⟩ <;> omega
  have hs : Chosen pool tokenBudget sim cap (mmrRun pool tokenBudget sim lam cap pool.length) :=
    chosen_mmrRun hbudget hcap_nonneg pool.length
  have hend : mmrStep pool tokenBudget sim lam cap
      (mmrRun pool tokenBudget sim lam cap pool.length) = none := mmrStep_mmrRun
  have hgain := hgain pool.length _ rfl
  have hselect : selectMmr pool tokenBudget sim lam maxItems =
      (mmrRun pool tokenBudget sim lam cap pool.length).selected := rfl
  generalize mmrRun pool tokenBudget sim lam cap pool.length = s at *
  have hnodup := nodup_append'.mp (hs.split.nodup_iff.mpr nodup_range)
  have hmem : ∀ i, i ∈ s.selected ∨ i ∈ s.remaining ↔ i < pool.length := fun i => by
    rw [← mem_append, hs.split.mem_iff, mem_range]
  refine ⟨s.selected, ?_, hnodup.1, fun i hi => (hmem i).mp (.inl hi), ?_, ?_, ?_, ?_⟩
  · rw [← hselect, selectUnderBudget]
    split
    case isTrue hnil =>
      have : s.selected = [] := eq_nil_iff_forall_not_mem.mpr fun i hi => by
        have := (hmem i).mp (.inl hi)
        simp [hnil] at this
      rw [hselect, this]
      rfl
    case isFalse => rfl
  · intro n hn
    rcases hcases with ⟨m, hm, -, heq⟩ | ⟨hnone, -⟩
    · cases hn.symm.trans hm
      exact heq ▸ hs.count
    · rw [hn] at hnone
      cases hnone
  · exact hs.used ▸ hs.fits
  · -- A pair was compared in the order in which it was chosen; the comparison is symmetric.
    have hswap : ∀ i j, (replaces pool j i = false → sim j i ≤ maxRedundancy) →
        replaces pool i j = false → sim i j ≤ maxRedundancy := fun i j h hreplaces =>
      hsym i j ▸ h (replaces_comm i j ▸ hreplaces)
    have hapart : s.selected.Pairwise fun i j => replaces pool i j = false →
        sim i j ≤ maxRedundancy := hs.apart.imp fun {i j} => hswap i j
    have : Std.Symm fun i j => replaces pool i j = false → sim i j ≤ maxRedundancy :=
      ⟨fun i j => hswap j i⟩
    exact fun i hi j hj => hapart.forall hi hj
  · intro hstopped i hlt hi
    have hremains : i ∈ s.remaining := ((hmem i).mpr hlt).resolve_left hi
    have hbelow : (s.selected.length : ℤ) < cap := by
      refine lt_of_le_of_ne hs.count fun hfull => ?_
      rcases hcases with ⟨n, hn, -, heq⟩ | ⟨-, heq⟩
      · exact hstopped (by rw [hn, hfull, heq])
      · have hlength := hs.split.length_eq
        have hpos := length_pos_of_mem hremains
        rw [length_append, length_range] at hlength
        omega
    exact hs.maximal hend hbelow (hgain hbelow) hremains

/-- Relevance that is not negative, weighed by a share, keeps every gain above the bound. -/
lemma bound_lt_gain {s : Mmr} (hlam : 0 ≤ lam) (hlam' : lam ≤ 1)
    (hscore : ∀ p ∈ pool, 0 ≤ p.score) (hadmits : admits pool tokenBudget sim s i = true) :
    -10 ^ 9 < gain pool sim lam s i := by
  simp only [admits, decide_eq_true_eq, not_lt] at hadmits
  have hbonus : (0 : R) ≤ newTurnBonus := by
    unfold newTurnBonus
    positivity
  have hrel : 0 ≤ (pool[i]?.map PoolItem.score).getD 0 := by
    cases hi : pool[i]? with
    | none => exact le_rfl
    | some p => exact hscore p (mem_of_getElem? hi)
  have hred : (1 - lam) * redundancy pool sim s.selected i ≤ 1 := by
    have hmax : (maxRedundancy : R) ≤ 1 := by
      unfold maxRedundancy
      norm_num
    calc (1 - lam) * redundancy pool sim s.selected i
        ≤ (1 - lam) * 1 := by
          apply mul_le_mul_of_nonneg_left (hadmits.2.trans hmax)
          linarith
      _ ≤ 1 := by linarith
  have hlead := mul_nonneg hlam hrel
  unfold gain
  dsimp only
  split
  · linarith
  · split <;> linarith

end Select

/-- Two memories that read alike, the first of which the second replaced, and a paraphrase of
the second. -/
def samplePool : List (PoolItem ℚ) :=
  [⟨some (replicate 8 'a'), 1, none, some ['a'], some ['b'], some 1⟩,
   ⟨some (replicate 8 'b'), 2, none, some ['b'], none, some 2⟩,
   ⟨some (replicate 8 'c'), 1, none, some ['c'], none, some 2⟩]

/-- All three read alike. -/
def sampleEmbed : List Str → ℕ → ℕ → ℚ := fun _ i j => if i = j then 1 else 9 / 10

/-- A memory and the one that replaced it are both chosen, the paraphrase is not. -/
theorem selectUnderBudget_maximal_sample : ∃ chosen : List ℕ,
      selectUnderBudget (fun _ => []) samplePool 10 (some sampleEmbed) .mmr (1 / 2) none =
        .ok (chosen.filterMap (samplePool[·]?)) ∧
      chosen.filterMap (samplePool[·]?) = [samplePool[1], samplePool[0]] ∧
      ((chosen.map (shownTokens samplePool)).sum : ℤ) ≤ 10 := by
  obtain ⟨chosen, hchosen, -, -, -, hcost, -⟩ :=
    @selectUnderBudget_maximal ℚ _ _ _ samplePool 10 (1 / 2) (fun _ => []) sampleEmbed none
      (by decide) (fun n hn => nomatch hn) (fun i j => by simp only [sampleEmbed, eq_comm])
      (fun rounds s _ _ i _ hadmits => bound_lt_gain (by norm_num) (by norm_num)
        (by decide +kernel) hadmits)
  refine ⟨chosen, hchosen, ?_, hcost⟩
  have hrun : selectUnderBudget (fun _ => []) samplePool 10 (some sampleEmbed) .mmr (1 / 2) none =
      .ok [samplePool[1], samplePool[0]] := by decide +kernel
  exact Except.ok.inj (hchosen.symm.trans hrun)

/-- Under a negative budget nothing is chosen, and nothing costs more than the budget. -/
theorem selectUnderBudget_negative_budget :
    selectUnderBudget (fun _ => []) samplePool (-1) (some sampleEmbed) .mmr (1 / 2) none =
        .ok (([] : List ℕ).filterMap (samplePool[·]?)) ∧
      ¬ ((([] : List ℕ).map (shownTokens samplePool)).sum : ℤ) ≤ -1 := by
  decide +kernel

end TurboMemory.Tsm
