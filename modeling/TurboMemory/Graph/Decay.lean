import Mathlib
import TurboMemory.Graph.Maintenance

/-!
# The decay of reinforced edges

Every consolidation multiplies the weight of a reinforced edge by a factor that depends on the time
since the edge was last reinforced, and keeps it above a floor. The factor is applied to the weight
that the earlier consolidations left, and the time of the reinforcement stays, so the same stretch
of time counts again at every call. A weight of the graph is a bit pattern, and no exact arithmetic
fits into it; what a call computes is therefore written once over any type of numbers (`DecayOps`),
and used at both.

## Main results

* `MemoryGraph.fadings_decayEdges` — the model of the graph follows `fadeAll`.
* `weight_foldl_decay` — the weight after any number of calls, in closed form.
* `decay_independent_iff` — when the weight is the same as after the last call alone.
* `reinforce_raises_iff` — when rehearsing a memory does not weaken an edge.
* `baseline_kept_iff` — when an edge keeps the weight it was created with.
-/

set_option autoImplicit false

namespace TurboMemory

open List

/-! ## One call -/

/-- The arithmetic that `decay_edges` uses. -/
structure DecayOps (W : Type) where
  one : W
  mul : W → W → W
  max : W → W → W
  min : W → W → W
  /-- `0.5 ^ (age / half_life)`. -/
  factor : (age halfLife : ℕ) → W

variable {W : Type}

variable (O : DecayOps W)

/-- The weight of an edge after a call: decayed, but not below the floor `1`, nor raised to it. -/
def decayedWeight (now halfLife lastReinforcedAt : ℕ) (weight : W) : W :=
  O.max (O.mul weight (O.factor (now - lastReinforcedAt) halfLife)) (O.min weight O.one)

/-- What decay reads of an edge. -/
@[ext]
structure Fading (W : Type) where
  weight : W
  lastReinforcedAt : ℕ

/-- One call, for one edge. Time 0 stands for an edge that was never reinforced. -/
def Fading.decay (halfLife : ℕ) (e : Fading W) (now : ℕ) : Fading W :=
  if e.lastReinforcedAt = 0 then e
  else { e with weight := decayedWeight O now halfLife e.lastReinforcedAt e.weight }

/-- One call, for all edges of a graph. -/
def fadeAll (halfLife : ℕ) (edges : List (Fading W)) (now : ℕ) :
    List (Fading W) :=
  if halfLife = 0 then edges else edges.map (Fading.decay O halfLife · now)

/-- What decay reads of an edge of the graph. -/
def InternalEdge.fading (e : InternalEdge) : Fading F32 := ⟨e.weight, e.lastReinforcedAt⟩

/-- The graph decays its edges by the arithmetic of its floats. -/
theorem MemoryGraph.fadings_decayEdges {O : DecayOps F32} {L : LearnArith}
    (hL : L.decayed = decayedWeight O) (g : MemoryGraph) (now halfLife : ℕ) :
    (g.decayEdges L now halfLife).intEdges.map InternalEdge.fading =
      fadeAll O halfLife (g.intEdges.map InternalEdge.fading) now := by
  unfold decayEdges fadeAll
  split
  · rfl
  · simp only [map_map]
    refine map_congr_left fun e _ => ?_
    by_cases hnever : e.lastReinforcedAt = 0 <;>
      simp [InternalEdge.fading, Fading.decay, hL, hnever]

/-! ## Many calls -/

/-- Calls one after the other treat every edge on its own. -/
lemma foldl_fadeAll {halfLife : ℕ} (hon : halfLife ≠ 0) (times : List ℕ)
    (edges : List (Fading W)) : times.foldl (fadeAll O halfLife) edges =
      edges.map fun e => times.foldl (Fading.decay O halfLife) e := by
  induction times generalizing edges with
  | nil => simp
  | cons now times ih => simp [ih, fadeAll, hon, Function.comp_def]

section

-- With this instance the numeral `2` below carries no proof of its own.
local instance two : Nat.AtLeastTwo 2 := ⟨le_rfl⟩

/-- The arithmetic over the reals. -/
noncomputable def exactDecay : DecayOps ℝ where
  one := 1
  mul := (· * ·)
  max := max
  min := min
  factor := fun age halfLife => 2 ^ (-(age : ℝ) / halfLife)

end

section Exact

variable {halfLife : ℕ}

/-- The factor is positive. -/
lemma exactDecay_factor_pos (age halfLife : ℕ) : 0 < exactDecay.factor age halfLife :=
  Real.rpow_pos_of_pos two_pos _

/-- It is at most one. -/
lemma exactDecay_factor_le_one (age halfLife : ℕ) : exactDecay.factor age halfLife ≤ 1 :=
  Real.rpow_le_one_of_one_le_of_nonpos one_le_two
    (div_nonpos_of_nonpos_of_nonneg (neg_nonpos.mpr age.cast_nonneg) halfLife.cast_nonneg)

/-- Only an edge reinforced at this very moment keeps all of its weight. -/
lemma exactDecay_factor_eq_one_iff (hon : halfLife ≠ 0) (age : ℕ) :
    exactDecay.factor age halfLife = 1 ↔ age = 0 := by
  have hhalf : (halfLife : ℝ) ≠ 0 := Nat.cast_ne_zero.mpr hon
  constructor
  · intro h
    by_contra hage
    have hneg : -(age : ℝ) / halfLife < 0 :=
      div_neg_of_neg_of_pos (neg_neg_of_pos (Nat.cast_pos.mpr (Nat.pos_of_ne_zero hage)))
        (Nat.cast_pos.mpr (Nat.pos_of_ne_zero hon))
    exact (Real.rpow_lt_one_of_one_lt_of_neg one_lt_two hneg).ne h
  · rintro rfl
    simp [exactDecay]

/-- What the calls at these times leave of a weight, if there were no floor. -/
noncomputable def remaining (halfLife lastReinforcedAt : ℕ) (times : List ℕ) : ℝ :=
  (times.map fun now => exactDecay.factor (now - lastReinforcedAt) halfLife).prod

/-- The first call takes its part. -/
lemma remaining_cons (r now : ℕ) (times : List ℕ) : remaining halfLife r (now :: times) =
      exactDecay.factor (now - r) halfLife * remaining halfLife r times := by
  simp [remaining]

/-- So does the last one. -/
lemma remaining_append (r now : ℕ) (times : List ℕ) : remaining halfLife r (times ++ [now]) =
      remaining halfLife r times * exactDecay.factor (now - r) halfLife := by
  simp [remaining]

/-- Something remains. -/
lemma remaining_pos (r : ℕ) (times : List ℕ) : 0 < remaining halfLife r times := by
  refine prod_pos fun x hx => ?_
  obtain ⟨now, -, rfl⟩ := mem_map.mp hx
  exact exactDecay_factor_pos _ _

/-- Nothing is gained. -/
lemma remaining_le_one (r : ℕ) (times : List ℕ) : remaining halfLife r times ≤ 1 := by
  induction times with
  | nil => simp [remaining]
  | cons now times ih =>
    rw [remaining_cons]
    exact mul_le_one₀ (exactDecay_factor_le_one _ _) (remaining_pos r times).le ih

/-- Nothing is lost just if no time has passed. -/
lemma remaining_eq_one_iff (hon : halfLife ≠ 0) (r : ℕ) (times : List ℕ) :
    remaining halfLife r times = 1 ↔ ∀ now ∈ times, now ≤ r := by
  induction times with
  | nil => simp [remaining]
  | cons now times ih =>
    have hfactor := exactDecay_factor_le_one (now - r) halfLife
    have hrest := @remaining_le_one halfLife r times
    have hpos := exactDecay_factor_pos (now - r) halfLife
    have hpos' := @remaining_pos halfLife r times
    rw [remaining_cons, forall_mem_cons, ← ih, ← Nat.sub_eq_zero_iff_le,
      ← exactDecay_factor_eq_one_iff hon]
    constructor
    · intro h
      -- Both factors are at most one, so neither can be less.
      constructor <;> nlinarith
    · rintro ⟨h₁, h₂⟩
      rw [h₁, h₂, one_mul]

/-- Decay keeps the time of reinforcement. -/
lemma lastReinforcedAt_decay (e : Fading W) (O : DecayOps W) (now : ℕ) :
    (e.decay O halfLife now).lastReinforcedAt = e.lastReinforcedAt := by
  by_cases hnever : e.lastReinforcedAt = 0 <;> simp [Fading.decay, hnever]

variable {e : Fading ℝ}

section

variable (hr : e.lastReinforcedAt ≠ 0)
include hr

/-- One call, in exact arithmetic. -/
lemma weight_decay_exact (now : ℕ) :
    (e.decay exactDecay halfLife now).weight =
      max (e.weight * exactDecay.factor (now - e.lastReinforcedAt) halfLife) (min e.weight 1) := by
  simp [Fading.decay, hr, decayedWeight, exactDecay]

/-- The weight after any number of calls: every call takes its factor from what is left, until the
floor. **Proof sketch.** Induction on the calls. No call takes the weight across the floor, so that
stays. -/
lemma weight_foldl_decay (times : List ℕ) :
    (times.foldl (Fading.decay exactDecay halfLife) e).weight =
      max (min e.weight 1) (e.weight * remaining halfLife e.lastReinforcedAt times) := by
  induction times generalizing e with
  | nil => simp [remaining]
  | cons now times ih =>
    have hlast := @lastReinforcedAt_decay _ halfLife e exactDecay now
    have hweight := @weight_decay_exact halfLife e hr now
    set f := exactDecay.factor (now - e.lastReinforcedAt) halfLife with hf
    set P := remaining halfLife e.lastReinforcedAt times with hP
    have hf₀ : 0 ≤ f := (exactDecay_factor_pos _ _).le
    have hf₁ : f ≤ 1 := exactDecay_factor_le_one _ _
    have hP₀ : 0 ≤ P := (remaining_pos _ _).le
    have hP₁ : P ≤ 1 := remaining_le_one _ _
    rw [foldl_cons, ih (by rwa [hlast]), hlast, hweight, remaining_cons, ← hf, ← hP, ← mul_assoc]
    rcases lt_or_ge e.weight 0 with hw | hw
    · -- A negative weight has no floor.
      have hwf : e.weight ≤ e.weight * f := by nlinarith
      have hwP : e.weight * f ≤ e.weight * f * P := by
        nlinarith [mul_nonpos_of_nonpos_of_nonneg hw.le hf₀]
      rw [min_eq_left (hw.le.trans zero_le_one), max_eq_left hwf, max_eq_right (hwf.trans hwP)]
      exact max_eq_right ((min_le_left _ _).trans hwP)
    have hfloor : min (max (e.weight * f) (min e.weight 1)) 1 = min e.weight 1 := by
      have hle : e.weight * f ≤ e.weight := mul_le_of_le_one_right hw hf₁
      rcases le_total e.weight 1 with h | h
      · simp [h, hle]
      · simp [h]
    have hmin : min e.weight 1 * P ≤ min e.weight 1 :=
      mul_le_of_le_one_right (le_min hw zero_le_one) hP₁
    rw [hfloor, max_mul_of_nonneg _ _ hP₀]
    rw [max_comm (e.weight * f * P), ← max_assoc, max_eq_left hmin]

end

/-- The floor hides the earlier calls, or they took nothing. **Proof sketch.** Above the floor, the
earlier calls left all of the weight; a product of factors of at most one is one only if all are. -/
lemma weight_foldl_decay_eq_iff (hon : halfLife ≠ 0) (hr : e.lastReinforcedAt ≠ 0)
    (earlier : List ℕ) (last : ℕ) :
    ((earlier ++ [last]).foldl (Fading.decay exactDecay halfLife) e).weight = max (min e.weight 1)
          (e.weight * exactDecay.factor (last - e.lastReinforcedAt) halfLife) ↔
      (0 ≤ e.weight ∧ e.weight * exactDecay.factor (last - e.lastReinforcedAt) halfLife ≤ 1) ∨
        ∀ now ∈ earlier, now ≤ e.lastReinforcedAt := by
  rw [← remaining_eq_one_iff hon, weight_foldl_decay hr, remaining_append]
  set f := exactDecay.factor (last - e.lastReinforcedAt) halfLife
  set P := remaining halfLife e.lastReinforcedAt earlier
  have hf₀ : 0 < f := exactDecay_factor_pos _ _
  have hf₁ : f ≤ 1 := exactDecay_factor_le_one _ _
  have hP₀ : 0 < P := remaining_pos _ _
  have hP₁ : P ≤ 1 := remaining_le_one _ _
  have hPf : P * f ≤ f := mul_le_of_le_one_left hf₀.le hP₁
  constructor
  · intro h
    rcases lt_or_ge e.weight 0 with hw | hw
    · have hmax : ∀ x ≤ f, max (min e.weight 1) (e.weight * x) = e.weight * x := fun x hx =>
        max_eq_right ((min_le_left _ _).trans (by nlinarith))
      rw [hmax f le_rfl, hmax _ hPf] at h
      exact .inr (mul_right_cancel₀ (mul_neg_of_neg_of_pos hw hf₀).ne (by linarith))
    · by_contra hcon
      push Not at hcon
      obtain ⟨habove, hP⟩ := hcon
      have hlt : 1 < e.weight * f := habove hw
      have hone : min e.weight 1 = 1 := min_eq_right (by nlinarith)
      rw [hone, max_eq_right hlt.le] at h
      rcases max_choice 1 (e.weight * (P * f)) with hmax | hmax <;> rw [hmax] at h
      · exact hlt.ne h
      · exact hP (mul_right_cancel₀ (zero_lt_one.trans hlt).ne' (by linarith))
  · rintro (⟨hw, hbelow⟩ | h)
    · have hboth : ∀ x ≤ f, max (min e.weight 1) (e.weight * x) = min e.weight 1 := fun x hxf =>
        max_eq_left (le_min (mul_le_of_le_one_right hw (hxf.trans hf₁))
          ((mul_le_mul_of_nonneg_left hxf hw).trans hbelow))
      rw [hboth f le_rfl, hboth _ hPf]
    · rw [h, one_mul]

/-- After calls in order, none before the reinforcement, the weight of an edge is what the time
since then leaves of it, just if a single call at the last time brings it to the floor or the
earlier calls were made at the moment of the reinforcement. -/
theorem decay_independent_iff (hon : halfLife ≠ 0) {edges : List (Fading ℝ)} {i : ℕ} {e : Fading ℝ}
    (he : edges[i]? = some e) (hr : e.lastReinforcedAt ≠ 0) {earlier : List ℕ} {last : ℕ}
    (horder : (e.lastReinforcedAt :: (earlier ++ [last])).Pairwise (· ≤ ·)) :
    ((earlier ++ [last]).foldl (fadeAll exactDecay halfLife) edges)[i]?.map Fading.weight =
        some (max (min e.weight 1)
          (e.weight * 2 ^ (-((last : ℝ) - e.lastReinforcedAt) / halfLife))) ↔
      (0 ≤ e.weight ∧ e.weight * 2 ^ (-((last : ℝ) - e.lastReinforcedAt) / halfLife) ≤ 1) ∨
        ∀ now ∈ earlier, now = e.lastReinforcedAt := by
  obtain ⟨hafter, -⟩ := pairwise_cons.mp horder
  have hearlier : (∀ now ∈ earlier, now = e.lastReinforcedAt) ↔
      ∀ now ∈ earlier, now ≤ e.lastReinforcedAt :=
    forall₂_congr fun now hnow =>
      ⟨le_of_eq, fun h => h.antisymm (hafter now (mem_append_left _ hnow))⟩
  rw [foldl_fadeAll _ hon, getElem?_map, he, hearlier, ← Nat.cast_sub (hafter last (by simp))]
  exact Option.some_inj.trans (weight_foldl_decay_eq_iff hon hr ..)

/-- An edge of weight 8 and calls three and four half-lives after its reinforcement: the first takes
it to the floor already, as the second alone does. -/
theorem decay_independent_two_calls :
    (([4] ++ [5]).foldl (fadeAll exactDecay 1) [⟨8, 1⟩])[0]?.map Fading.weight =
      some (max (min 8 1) (8 * 2 ^ (-(((5 : ℕ) : ℝ) - ((1 : ℕ) : ℝ)) / (1 : ℕ)))) := by
  refine (decay_independent_iff (by decide)
    (by simp : ([⟨8, 1⟩] : List (Fading ℝ))[0]? = some ⟨8, 1⟩) (by decide) (by simp)).mpr (.inl ?_)
  have hexp : -(((5 : ℕ) : ℝ) - ((1 : ℕ) : ℝ)) / (1 : ℕ) = ((-4 : ℤ) : ℝ) := by norm_num
  rw [hexp, Real.rpow_intCast]
  norm_num

/-- Two calls, one and two half-lives after the reinforcement, take a weight of 8 to 1, not to a
quarter of it. -/
theorem decay_twice_counts_twice :
    ([2, 3].foldl (fadeAll exactDecay 1) [⟨8, 1⟩])[0]?.map Fading.weight = some 1 ∧
      max (min (8 : ℝ) 1) (8 * 2 ^ (-((3 : ℝ) - 1) / 1)) = 2 := by
  have hhalf : (2 : ℝ) ^ (-1 : ℝ) = 1 / 2 := by
    rw [Real.rpow_neg_one]
    norm_num
  have hquarter : (2 : ℝ) ^ (-2 : ℝ) = 1 / 4 := by
    rw [show (-2 : ℝ) = ((-2 : ℤ) : ℝ) by norm_num, Real.rpow_intCast]
    norm_num
  constructor
  · norm_num [fadeAll, Fading.decay, decayedWeight, exactDecay, hhalf, hquarter]
  · norm_num [hquarter]

/-! ## Reinforcement -/

/-- One reinforcement of one edge, by the given arithmetic. The flag says that it is the first. -/
def Fading.reinforce (reinforced : W → Bool → W) (e : Fading W) (now : ℕ) : Fading W :=
  ⟨reinforced e.weight (e.lastReinforcedAt = 0), max now 1⟩

/-- The graph reinforces each of its edges by its floats, at most twice, or leaves it. -/
lemma MemoryGraph.fading_reinforce (L : LearnArith) (g : MemoryGraph) (id : String) (now i : ℕ) :
    ∃ n ≤ 2, ((g.reinforce L id now).intEdges[i]?).map InternalEdge.fading =
      (g.intEdges[i]?).map fun e => (Fading.reinforce L.reinforced · now)^[n] e.fading := by
  rw [reinforce]
  split
  · exact ⟨0, by simp⟩
  · next memId _ =>
    simp only [getElem?_map, getElem?_zipIdx, Option.map_map]
    cases hi : g.intEdges[i]? with
    | none => exact ⟨0, by simp⟩
    | some e =>
      -- Once as an edge of the memory, and once as an association with it.
      refine ⟨(if i ∈ g.intAdjacency[memId]?.getD [] then 1 else 0) +
        if e.kind = .association ∧ e.target = memId then 1 else 0, by split_ifs <;> simp, ?_⟩
      split_ifs <;> simp [*, reinforceEdge, InternalEdge.fading, Fading.reinforce]

/-- An edge with another weight. -/
def Fading.reweight (rescaled : W → W) (e : Fading W) : Fading W :=
  { e with weight := rescaled e.weight }

/-- The graph rescales the weight of an edge by its floats, or leaves it. -/
lemma MemoryGraph.fading_reweightMemory (A : GraphArith) (L : LearnArith) (g : MemoryGraph)
    (id : String) (importance : F32) (i : ℕ) :
    let e' := ((g.reweightMemory A L id importance).2.intEdges[i]?).map InternalEdge.fading
    e' = (g.intEdges[i]?).map InternalEdge.fading ∨
      ∃ stored weights, e' = (g.intEdges[i]?).map fun e =>
        e.fading.reweight (L.rescaled stored weights (A.importanceFactor importance)) := by
  unfold reweightMemory
  split
  · exact .inl rfl
  · dsimp only
    split
    · exact .inl rfl
    · simp only [getElem?_map]
      cases g.intEdges[i]? with
      | none => exact .inl rfl
      | some e =>
        simp only [Option.map_some]
        split
        · exact .inr ⟨_, _, rfl⟩
        · exact .inl rfl

/-- An insertion leaves the edges that are there, and enters others, never reinforced, with the
weight that the importance gives or half of it. -/
lemma MemoryGraph.fadings_addMemoryScoped (A : GraphArith) (g : MemoryGraph) (id text : String)
    (concepts : List String) (importance : F32) (scope : Option String) :
    ∃ entered : List (Fading F32),
      (g.addMemoryScoped A id text concepts importance scope).intEdges.map InternalEdge.fading =
        g.intEdges.map InternalEdge.fading ++ entered ∧
      ∀ e ∈ entered, e = ⟨A.importanceFactor importance, 0⟩ ∨
        e = ⟨A.halve (A.importanceFactor importance), 0⟩ := by
  have hfold (memId : ℕ) (imp : F32) (names : List String) (g : MemoryGraph) : ∃ entered,
      (names.foldl (associate memId imp) g).intEdges.map InternalEdge.fading =
        g.intEdges.map InternalEdge.fading ++ entered ∧ ∀ e ∈ entered, e = ⟨imp, 0⟩ := by
    induction names generalizing g with
    | nil => exact ⟨[], by simp⟩
    | cons name names ih =>
      obtain ⟨entered, heq, hall⟩ := ih (associate memId imp g name)
      refine ⟨⟨imp, 0⟩ :: ⟨imp, 0⟩ :: entered, ?_, by simpa using hall⟩
      rw [foldl_cons, heq]
      simp [associate, addIntEdge, InternalEdge.fading]
  obtain ⟨entered, heq, hall⟩ := hfold
    (g.interner.intern (memKey id) ⟨.memory, id, text, A.importanceFactor importance⟩).1
    (A.importanceFactor importance) (normalizeConcepts A g.vocab concepts)
    { g with interner :=
        (g.interner.intern (memKey id) ⟨.memory, id, text, A.importanceFactor importance⟩).2 }
  unfold addMemoryScoped
  dsimp only
  generalize hmid : (if 1 < (normalizeConcepts A g.vocab concepts).length then _ else _ :
    MemoryGraph) = mid
  have hedges : mid.intEdges.map InternalEdge.fading =
      g.intEdges.map InternalEdge.fading ++ entered := by
    rw [← heq, ← hmid]
    split <;> rfl
  rw [← (mid.takePrevious_eq scope).2.1] at hedges
  unfold chain
  split
  · refine ⟨entered ++ [⟨A.halve (A.importanceFactor importance), 0⟩], ?_, fun e he => ?_⟩
    · rw [← append_assoc, ← hedges]
      simp [addIntEdge, InternalEdge.fading]
    · rcases mem_append.mp he with he | he
      · exact .inl (hall e he)
      · exact .inr (mem_singleton.mp he)
  · exact ⟨entered, hedges, fun e he => .inl (hall e he)⟩

/-- A reinforcement over the reals: by half the first time, by less and less later, and at most
up to `8`. -/
noncomputable def exactReinforced (weight : ℝ) (first : Bool) : ℝ :=
  min (weight * if first then 1.5 else 1 + 0.1 / (1 + weight)) 8

variable (importance : ℝ)

/-- The weight that an importance gives to the edges of a memory. -/
noncomputable def exactImportanceFactor : ℝ :=
  if importance ≤ 0 then 0.1 else √importance

/-- What happens to an edge of a memory after its insertion. -/
inductive Touch
  | reinforce (now : ℕ)
  | decay (now halfLife : ℕ)
  /-- The ratio of the new importance factor and the old one. -/
  | reweight (ratio : ℝ)

/-- The edge afterwards, over the reals. -/
noncomputable def Touch.apply (e : Fading ℝ) : Touch → Fading ℝ
  | .reinforce now => e.reinforce exactReinforced now
  | .decay now halfLife => if halfLife = 0 then e else e.decay exactDecay halfLife now
  | .reweight ratio => e.reweight fun weight => min (max (weight * ratio) 0.01) 8

/-- A reinforcement keeps a weight above a bound just if the cap is not below it. -/
lemma le_exactReinforced_iff {b w : ℝ} (hw : 0 < w) (hb : b ≤ w) (first : Bool) :
    b ≤ exactReinforced w first ↔ b ≤ 8 := by
  refine ⟨fun h => h.trans (min_le_right _ _), fun h => le_min (hb.trans ?_) h⟩
  refine le_mul_of_one_le_right hw.le ?_
  cases first
  · simpa using by positivity
  · norm_num

/-- A decay does not raise a weight, nor takes it below the floor. -/
lemma weight_decay_bounds (hw : 0 < e.weight) (now : ℕ) :
    min e.weight 1 ≤ (e.decay exactDecay halfLife now).weight ∧
      (e.decay exactDecay halfLife now).weight ≤ e.weight := by
  by_cases hr : e.lastReinforcedAt = 0
  · simp [Fading.decay, hr]
  · rw [weight_decay_exact hr]
    exact ⟨le_max_right _ _, max_le (mul_le_of_le_one_right hw.le (exactDecay_factor_le_one _ _))
      (min_le_left _ _)⟩

/-- Whatever happens to an edge, its weight stays positive. -/
lemma Touch.weight_pos (hw : 0 < e.weight) (touch : Touch) : 0 < (touch.apply e).weight := by
  cases touch with
  | reinforce now =>
    refine lt_min (mul_pos hw ?_) (by norm_num)
    split <;> positivity
  | decay now halfLife =>
    rw [apply]
    split
    · exact hw
    · exact (lt_min hw one_pos).trans_le (weight_decay_bounds hw now).1
  | reweight ratio => exact lt_min (lt_max_of_lt_right (by norm_num)) (by norm_num)

/-- Weights stay positive. -/
lemma Touch.weight_foldl_pos (touches : List Touch) (hw : 0 < e.weight) :
    0 < (touches.foldl apply e).weight :=
  Loop.foldl_induction (P := (0 < Fading.weight ·)) touches hw fun t _ _ he => t.weight_pos he

/-- The factor is positive. -/
lemma exactImportanceFactor_pos : 0 < exactImportanceFactor importance := by
  unfold exactImportanceFactor
  split
  · norm_num
  · exact Real.sqrt_pos.mpr (by linarith)

/-- An edge as the insertion of its memory enters it: a temporal one with half of the weight. -/
noncomputable def enteredEdge (half : Bool) : Fading ℝ :=
  ⟨if half then 0.5 * exactImportanceFactor importance else exactImportanceFactor importance, 0⟩

/-- Whether the weight is cut to `8`. -/
def Touch.Caps : Touch → Prop
  | .decay _ _ => False
  | _ => True

/-- A weight of at most `8` stays one, and every touch that cuts the weight leads to one. -/
lemma Touch.weight_le_eight (hw : 0 < e.weight) (touch : Touch) (h : touch.Caps ∨ e.weight ≤ 8) :
    (touch.apply e).weight ≤ 8 := by
  cases touch with
  | reinforce now | reweight ratio => exact min_le_right _ _
  | decay now halfLife =>
    have hle := h.resolve_left id
    rw [apply]
    split
    · exact hle
    · exact (weight_decay_bounds hw now).2.trans hle

/-- **The largest weights.** An edge that was never cut to `8` has its first weight; any other has
at most `8`. **Proof sketch.** Induction on the history. Only reinforced edges decay, so the first
change of an edge cuts its weight. -/
lemma Touch.foldl_apply_cases (touches : List Touch) (hw : 0 < e.weight)
    (hnew : e.lastReinforcedAt = 0) :
    ((∀ t ∈ touches, ¬ t.Caps) ∧ touches.foldl apply e = e) ∨
      (∃ t ∈ touches, t.Caps) ∧ (touches.foldl apply e).weight ≤ 8 := by
  induction touches with
  | nil => exact .inl ⟨by simp, rfl⟩
  | cons t touches ih =>
    rw [foldl_cons]
    by_cases hcaps : t.Caps
    · refine .inr ⟨⟨t, mem_cons_self, hcaps⟩, (Loop.foldl_induction
        (P := fun e : Fading ℝ => 0 < e.weight ∧ e.weight ≤ 8) touches
        ⟨t.weight_pos hw, t.weight_le_eight hw (.inl hcaps)⟩ fun t _ _ he => ?_).2⟩
      exact ⟨t.weight_pos he.1, t.weight_le_eight he.1 (.inr he.2)⟩
    · obtain ⟨now, halfLife, rfl⟩ : ∃ now halfLife, t = .decay now halfLife := by
        cases t with
        | decay now halfLife => exact ⟨now, halfLife, rfl⟩
        | _ => exact absurd trivial hcaps
      have hsame : (Touch.decay now halfLife).apply e = e := by
        simp [apply, Fading.decay, hnew]
      rw [hsame]
      rcases ih with ⟨hnone, heq⟩ | ⟨⟨t, ht, hcaps⟩, hle⟩
      · exact .inl ⟨forall_mem_cons.mpr ⟨hcaps, hnone⟩, heq⟩
      · exact .inr ⟨⟨t, mem_cons_of_mem _ ht, hcaps⟩, hle⟩

/-- The importances that enter an edge with a weight of at most `8`. -/
lemma weight_enteredEdge_le_iff (half : Bool) :
    (enteredEdge importance half).weight ≤ 8 ↔ importance ≤ if half then 256 else 64 := by
  have hsq (c : ℝ) (hc : 0.1 ≤ c) : exactImportanceFactor importance ≤ c ↔ importance ≤ c ^ 2 := by
    unfold exactImportanceFactor
    split
    · next hle => exact ⟨fun _ => hle.trans (sq_nonneg c), fun _ => hc⟩
    · exact Real.sqrt_le_left (by linarith)
  cases half with
  | false => simpa [enteredEdge, show (8 : ℝ) ^ 2 = 64 by norm_num] using hsq 8 (by norm_num)
  | true =>
    have h := hsq 16 (by norm_num)
    rw [show (16 : ℝ) ^ 2 = 256 by norm_num] at h
    rw [if_pos rfl, ← h, enteredEdge, if_pos rfl]
    constructor <;> intro h <;> linarith

/-- **Rehearsal and the cap.** After any history of an edge of a memory, a reinforcement does not
decrease its weight just if it was entered for an importance of at most 64, or of at most 256 with
half of the weight, or was reinforced or reweighted before. -/
theorem reinforce_raises_iff (half : Bool) (touches : List Touch) (now : ℕ) :
    let e := touches.foldl Touch.apply (enteredEdge importance half)
    e.weight ≤ (e.reinforce exactReinforced now).weight ↔
      (importance ≤ if half then 256 else 64) ∨ ∃ t ∈ touches, t.Caps := by
  have hpos : 0 < (enteredEdge importance half).weight := by
    have := exactImportanceFactor_pos importance
    unfold enteredEdge
    split <;> positivity
  refine (le_exactReinforced_iff (Touch.weight_foldl_pos touches hpos) le_rfl _).trans ?_
  rcases Touch.foldl_apply_cases touches hpos rfl with ⟨hnone, heq⟩ | ⟨hsome, hle⟩
  · rw [heq, weight_enteredEdge_le_iff]
    exact ⟨.inl, fun h => h.resolve_right fun ⟨t, ht, hcaps⟩ => hnone t ht hcaps⟩
  · exact iff_of_true hle (.inr hsome)

/-- A memory of importance 100: its edges start at 10, and rehearsing it takes them to 8. -/
theorem reinforce_lowers_important :
    ((enteredEdge 100 false).reinforce exactReinforced 1).weight <
      (enteredEdge 100 false).weight := by
  have hten : (enteredEdge 100 false).weight = 10 := by
    rw [enteredEdge, if_neg (by decide), exactImportanceFactor, if_neg (by norm_num),
      show (100 : ℝ) = 10 ^ 2 by norm_num, Real.sqrt_sq (by norm_num)]
  rw [hten]
  exact (min_le_right _ _).trans_lt (by norm_num)

/-- The calls of `reinforce` and `decay_edges` for an edge, at their times. -/
def rehearsals (halfLife : ℕ) (calls : List (ℕ × Bool)) : List Touch :=
  calls.map fun c => if c.2 then .reinforce c.1 else .decay c.1 halfLife

/-- Rehearsals keep a weight above a bound that decay keeps. -/
lemma le_weight_rehearsals {b : ℝ} (hb : b ≤ 1 ∨ halfLife = 0 ∧ b ≤ 8) (calls : List (ℕ × Bool))
    (hpos : 0 < e.weight) (hle : b ≤ e.weight) :
    b ≤ ((rehearsals halfLife calls).foldl Touch.apply e).weight := by
  induction calls generalizing e with
  | nil => exact hle
  | cons call calls ih =>
    refine ih (Touch.weight_pos hpos _) ?_
    dsimp only
    split
    · refine (le_exactReinforced_iff hpos hle _).mpr ?_
      rcases hb with h | h
      · linarith
      · exact h.2
    · rw [Touch.apply]
      split
      · exact hle
      next hon =>
      exact (le_min hle (hb.resolve_right fun h => hon h.1)).trans (weight_decay_bounds hpos _).1

/-- A reinforcement leaves at most `8`, and a decay three half-lives later takes that to `1`. -/
lemma weight_rehearsed_le_one (hon : halfLife ≠ 0) (w : ℝ) :
    ((rehearsals halfLife [(1, true), (1 + 3 * halfLife, false)]).foldl Touch.apply
      ⟨w, 0⟩).weight ≤ 1 := by
  have heighth : exactDecay.factor (1 + 3 * halfLife - 1) halfLife = 1 / 8 := by
    have hexp : -((3 * halfLife : ℕ) : ℝ) / halfLife = ((-3 : ℤ) : ℝ) := by
      have : (halfLife : ℝ) ≠ 0 := Nat.cast_ne_zero.mpr hon
      push_cast
      field_simp
    rw [Nat.add_sub_cancel_left]
    show (2 : ℝ) ^ (-((3 * halfLife : ℕ) : ℝ) / halfLife) = _
    rw [hexp, Real.rpow_intCast]
    norm_num
  have hcap : exactReinforced w true ≤ 8 := min_le_right _ _
  simp only [rehearsals, map_cons, map_nil, foldl_cons, foldl_nil, Touch.apply, if_true,
    Bool.false_eq_true, if_false, if_neg hon, Fading.reinforce, max_self, decide_true]
  rw [weight_decay_exact (by simp), heighth]
  exact max_le (by linarith) (min_le_right _ _)

/-- **Decay and the baseline.** An edge of a memory of positive importance keeps its first weight
through all calls just if that weight is not above the floor, or nothing decays and it is not above
the cap. No decay raises it. **Proof sketch.** The floor of a decay is the weight or `1`. A weight
above `1` is lost by a reinforcement, which leaves at most `8`, and a decay three half-lives later.
-/
theorem baseline_kept_iff {importance : ℝ} (hi : 0 < importance) (halfLife : ℕ) :
    ((∀ calls : List (ℕ × Bool), calls.Pairwise (·.1 ≤ ·.1) → √importance ≤
        ((rehearsals halfLife calls).foldl Touch.apply ⟨√importance, 0⟩).weight) ↔
      importance ≤ 1 ∨ halfLife = 0 ∧ importance ≤ 64) ∧
    ∀ calls now, let e := (rehearsals halfLife calls).foldl Touch.apply ⟨√importance, 0⟩
      (e.decay exactDecay halfLife now).weight ≤ e.weight := by
  have hpos := Real.sqrt_pos.mpr hi
  have hsq (c : ℝ) (hc : 0 ≤ c) : √importance ≤ c ↔ importance ≤ c ^ 2 := Real.sqrt_le_left hc
  refine ⟨⟨fun h => ?_, fun h calls _ => le_weight_rehearsals ?_ calls hpos le_rfl⟩,
    fun calls now => (weight_decay_bounds (Touch.weight_foldl_pos _ hpos) now).2⟩
  · by_cases hon : halfLife = 0
    · have := (h [(1, true)] (by simp)).trans (min_le_right _ 8)
      exact .inr ⟨hon, by linarith [(hsq 8 (by norm_num)).mp this]⟩
    · have hone := (h _ (by simp)).trans (weight_rehearsed_le_one hon _)
      exact .inl (by linarith [(hsq 1 zero_le_one).mp hone])
  · rcases h with h | ⟨hoff, h⟩
    · exact .inl ((hsq 1 zero_le_one).mpr (by simpa))
    · exact .inr ⟨hoff, (hsq 8 (by norm_num)).mpr (by linarith)⟩

/-- A memory of importance 1 that is rehearsed once, and two hours pass. -/
theorem baseline_kept_one : (0 : ℝ) < 1 ∧
    √1 ≤ ((rehearsals 3600 [(1, true), (7201, false)]).foldl Touch.apply ⟨√1, 0⟩).weight :=
  ⟨one_pos, (baseline_kept_iff one_pos 3600).1.mpr (.inl le_rfl) _ (by simp)⟩

/-- A memory of importance 4: its edges start at 2, and are at 1 after a rehearsal and a decay. -/
theorem baseline_lost_four :
    ((rehearsals 1 [(1, true), (4, false)]).foldl Touch.apply ⟨√4, 0⟩).weight < √4 := by
  have htwo : √(4 : ℝ) = 2 := by
    rw [show (4 : ℝ) = 2 ^ 2 by norm_num, Real.sqrt_sq zero_le_two]
  rw [htwo]
  exact (weight_rehearsed_le_one one_ne_zero 2).trans_lt one_lt_two

end Exact

end TurboMemory
