import TurboMemory.Tsm.Budget

/-!
# Compaction of one user's memories

When a user's memories no longer fit their token budget, the newest facts are kept and
everything older, earlier gists included, is folded into a few new gists. `planCompaction`
decides what stays, what is folded and what the gists say.

## Main results

* `Tsm.keepIndexes_spec` — what stays is allowed to stay and fits its part of the budget.
* `Tsm.writeGists_within` — the gists fit the other part.
* `Tsm.planCompaction_within_budget` — when there is a plan, and what every plan satisfies.

## Implementation notes

The share of the budget that is set aside for gists is a finite float, hence a rational number;
the check of the settings refuses every other float. A summarizer may raise, and a plan is then
not made.
-/

set_option autoImplicit false

namespace TurboMemory.Tsm

open List

/-! ## The plan -/

/-- The role of a stored gist of what the user said. -/
def gistRole : Str := ['s', 'u', 'm', 'm', 'a', 'r', 'y']

/-- The role of a stored gist of everything else. -/
def gistOtherRole : Str := gistRole ++ '-' :: assistantRole

/-- A writer of gists, from labelled lines and a limit. -/
abbrev Summarize := List Str → ℤ → Except PyError (Option Str)

/-- What a compaction pass does to one user's store. -/
structure CompactionPlan where
  /-- The memories that stay untouched. -/
  keep : List ℕ
  /-- The memories that the gists replace. -/
  fold : List ℕ
  gists : List Str
  gistRoles : List Str
deriving DecidableEq

/-- Whether a role is that of a gist. -/
def isGist (role : Str) : Bool := role = gistRole ∨ role = gistOtherRole

/-- The facts of a stored gist, one per line, without their bullets. -/
def gistLines (text : Str) : List Str :=
  ((splitlines text).map fun line =>
    match strip line with
    | '-' :: ' ' :: rest => strip rest
    | '*' :: ' ' :: rest => strip rest
    | line => line).filter (· ≠ [])

/-- A line labelled with who said it. -/
def labelled (role text : Str) : Str := '[' :: role ++ ']' :: ' ' :: text

/-- The memories that may stay: no gist, and none that must be folded. -/
def keepCandidates (roles : List Str) (foldFirst : List ℤ) : List ℕ :=
  (range roles.length).filter fun i =>
    !isGist (roles.getD i []) && (i : ℤ) ∉ foldFirst

variable (F : PyFloat) (texts roles : List Str) (foldFirst : List ℤ) (tokenBudget : ℤ)
  {chunks : List (Str × List Str)} {isDecimal : Char → Bool} {summarize : Summarize}
  {keep : List ℕ} {gistLimit : ℤ}

/-- The memories that stay, in order. -/
def keepIndexes : Except PyError (List ℕ) := do
  let candidates := keepCandidates roles foldFirst
  let kept ← packRolePriorityRecentIndexes (candidates.map (texts.getD · []))
    (candidates.map (roles.getD · [])) tokenBudget
  .ok ((kept.map (candidates.getD · 0)).insertionSort (· ≤ ·))

/-- The lines a gist of one kind is written from, oldest first: those of earlier gists lead. -/
def tail (fold : List ℕ) (gist speaker : Str) (own : Str → Bool) : List Str :=
  fold.flatMap (fun i => if roles.getD i [] = gist then
    (gistLines (texts.getD i [])).map (labelled speaker) else []) ++
  (fold.filter fun i => !isGist (roles.getD i []) && own (roles.getD i [])).map fun i =>
    labelled (roles.getD i []) (texts.getD i [])

/-- The chunks that are summarized, with the role of each gist. Of four or more chunks, one is for
what the user did not say. -/
def gistChunks (fold : List ℕ)
    (gistLimit gistChunkTokens maxGistChunks : ℤ) : Except PyError (List (Str × List Str)) := do
  let userTail := tail texts roles fold gistRole userRole (· = userRole)
  let otherTail := tail texts roles fold gistOtherRole assistantRole (· ≠ userRole)
  let chunkCount := min maxGistChunks (max 1 (gistLimit / gistChunkTokens))
  let otherChunks := if otherTail ≠ [] ∧ 4 ≤ chunkCount then 1 else 0
  let userChunks := if userTail ≠ [] then chunkCount - otherChunks else 0
  let otherChunks := if userChunks = 0 ∧ otherTail ≠ [] then chunkCount else otherChunks
  let ofUser ← if userChunks ≠ 0 then partitionByTokenWeight F userTail userChunks else .ok []
  let ofOther ← if otherChunks ≠ 0 then partitionByTokenWeight F otherTail otherChunks else .ok []
  .ok (ofUser.map (gistRole, ·) ++ ofOther.map (gistOtherRole, ·))

/-- Write the gist of each chunk: the texts and the roles. The first `extra` gists may have one
token more. -/
def writeGists (isDecimal : Char → Bool) (summarize : Summarize) (base extra : ℤ) :
    ℕ → List (Str × List Str) → Except PyError (List Str × List Str)
  | _, [] => .ok ([], [])
  | position, (role, chunk) :: chunks => do
    let limit := base + if (position : ℤ) < extra then 1 else 0
    let gist := fitCompleteFactsToBudget isDecimal (← summarize chunk limit) limit
    let (gists, gistRoles) ← writeGists isDecimal summarize base extra (position + 1) chunks
    .ok (if gist = [] then (gists, gistRoles) else (gist :: gists, role :: gistRoles))

/-- The part of the budget that is set aside for gists. -/
def gistLimitOf (gistShare : ℚ) : Option Summarize → Except PyError ℤ
  | none => .ok 0
  | some _ => do
    let share ← F.roundMul tokenBudget gistShare
    .ok (max 1 (min (tokenBudget - 1) share))

/-- The plan of a compaction that is needed. -/
def makePlan (isDecimal : Char → Bool) (texts roles : List Str) (tokenBudget : ℤ)
    (summarize : Option Summarize) (gistShare : ℚ) (gistChunkTokens maxGistChunks : ℤ)
    (foldFirst : List ℤ) : Except PyError CompactionPlan := do
  let gistLimit ← gistLimitOf F tokenBudget gistShare summarize
  let keep ← keepIndexes texts roles foldFirst (tokenBudget - gistLimit)
  let fold := (range texts.length).filter (· ∉ keep)
  match summarize with
  | none => .ok ⟨keep, fold, [], []⟩
  | some summarize =>
    let chunks ← gistChunks F texts roles fold gistLimit gistChunkTokens maxGistChunks
    -- Without a chunk nothing is written, and the division is not made.
    let written ← writeGists isDecimal summarize (gistLimit / chunks.length)
      (gistLimit % chunks.length) 0 chunks
    .ok ⟨keep, fold, written.1, written.2⟩

/-- Plan one compaction of a user's memories, given oldest first. -/
def planCompaction (isDecimal : Char → Bool) (texts roles : List Str)
    (tokenBudget : ℤ) (summarize : Option Summarize) (gistShare : ℚ)
    (gistChunkTokens maxGistChunks : ℤ) (foldFirst : List ℤ) :
    Except PyError (Option CompactionPlan) :=
  if texts.length ≠ roles.length then
    .error (.valueError "texts and roles must have the same length")
  else if tokenBudget < 2 then .error (.valueError "token budget must be at least 2")
  else if ¬(0 < gistShare ∧ gistShare < 1) then
    .error (.valueError "gist_share must be between 0 and 1")
  else if gistChunkTokens < 1 ∨ maxGistChunks < 1 then
    .error (.valueError "gist chunk settings must be positive")
  else if totalTokens texts ≤ tokenBudget then .ok none
  else (makePlan F isDecimal texts roles tokenBudget summarize gistShare gistChunkTokens
    maxGistChunks foldFirst).map some

/-! ## What stays -/

section Keep

variable {texts roles : List Str} {foldFirst : List ℤ}

/-- Each index once. -/
lemma nodup_keepCandidates (roles : List Str) (foldFirst : List ℤ) :
    (keepCandidates roles foldFirst).Nodup :=
  nodup_range.filter _

/-- Facts that need not be folded. -/
lemma mem_keepCandidates {i : ℕ} : i ∈ keepCandidates roles foldFirst ↔
      i < roles.length ∧ isGist (roles.getD i []) = false ∧ (i : ℤ) ∉ foldFirst := by
  simp [keepCandidates]

/-- What stays is allowed to stay, is listed once, and fits its part of the budget. **Proof
sketch.** The packed positions are a sublist of `rolePriority`, so they are distinct and inside the
candidates, which are distinct. Sorting only permutes, so the cost is that of the packed positions
(`packIndexes_spec`). -/
lemma keepIndexes_spec {tokenBudget : ℤ} (hbudget : 0 ≤ tokenBudget)
    (h : keepIndexes texts roles foldFirst tokenBudget = .ok keep) :
    keep.Nodup ∧ (∀ i ∈ keep, i ∈ keepCandidates roles foldFirst) ∧
      (totalTokens (keep.map (texts.getD · [])) : ℤ) ≤ tokenBudget := by
  have hnodup := nodup_keepCandidates roles foldFirst
  simp only [keepIndexes, packRolePriorityRecentIndexes, length_map, ne_eq, not_true_eq_false,
    if_false, bind, Except.bind] at h
  generalize keepCandidates roles foldFirst = candidates at *
  obtain ⟨hsub, hcost⟩ := packIndexes_spec (candidates.map (texts.getD · [])) tokenBudget
    (rolePriority (candidates.map (roles.getD · []))) 0
  generalize packIndexes _ _ _ 0 = kept at *
  cases h
  have hlt : ∀ p ∈ kept, p < candidates.length := fun p hp => by
    simpa using lt_of_mem_rolePriority (hsub.subset hp)
  have hperm := perm_insertionSort (· ≤ ·) (kept.map (candidates.getD · 0))
  have hget : ∀ p hp, candidates.getD p 0 = candidates.get ⟨p, hlt p hp⟩ :=
    fun p hp => getD_eq_getElem _ _ (hlt p hp)
  refine ⟨hperm.nodup_iff.mpr (Nodup.map_on ?_ (hsub.nodup (nodup_rolePriority _))), ?_, ?_⟩
  · intro p hp q hq hpq
    rw [hget p hp, hget q hq] at hpq
    exact congrArg Fin.val (hnodup.injective_get hpq)
  · intro i hi
    obtain ⟨p, hp, rfl⟩ := mem_map.mp (hperm.mem_iff.mp hi)
    rw [hget p hp]
    exact get_mem _ _
  · have htexts : (kept.map (candidates.getD · 0)).map (texts.getD · []) =
        kept.map ((candidates.map (texts.getD · [])).getD · []) := by
      rw [map_map]
      refine map_congr_left fun p hp => ?_
      rw [Function.comp_apply, hget p hp, getD_eq_getElem (candidates.map (texts.getD · [])) []
        (by simpa using hlt p hp), getElem_map, get_eq_getElem]
    have htotal := ((hperm.map (texts.getD · [])).map estimateTokens).sum_eq
    rw [htexts] at htotal
    have := hcost (by simpa using hbudget)
    rw [totalTokens, htotal]
    simpa [totalTokens] using this

end Keep

/-! ## What the gists cost -/

/-- The gists of some chunks are within the limits that the chunks have together.

**Proof sketch.** By induction on the chunks: a gist is within its own limit, which is `base` and
one more while the position is below `extra`. -/
lemma writeGists_within {base extra : ℤ}
    (hbase : 0 ≤ base) {position : ℕ} {gists gistRoles : List Str}
    (h : writeGists isDecimal summarize base extra position chunks = .ok (gists, gistRoles)) :
    (totalTokens gists : ℤ) ≤ chunks.length * base + max 0 (extra - position) := by
  induction chunks generalizing position gists gistRoles with
  | nil =>
    cases Except.ok.inj h
    simp
  | cons chunk chunks ih =>
    obtain ⟨role, texts⟩ := chunk
    rw [writeGists] at h
    set limit := base + if (position : ℤ) < extra then 1 else 0 with hlimit
    cases hanswer : summarize texts limit with
    | error e => simp [hanswer, bind, Except.bind] at h
    | ok answer =>
      cases hrest : writeGists isDecimal summarize base extra (position + 1) chunks with
      | error e => simp [hanswer, hrest, bind, Except.bind] at h
      | ok rest =>
        have hnonneg : 0 ≤ limit := by rw [hlimit]; split <;> omega
        have hgist := estimateTokens_fitCompleteFactsToBudget isDecimal answer hnonneg
        have hcost := @ih (position + 1) rest.1 rest.2 hrest
        have htotal : (totalTokens gists : ℤ) ≤ limit + totalTokens rest.1 := by
          simp only [hanswer, hrest, bind, Except.bind, Except.ok.injEq] at h
          split at h
          · cases h
            omega
          · cases h
            rw [totalTokens_cons]
            omega
        have hlength : (((role, texts) :: chunks).length : ℤ) * base =
            chunks.length * base + base := by
          rw [length_cons]
          push_cast
          exact add_one_mul _ _
        rw [hlength]
        push_cast at hcost
        split at hlimit <;> omega

/-! ## Every plan is within the budget -/

/-- The part set aside for gists leaves something for the facts. -/
lemma gistLimitOf_spec {F : PyFloat} {tokenBudget : ℤ} {gistShare : ℚ}
    {summarize : Option Summarize} (hbudget : 2 ≤ tokenBudget)
    (h : gistLimitOf F tokenBudget gistShare summarize = .ok gistLimit) :
    0 ≤ gistLimit ∧ gistLimit ≤ tokenBudget := by
  cases summarize with
  | none =>
    cases h
    omega
  | some _ =>
    simp only [gistLimitOf, bind, Except.bind] at h
    split at h
    · cases h
    · cases h
      omega

/-- The gists of all chunks are within the part that was set aside. -/
lemma writeGists_le
    (hlimit : 0 ≤ gistLimit) {gists gistRoles : List Str}
    (h : writeGists isDecimal summarize (gistLimit / chunks.length) (gistLimit % chunks.length) 0
      chunks = .ok (gists, gistRoles)) : (totalTokens gists : ℤ) ≤ gistLimit := by
  have hcost := writeGists_within (Int.ediv_nonneg hlimit (Int.natCast_nonneg _)) h
  have hdivmod := Int.mul_ediv_add_emod gistLimit chunks.length
  cases chunks with
  | nil =>
    simp only [writeGists, Except.ok.injEq, Prod.mk.injEq] at h
    obtain ⟨rfl, -⟩ := h
    simpa using hlimit
  | cons chunk chunks =>
    have hextra : 0 ≤ gistLimit % ((chunk :: chunks).length : ℤ) :=
      Int.emod_nonneg _ (by simp only [length_cons]; omega)
    omega

/-- What remains of a list and what was taken out of it make up the list. -/
lemma perm_append_filter {n : ℕ} (hnodup : keep.Nodup) (hlt : ∀ i ∈ keep, i < n) :
    (keep ++ (range n).filter (· ∉ keep)).Perm (range n) := by
  rw [perm_ext_iff_of_nodup _ nodup_range]
  · intro i
    simp only [mem_append, mem_filter, mem_range, decide_eq_true_eq]
    have := hlt i
    tauto
  · rw [nodup_append']
    refine ⟨hnodup, nodup_range.filter _, disjoint_left.mpr fun i hi hi' => ?_⟩
    simp only [mem_filter, decide_eq_true_eq] at hi'
    exact hi'.2 hi

section Plan

variable {F : PyFloat} {isDecimal : Char → Bool} {texts roles : List Str} {tokenBudget : ℤ}
  {summarize : Option Summarize} {gistShare : ℚ} {gistChunkTokens maxGistChunks : ℤ}
  {foldFirst : List ℤ}

/-- A computation of two steps succeeds if both do. -/
lemma bind_eq_ok {α β : Type} {x : Except PyError α} {f : α → Except PyError β} {b : β} :
    x >>= f = .ok b ↔ ∃ a, x = .ok a ∧ f a = .ok b := by
  cases x <;> simp [bind, Except.bind]

/-- What stays fits what is left of the budget, and the gists fit the part set aside. -/
lemma makePlan_spec {plan : CompactionPlan} (hlength : texts.length = roles.length)
    (hbudget : 2 ≤ tokenBudget)
    (h : makePlan F isDecimal texts roles tokenBudget summarize gistShare gistChunkTokens
      maxGistChunks foldFirst = .ok plan) : (plan.keep ++ plan.fold).Perm (range texts.length) ∧
      (∀ i ∈ plan.keep, (i : ℤ) ∉ foldFirst ∧ isGist (roles.getD i []) = false) ∧
      ((totalTokens (plan.keep.map (texts.getD · [])) + totalTokens plan.gists : ℕ) : ℤ) ≤
        tokenBudget := by
  obtain ⟨gistLimit, hlimit, h⟩ := bind_eq_ok.mp h
  obtain ⟨keep, hkeep, h⟩ := bind_eq_ok.mp h
  obtain ⟨hnonneg, hle⟩ := gistLimitOf_spec hbudget hlimit
  obtain ⟨hnodup, hmem, hcost⟩ := keepIndexes_spec (by omega) hkeep
  have hallowed := fun i hi => mem_keepCandidates.mp (hmem i hi)
  have hperm := perm_append_filter hnodup fun i hi => hlength ▸ (hallowed i hi).1
  cases summarize with
  | none =>
    cases h
    refine ⟨hperm, fun i hi => ⟨(hallowed i hi).2.2, (hallowed i hi).2.1⟩, ?_⟩
    show ((totalTokens (keep.map (texts.getD · [])) + 0 : ℕ) : ℤ) ≤ tokenBudget
    omega
  | some summarize =>
    obtain ⟨chunks, -, h⟩ := bind_eq_ok.mp h
    obtain ⟨⟨gists, gistRoles⟩, hgists, h⟩ := bind_eq_ok.mp h
    have hwritten := writeGists_le hnonneg hgists
    cases h
    refine ⟨hperm, fun i hi => ⟨(hallowed i hi).2.2, (hallowed i hi).2.1⟩, ?_⟩
    push_cast
    omega

/-- With valid settings there is no plan exactly when everything fits. Every plan keeps and folds
each memory once in all, keeps none that must be folded and no earlier gist, and what it keeps and
its gists are together within the budget. **Proof sketch.** The limit for gists is between zero and
the budget (`gistLimitOf_spec`). What stays fits the rest of the budget (`keepIndexes_spec`), and
the gists fit the limit (`writeGists_le`). -/
theorem planCompaction_within_budget (hlength : texts.length = roles.length)
    (hbudget : 2 ≤ tokenBudget) (hshare : 0 < gistShare ∧ gistShare < 1)
    (hchunk : 1 ≤ gistChunkTokens) (hmax : 1 ≤ maxGistChunks) :
    (planCompaction F isDecimal texts roles tokenBudget summarize gistShare gistChunkTokens
        maxGistChunks foldFirst = .ok none ↔ totalTokens texts ≤ tokenBudget) ∧
      ∀ plan, planCompaction F isDecimal texts roles tokenBudget summarize gistShare
          gistChunkTokens maxGistChunks foldFirst = .ok (some plan) →
        (plan.keep ++ plan.fold).Perm (range texts.length) ∧
        (∀ i ∈ plan.keep, (i : ℤ) ∉ foldFirst ∧ isGist (roles.getD i []) = false) ∧
        ((totalTokens (plan.keep.map (texts.getD · [])) + totalTokens plan.gists : ℕ) : ℤ) ≤
          tokenBudget := by
  rw [planCompaction, if_neg (not_not.mpr hlength), if_neg (by omega), if_neg (not_not.mpr hshare),
    if_neg (by omega)]
  by_cases hfits : (totalTokens texts : ℤ) ≤ tokenBudget
  · simp [hfits]
  rw [if_neg hfits]
  cases hplan : makePlan F isDecimal texts roles tokenBudget summarize gistShare gistChunkTokens
      maxGistChunks foldFirst with
  | error e => exact ⟨⟨nofun, fun h => absurd h hfits⟩, nofun⟩
  | ok made =>
    refine ⟨⟨nofun, fun h => absurd h hfits⟩, fun plan h => ?_⟩
    cases Except.ok.inj h
    exact makePlan_spec hlength hbudget hplan

end Plan

/-- Floats as they behave on small numbers, rounded towards zero. -/
def sampleFloat : PyFloat where
  roundMul n share := .ok (n * share.num / share.den)
  roundDiv n m := n / m

/-- Three facts of ten tokens each, the second of which must be folded. -/
def sampleTexts : List Str :=
  [replicate 40 'a', replicate 40 'b', replicate 40 'c']

/-- A summarizer that answers every chunk with the same two lines. -/
def sampleSummarize : Summarize := fun _ _ =>
  .ok (some (['-', ' ', 'x', '\n'] ++ replicate 12 'y'))

/-- Of three facts under a budget of twenty tokens the newest stays, and the gist of the others
fits beside it. -/
theorem planCompaction_within_budget_sample :
    ∃ plan, planCompaction sampleFloat Char.isDigit sampleTexts [userRole, userRole, userRole] 20
        (some sampleSummarize) (1 / 2) 32 4 [1] = .ok (some plan) ∧
      plan.keep = [2] ∧ plan.fold = [0, 1] ∧ plan.gistRoles = [gistRole] ∧
      ((totalTokens (plan.keep.map (sampleTexts.getD · [])) + totalTokens plan.gists : ℕ) : ℤ) ≤
        20 := by
  obtain ⟨plan, hplan, hkeep, hfold, hroles⟩ :
      ∃ plan, planCompaction sampleFloat Char.isDigit sampleTexts [userRole, userRole, userRole] 20
          (some sampleSummarize) (1 / 2) 32 4 [1] = .ok (some plan) ∧
        plan.keep = [2] ∧ plan.fold = [0, 1] ∧ plan.gistRoles = [gistRole] :=
    ⟨⟨[2], [0, 1], [['-', ' ', 'x', '\n', '-', ' '] ++ replicate 12 'y'], [gistRole]⟩,
      by decide +kernel⟩
  exact ⟨plan, hplan, hkeep, hfold, hroles, ((planCompaction_within_budget (by decide)
    (by decide) (by decide +kernel) (by decide) (by decide)).2 plan hplan).2.2⟩

end TurboMemory.Tsm
