import TurboMemory.Tsm.Text

/-!
# Packing texts under a token budget

Stored facts are packed newest first, user facts before the others; generated text is cut to
the complete facts that fit; ordered texts are split into chunks of about equal weight. A set of
selected indexes is the list of its elements in the order in which they were selected. Division and
rounding of floats are parameters (`Tsm.PyFloat`).

## Main results

* `Tsm.packIndexes_spec` — what is kept is among the candidates and within the budget.
* `Tsm.nodup_rolePriority` — every index is a candidate once.
* `Tsm.estimateTokens_fitCompleteFactsToBudget` — a cut text is within its budget.
* `Tsm.partitionByTokenWeight_spec` — the chunks, and what bounds their weight.
-/

set_option autoImplicit false

namespace TurboMemory.Tsm

open List

/-- The arithmetic of floats that the package rounds to integers. -/
structure PyFloat where
  /-- `round(n * share)`, with an exception if `n` is too large for a float. -/
  roundMul : ℤ → ℚ → Except PyError ℤ
  /-- `round(n / m)`. -/
  roundDiv : ℤ → ℤ → ℤ

/-! ## Packing -/

/-- Take each index whose text costs something and still fits. -/
def packIndexes (texts : List Str) (tokenBudget : ℤ) : List ℕ → ℕ → List ℕ
  | [], _ => []
  | index :: candidates, used =>
    let tokens := estimateTokens (texts.getD index [])
    if tokens ≠ 0 ∧ (used + tokens : ℕ) ≤ tokenBudget then
      index :: packIndexes texts tokenBudget candidates (used + tokens)
    else packIndexes texts tokenBudget candidates used

/-- What is kept is among the candidates, in their order, and within the budget. -/
lemma packIndexes_spec (texts : List Str) (tokenBudget : ℤ) (candidates : List ℕ) (used : ℕ) :
    (packIndexes texts tokenBudget candidates used).Sublist candidates ∧ ((used : ℤ) ≤ tokenBudget →
        ((used + totalTokens ((packIndexes texts tokenBudget candidates used).map
          (texts.getD · [])) : ℕ) : ℤ) ≤ tokenBudget) := by
  induction candidates generalizing used with
  | nil => simp [packIndexes]
  | cons index candidates ih =>
    rw [packIndexes]
    split
    case isTrue h =>
      obtain ⟨hsub, hcost⟩ := ih (used + estimateTokens (texts.getD index []))
      refine ⟨hsub.cons_cons index, fun _ => ?_⟩
      have := hcost h.2
      rw [map_cons, totalTokens_cons]
      omega
    case isFalse h =>
      obtain ⟨hsub, hcost⟩ := ih used
      exact ⟨hsub.cons index, hcost⟩

/-- The roles that are packed first, in this order. -/
def userRole : Str := ['u', 's', 'e', 'r']

@[inherit_doc userRole]
def systemRole : Str := ['s', 'y', 's', 't', 'e', 'm']

@[inherit_doc userRole]
def assistantRole : Str := ['a', 's', 's', 'i', 's', 't', 'a', 'n', 't']

variable (roles : List Str) (isDecimal : Char → Bool) (tokenBudget : ℤ)

/-- The indexes of some texts, the newest first. -/
def newestFirst : List ℕ := (range roles.length).reverse

/-- The candidates: by role, and the newest first within a role. -/
def rolePriority : List ℕ :=
  let ofRole (role : Str) := (newestFirst roles).filter fun i => roles.getD i [] = role
  ofRole userRole ++ ofRole systemRole ++ ofRole assistantRole ++
    (newestFirst roles).filter fun i =>
      roles.getD i [] ∉ [userRole, systemRole, assistantRole]

/-- The indexes of the texts that are kept. -/
def packRolePriorityRecentIndexes (texts roles : List Str) (tokenBudget : ℤ) :
    Except PyError (List ℕ) :=
  if texts.length ≠ roles.length then
    .error (.valueError "texts and roles must have the same length")
  else .ok (packIndexes texts tokenBudget (rolePriority roles) 0)

/-- Each index once. -/
lemma nodup_newestFirst : (newestFirst roles).Nodup :=
  nodup_reverse.mpr nodup_range

/-- All indexes. -/
lemma mem_newestFirst {roles : List Str} {i : ℕ} : i ∈ newestFirst roles ↔ i < roles.length := by
  simp [newestFirst]

/-- Candidates are indexes. -/
lemma lt_of_mem_rolePriority {roles : List Str} {i : ℕ} (h : i ∈ rolePriority roles) :
    i < roles.length := by
  simp only [rolePriority, mem_append, mem_filter, mem_newestFirst] at h
  omega

/-- Every index is a candidate at most once: the four groups have different roles. -/
lemma nodup_rolePriority : (rolePriority roles).Nodup := by
  have hnodup := nodup_newestFirst roles
  have hne : userRole ≠ systemRole ∧ userRole ≠ assistantRole ∧ systemRole ≠ assistantRole := by
    decide
  simp only [rolePriority, nodup_append', hnodup.filter, true_and, disjoint_left,
    mem_append, mem_filter, decide_eq_true_eq, mem_cons, not_mem_nil, or_false, not_or, not_and]
  refine ⟨⟨?_, ?_⟩, ?_⟩
  · rintro i ⟨-, hi⟩ - hi'
    exact hne.1 (hi.symm.trans hi')
  · rintro i (⟨-, hi⟩ | ⟨-, hi⟩) - hi'
    · exact hne.2.1 (hi.symm.trans hi')
    · exact hne.2.2 (hi.symm.trans hi')
  · rintro i ((⟨-, hi⟩ | ⟨-, hi⟩) | ⟨-, hi⟩) - h₁ h₂
    · exact absurd hi h₁
    · exact absurd hi h₂
    · exact fun h₃ => h₃ hi

/-! ## Cutting a text to complete facts -/

/-- The lines of a generated text, or its sentences if it has only one line. -/
def factLines (text : Str) : List Str :=
  let lines := ((splitlines text).map strip).filter (· ≠ [])
  if lines.length ≤ 1 then ((splitSentences text).map strip).filter (· ≠ []) else lines

/-- Add a fact to the selected ones if the text that they form fits. -/
def selectFact (selected : List Str) (line : Str) : List Str :=
  let fact := strip (dropBullet isDecimal line)
  if fact = [] then selected
  else
    let candidate := selected ++ ['-' :: ' ' :: fact]
    if (estimateTokens (joinLines candidate) : ℤ) ≤ tokenBudget then candidate else selected

/-- Keep the complete facts of a text that fit. A text that is missing is empty. -/
def fitCompleteFactsToBudget (text : Option Str) (tokenBudget : ℤ) : Str :=
  let text := text.getD []
  if text = [] ∨ tokenBudget ≤ 0 then []
  else joinLines ((factLines text).foldl (selectFact isDecimal tokenBudget) [])

/-- The text that the selected facts form fits, whatever the lines are. -/
lemma estimateTokens_foldl_selectFact {tokenBudget : ℤ} (lines : List Str) {selected : List Str}
    (h : (estimateTokens (joinLines selected) : ℤ) ≤ tokenBudget) :
    (estimateTokens (joinLines (lines.foldl (selectFact isDecimal tokenBudget) selected)) : ℤ) ≤
      tokenBudget := by
  induction lines generalizing selected with
  | nil => exact h
  | cons line lines ih =>
    apply ih
    unfold selectFact
    dsimp only
    split
    · exact h
    · split
      case isTrue hfits => exact hfits
      case isFalse => exact h

/-- A text that was cut to a budget is within it. -/
lemma estimateTokens_fitCompleteFactsToBudget (text : Option Str)
    {tokenBudget : ℤ} (h : 0 ≤ tokenBudget) :
    (estimateTokens (fitCompleteFactsToBudget isDecimal text tokenBudget) : ℤ) ≤ tokenBudget := by
  have hnil : (estimateTokens [] : ℤ) ≤ tokenBudget := by simpa [estimateTokens, strip] using h
  unfold fitCompleteFactsToBudget
  dsimp only
  split
  · exact hnil
  · exact estimateTokens_foldl_selectFact isDecimal _ hnil

/-! ## Chunks of about equal weight -/

/-- The weight of a text in a chunk. -/
def chunkWeight (text : Str) : ℕ := max 1 (estimateTokens text)

/-- How many texts the next chunk takes from the front, and their weight: from one to `maxEnd`, as
many as stay within the target. -/
def chunkEnd (target : ℤ) (maxEnd : ℕ) : List Str → ℕ → ℕ → ℕ × ℕ
  | [], taken, used => (taken, used)
  | text :: texts, taken, used =>
    if maxEnd ≤ taken then (taken, used)
    else if 0 < taken ∧ target < (used + chunkWeight text : ℕ) then (taken, used)
    else chunkEnd target maxEnd texts (taken + 1) (used + chunkWeight text)

/-- Split texts into the given number of chunks. The last one takes what is left. -/
def partitionFrom (F : PyFloat) : ℕ → ℤ → List Str → List (List Str)
  | 0, _, _ => []
  | 1, _, texts => [texts]
  | n + 2, remainingTokens, texts =>
    let target := max 1 (F.roundDiv remainingTokens (n + 2))
    let found := chunkEnd target (texts.length - (n + 1)) texts 0 0
    let (taken, used) := if found.1 = 0 then (1, chunkWeight (texts.headD [])) else found
    texts.take taken :: partitionFrom F (n + 1) (remainingTokens - used) (texts.drop taken)

/-- Split ordered texts into contiguous chunks with roughly equal token weight. -/
def partitionByTokenWeight (F : PyFloat) (texts : List Str) (chunkCount : ℤ) :
    Except PyError (List (List Str)) :=
  if chunkCount < 1 then .error (.valueError "chunk_count must be at least 1")
  else if texts = [] then .ok []
  else
    .ok (partitionFrom F (min chunkCount texts.length).toNat (texts.map chunkWeight).sum texts)

/-- A chunk takes at least one text, at most `maxEnd`, and more than one only within the target. -/
lemma chunkEnd_spec (target : ℤ) (maxEnd : ℕ) (texts : List Str) (taken used : ℕ) :
    ∃ j ≤ texts.length, ∃ used', used' = used + ((texts.take j).map chunkWeight).sum ∧
      chunkEnd target maxEnd texts taken used = (taken + j, used') ∧ (j ≠ 0 → taken + j ≤ maxEnd) ∧
      (j = 0 ∨ taken + j = 1 ∨ (used' : ℤ) ≤ target) := by
  induction texts generalizing taken used with
  | nil => exact ⟨0, by simp [chunkEnd]⟩
  | cons text texts ih =>
    rw [chunkEnd]
    split_ifs with hend hfull
    · exact ⟨0, by simp⟩
    · exact ⟨0, by simp⟩
    · obtain ⟨j, hj, used', hused, heq, hmax, hcost⟩ := ih (taken + 1) (used + chunkWeight text)
      refine ⟨j + 1, Nat.succ_le_succ hj, used', ?_, by rw [heq, Nat.add_right_comm, Nat.add_assoc],
        by omega, ?_⟩
      · rw [hused, take_succ_cons, map_cons, sum_cons, Nat.add_assoc]
      · rcases hcost with rfl | h | h
        · rw [take_zero, map_nil, sum_nil] at hused
          omega
        · omega
        · exact .inr (.inr h)

/-- A chunk weighs at least one for each of its texts. -/
lemma length_le_sum_chunkWeight (texts : List Str) :
    texts.length ≤ (texts.map chunkWeight).sum := by
  induction texts with
  | nil => simp
  | cons text texts ih =>
    have : 1 ≤ chunkWeight text := le_max_left _ _
    simp only [length_cons, map_cons, sum_cons]
    omega

/-- One of several chunks is the first `j ≥ 1` texts, and the others still get one each. -/
lemma partitionFrom_cut (F : PyFloat) {n : ℕ} {texts : List Str} (hn : n + 1 < texts.length) :
    ∃ j, 1 ≤ j ∧ j + (n + 1) ≤ texts.length ∧
      partitionFrom F (n + 2) (texts.map chunkWeight).sum texts = texts.take j ::
        partitionFrom F (n + 1) ((texts.drop j).map chunkWeight).sum (texts.drop j) ∧
      (1 < j → (((texts.take j).map chunkWeight).sum : ℤ) ≤
        F.roundDiv (texts.map chunkWeight).sum (n + 2)) := by
  rw [partitionFrom]
  set target := max 1 (F.roundDiv (texts.map chunkWeight).sum (n + 2)) with htarget
  obtain ⟨j, hj, used, rfl, heq, hmax, hcost⟩ :=
    chunkEnd_spec target (texts.length - (n + 1)) texts 0 0
  have hsum (j : ℕ) : ((texts.map chunkWeight).sum : ℤ) - ((texts.take j).map chunkWeight).sum =
      ((texts.drop j).map chunkWeight).sum := by
    have := congrArg (fun l => (l.map chunkWeight).sum) (take_append_drop j texts)
    simp only [map_append, sum_append] at this
    omega
  simp only [heq, zero_add]
  rcases Nat.eq_zero_or_pos j with rfl | hpos
  · obtain ⟨text, texts, rfl⟩ := exists_cons_of_length_pos (by omega : 0 < texts.length)
    refine ⟨1, le_rfl, by omega, ?_, by omega⟩
    rw [← hsum 1]
    simp
  · refine ⟨j, hpos, by omega, by rw [if_neg (by omega), hsum], fun h => ?_⟩
    have hlen := length_le_sum_chunkWeight (texts.take j)
    rw [length_take, min_eq_left hj] at hlen
    omega

/-- Splitting texts into no more chunks than texts: each one cut off is non-empty, and within the
target if it has several texts. -/
lemma partitionFrom_spec (F : PyFloat) (n : ℕ) (texts : List Str) (hn : n < texts.length) :
    let chunks := partitionFrom F (n + 1) (texts.map chunkWeight).sum texts
    chunks.length = n + 1 ∧ chunks.flatten = texts ∧ (∀ chunk ∈ chunks, chunk ≠ []) ∧
      ∀ before chunk after, chunks = before ++ chunk :: after → after ≠ [] → 1 < chunk.length →
        ((chunk.map chunkWeight).sum : ℤ) ≤
          F.roundDiv ((chunk :: after).flatten.map chunkWeight).sum (after.length + 1) := by
  induction n generalizing texts with
  | zero =>
    refine ⟨rfl, by simp [partitionFrom],
      by simpa [partitionFrom] using ne_nil_of_length_pos hn, fun before chunk after h hafter => ?_⟩
    rw [partitionFrom, eq_comm, List.append_eq_cons_iff] at h
    simp_all
  | succ n ih =>
    obtain ⟨j, hpos, hj, heq, hcost⟩ := partitionFrom_cut F hn
    obtain ⟨hlen, hflat, hne, hbound⟩ := ih (texts.drop j) (by rw [length_drop]; omega)
    dsimp only
    rw [heq]
    refine ⟨by rw [length_cons, hlen], by rw [flatten_cons, hflat, take_append_drop], ?_, ?_⟩
    · refine forall_mem_cons.mpr ⟨fun h => ?_, hne⟩
      have := congrArg length h
      rw [length_take, length_nil] at this
      omega
    · rintro (_ | ⟨head, before⟩) chunk after h hafter hlong
      · obtain ⟨rfl, rfl⟩ := cons_eq_cons.mp h
        rw [length_take, min_eq_left (by omega)] at hlong
        rw [flatten_cons, hflat, take_append_drop, hlen]
        exact_mod_cast hcost hlong
      · exact hbound before chunk after (cons_eq_cons.mp h).2 hafter hlong

/-- **Chunk partition.** Texts are split into `min chunkCount texts.length` non-empty contiguous
chunks. A chunk of several texts, the last one apart, weighs at most the rounded average of what
remained when it was cut. **Proof sketch.** By induction on the number of chunks: the reservation
leaves a text for every later chunk, and what remains is the weight of the texts left. Two texts
exceed a target of one, so a chunk of several is bounded by the average. -/
theorem partitionByTokenWeight_spec (F : PyFloat) (texts : List Str) (chunkCount : ℤ)
    (hcount : 1 ≤ chunkCount) :
    ∃ chunks, partitionByTokenWeight F texts chunkCount = .ok chunks ∧
      (chunks.length : ℤ) = min chunkCount texts.length ∧ chunks.flatten = texts ∧
      (∀ chunk ∈ chunks, chunk ≠ []) ∧
      ∀ before chunk after, chunks = before ++ chunk :: after → after ≠ [] → 1 < chunk.length →
        ((chunk.map chunkWeight).sum : ℤ) ≤
          F.roundDiv ((chunk :: after).flatten.map chunkWeight).sum (after.length + 1) := by
  rw [partitionByTokenWeight, if_neg (by omega)]
  split
  case isTrue h => exact ⟨[], rfl, by simp [h]; omega, by simp [h]⟩
  case isFalse h =>
    have hpos := length_pos_iff.mpr h
    obtain ⟨n, hn⟩ : ∃ n, (min chunkCount texts.length).toNat = n + 1 :=
      Nat.exists_eq_add_one.mpr (by omega)
    obtain ⟨hlen, hspec⟩ := partitionFrom_spec F n texts (by omega)
    rw [hn]
    exact ⟨_, rfl, by omega, hspec⟩

/-- The quotient as Python rounds it, halves to the even neighbour. -/
def roundHalfEven (n m : ℤ) : ℤ :=
  let q := (2 * n + m) / (2 * m)
  if (2 * n + m) % (2 * m) = 0 ∧ q % 2 ≠ 0 then q - 1 else q

/-- Three texts of one token each in two chunks: the average `3 / 2` is rounded to `2`, so that the
first chunk has two texts. -/
theorem partitionByTokenWeight_three : ∃ first last : List Str,
    partitionByTokenWeight ⟨fun n _ => .ok n, roundHalfEven⟩ [['a'], ['b'], ['c']] 2
      = .ok [first, last] ∧ first.length = 2 ∧
    ((first.map chunkWeight).sum : ℤ) ≤
      roundHalfEven ((first ++ last).map chunkWeight).sum 2 := by
  obtain ⟨chunks, heq, -, -, -, hweight⟩ := partitionByTokenWeight_spec
    ⟨fun n _ => .ok n, roundHalfEven⟩ [['a'], ['b'], ['c']] 2 (by decide)
  have hrun : partitionByTokenWeight ⟨fun n _ => .ok n, roundHalfEven⟩ [['a'], ['b'], ['c']] 2
      = .ok [[['a'], ['b']], [['c']]] := rfl
  cases hrun.symm.trans heq
  have hbound := hweight [] _ _ rfl (by simp) (by simp)
  exact ⟨_, _, heq, rfl, by simpa using hbound⟩

end TurboMemory.Tsm
