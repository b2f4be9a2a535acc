import TurboMemory.Search.Rank

/-!
# Exact search

The exact search path ranks every candidate: `top_of` keeps the best few in one pass over the
candidates, through a bounded buffer with a moving floor, and `finish_exact` turns the head of that
ranking into results, asking for a longer head while deleted and excluded records take up slots.
`select_nth_unstable_by` leaves the order on either side of the pivot open, so the buffer is cut by
an arbitrary `Selection.SelectNth`.

## Main results

* `topOf_isTop` — pruning never loses an element of the final ranking.
* `finishExactLoop_of_isTop` — the loop ends, with the first `topK` results of the full ranking.
-/

set_option autoImplicit false

namespace TurboMemory

open Selection List

variable {S : Type}

/-! ## The best of a stream -/

/-- One candidate: skipped unless it beats the floor and is admitted. A full buffer is cut back to
the best `want`, whose worst score becomes the floor. -/
def topOfStep [Score S] (sel : SelectNth (RankLe (bestFirst (S := S)))) (want : ℕ)
    (admitted : PointOffset → Bool) :
    List (PointOffset × S) × S → PointOffset × S → List (PointOffset × S) × S
  | (kept, floor), (offset, score) =>
    if Score.partialCmp score floor ≠ some .gt ∨ ¬ admitted offset then (kept, floor)
    else
      let kept := kept ++ [(offset, score)]
      if max (satMul want 2) 64 ≤ kept.length then
        let cut := (sel.run kept (want - 1)).take want
        (cut, (cut[want - 1]?.map Prod.snd).getD floor)
      else (kept, floor)

/-- The best `want` of the candidates, best first. -/
def topOf [Score S] (sel : SelectNth (RankLe (bestFirst (S := S))))
    (candidates : List (PointOffset × S)) (want : ℕ) (admitted : PointOffset → Bool) :
    List (PointOffset × S) :=
  if want = 0 then []
  else (sortBy bestFirst
    (candidates.foldl (topOfStep sel want admitted) ([], Score.negInf)).1).take want

/-! ## Results -/

/-- The id a candidate is returned under: the one its offset resolves to, unless it is
excluded. -/
def resolve (idOf : PointOffset → Option String) (exclusion : Option (Finset String))
    (c : PointOffset × S) : Option (String × S) :=
  (idOf c.1).bind fun id =>
    if exclusion.any (id ∈ ·) then none else some (id, c.2)

/-- Walk down the head of a ranking, collecting results until there are `topK`. -/
def collectHits (idOf : PointOffset → Option String) (exclusion : Option (Finset String))
    (topK : ℕ) : List (PointOffset × S) → List (String × S) → List (String × S)
  | [], results => results
  | c :: head, results =>
    match idOf c.1 with
    | none => collectHits idOf exclusion topK head results
    | some id =>
      if exclusion.any (id ∈ ·) then collectHits idOf exclusion topK head results
      else
        let results := results ++ [(id, c.2)]
        if results.length = topK then results
        else collectHits idOf exclusion topK head results

/-- Size of the first search: with an exclusion set active it over-fetches. -/
def firstFetch (exclusion : Option (Finset String)) (topK : ℕ) : ℕ :=
  if exclusion.isSome then satAdd (satMul topK 2) 5 else topK

/-- The loop of `finishExact`: ask for a head of length `want`, and for one twice as long while
results are missing and the ranking goes on. -/
def finishExactLoop (top : ℕ → List (PointOffset × S)) (idOf : PointOffset → Option String)
    (exclusion : Option (Finset String)) (topK : ℕ) : ℕ → ℕ → Option (List (String × S))
  | 0, _ => none
  | fuel + 1, want =>
    let head := top want
    let results := collectHits idOf exclusion topK head []
    if results.length = topK ∨ head.length < want then some results
    else finishExactLoop top idOf exclusion topK fuel (satMul want 2)

/-- Turn the head of an exact ranking into the `topK` results. -/
def finishExact (top : ℕ → List (PointOffset × S)) (idOf : PointOffset → Option String)
    (exclusion : Option (Finset String)) (topK fuel : ℕ) : Option (List (String × S)) :=
  finishExactLoop top idOf exclusion topK fuel (firstFetch exclusion topK)

/-! ## Pruning is sound -/

section LinearOrder

variable {S : Type} [LinearOrder S] [OrderBot S]
  {sel : SelectNth (RankLe (bestFirst (S := S)))} {want : ℕ} {admitted : PointOffset → Bool}

/-- What the buffer knows about the candidates so far: those it dropped (`D`) are all outranked by
`want` of those it keeps (`A`), whose scores are at least the floor. -/
structure TopOfInv (want : ℕ) (seen : List (PointOffset × S)) (kept : List (PointOffset × S))
    (floor : S) (A B D : List (PointOffset × S)) : Prop where
  kept_perm : kept.Perm (A ++ B)
  seen_perm : seen.Perm (A ++ B ++ D)
  full : floor = ⊥ ∧ D = [] ∨ want ≤ A.length
  outranked : ∀ a ∈ A, ∀ d ∈ D, RankLe bestFirst a d
  above : ∀ a ∈ A, floor ≤ a.2

/-- An empty buffer and no floor. -/
lemma TopOfInv.init : TopOfInv (S := S) want [] [] ⊥ [] [] [] :=
  ⟨.refl _, .refl _, .inl ⟨rfl, rfl⟩, by simp, by simp⟩

variable {seen kept A B D : List (PointOffset × S)} {floor : S}

section

variable (h : TopOfInv want seen kept floor A B D)
include h

/-- A candidate that only ties the floor is newer than everything kept, so it is outranked. -/
lemma TopOfInv.skip {c : PointOffset × S} (hc : c.2 ≤ floor)
    (hfin : c.2 ≠ ⊥) (hnewer : ∀ a ∈ seen, a.1 ≤ c.1) :
    TopOfInv want (seen ++ [c]) kept floor A B (D ++ [c]) := by
  have hfloor : floor ≠ ⊥ := fun hbot => hfin (le_bot_iff.mp (hbot ▸ hc))
  refine ⟨h.kept_perm, ?_, .inr ?_, ?_, h.above⟩
  · rw [← append_assoc]
    exact h.seen_perm.append_right [c]
  · exact h.full.resolve_left fun hbot => hfloor hbot.1
  · intro a ha d hd
    rcases mem_append.mp hd with hd | hd
    · exact h.outranked a ha d hd
    · obtain rfl : d = c := by simpa using hd
      have hseen : a ∈ seen := h.seen_perm.mem_iff.mpr (by simp [ha])
      rw [bestFirst_rankLe_iff]
      rcases (hc.trans (h.above a ha)).lt_or_eq with hlt | heq
      · exact .inl hlt
      · exact .inr ⟨heq.symm, hnewer a hseen⟩

/-- A candidate above the floor is kept. -/
lemma TopOfInv.push (c : PointOffset × S) :
    TopOfInv want (seen ++ [c]) (kept ++ [c]) floor A (B ++ [c]) D := by
  refine ⟨?_, ?_, h.full, h.outranked, h.above⟩
  · rw [← append_assoc]
    exact h.kept_perm.append_right [c]
  · have hswap : (A ++ B ++ D ++ [c]).Perm (A ++ (B ++ [c]) ++ D) := by
      simp only [append_assoc]
      exact ((perm_append_comm).append_left B).append_left A
    exact (h.seen_perm.append_right [c]).trans hswap

/-- Cutting a full buffer back to its best `want` drops only what those outrank. -/
lemma TopOfInv.cut (hwant : 0 < want) (hlen : want ≤ kept.length) :
    let T := sel.run kept (want - 1)
    TopOfInv want seen (T.take want) ((((T.take want)[want - 1]?).map Prod.snd).getD floor)
      (T.take want) [] (T.drop want ++ D) := by
  intro T
  have hTperm : T.Perm kept := sel.perm kept (want - 1)
  have hTlen : want ≤ T.length := by rw [hTperm.length_eq]; exact hlen
  have hsucc : want - 1 + 1 = want := by omega
  have hranked := sel.ranked kept (want - 1) (by omega)
  have hlast := sel.nth_last kept (want - 1)
  rw [hsucc] at hranked hlast
  have htake : (T.take want).length = want := by rw [length_take]; omega
  have hsplit : kept.Perm (T.take want ++ T.drop want) := by
    rw [take_append_drop]
    exact hTperm.symm
  refine ⟨by simp, ?_, .inr htake.ge, ?_, ?_⟩
  · rw [append_nil, ← append_assoc]
    exact h.seen_perm.trans ((h.kept_perm.symm.trans hsplit).append_right D)
  · intro a ha d hd
    rcases mem_append.mp hd with hd | hd
    · exact hranked a ha d hd
    · -- The best `want` of the buffer outrank what `want` of the buffer outranked.
      have hA : want ≤ A.length := h.full.resolve_left fun hbot => by simp [hbot.2] at hd
      have htop : IsTop (RankLe bestFirst) want (A ++ B)
          ((T.take want).insertionSort (RankLe bestFirst)) := by
        refine ⟨pairwise_insertionSort _ _, T.drop want, ?_, ?_, ?_⟩
        · exact h.kept_perm.symm.trans (hsplit.trans ((perm_insertionSort _ _).symm.append_right _))
        · intro x hx y hy
          exact hranked x ((mem_insertionSort _).mp hx) y hy
        · left
          rw [length_insertionSort, htake]
      exact htop.dominates (.refl _) hA (fun a ha => h.outranked a ha d hd) a
        ((mem_insertionSort _).mpr ha)
  · intro a ha
    obtain ⟨z, hz⟩ : ∃ z, T[want - 1]? = some z :=
      ⟨T[want - 1], getElem?_eq_getElem (by omega)⟩
    have hz' : (T.take want)[want - 1]? = some z := by
      rw [getElem?_take_of_lt (by omega), hz]
    have hrank := (bestFirst_rankLe_iff a z).mp (hlast z hz a ha)
    rw [hz', Option.map_some, Option.getD_some]
    rcases hrank with hlt | ⟨heq, -⟩
    · exact hlt.le
    · exact heq.ge

end

variable (sel admitted) in
/-- One candidate keeps the invariant. -/
lemma topOfInv_step (h : TopOfInv want seen kept floor A B D) (hwant : 0 < want)
    (hlen : seen.length + 1 < usizeMax) {c : PointOffset × S} (hfin : c.2 ≠ ⊥)
    (hnewer : ∀ a ∈ seen, a.1 ≤ c.1) :
    ∃ A' B' D', TopOfInv want (seen ++ [c].filter fun c => admitted c.1)
      (topOfStep sel want admitted (kept, floor) c).1
      (topOfStep sel want admitted (kept, floor) c).2
      A' B' D' := by
  obtain ⟨offset, score⟩ := c
  by_cases hadmitted : admitted offset
  swap
  · exact ⟨A, B, D, by simpa [topOfStep, hadmitted] using h⟩
  have hcmp : Score.partialCmp score floor ≠ some .gt ↔ score ≤ floor := by
    simp [Score.partialCmp, compare_gt_iff_gt]
  have hfilter : [(offset, score)].filter (fun c => admitted c.1) = [(offset, score)] := by
    simp [hadmitted]
  rw [hfilter]
  by_cases hskip : score ≤ floor
  · refine ⟨A, B, D ++ [(offset, score)], ?_⟩
    simpa [topOfStep, hcmp.mpr hskip] using h.skip hskip hfin hnewer
  · have hpush := h.push (offset, score)
    simp only [topOfStep, hcmp, hskip, hadmitted, not_true, or_self, if_false]
    split
    · next hcap =>
      -- The buffer is full.  A width beyond the machine word is never reached.
      have hkept : (kept ++ [(offset, score)]).length ≤ seen.length + 1 := by
        have h1 := hpush.kept_perm.length_eq
        have h2 := hpush.seen_perm.length_eq
        simp only [length_append, length_singleton] at *
        omega
      have hle : want ≤ (kept ++ [(offset, score)]).length := by
        simp only [satMul] at hcap
        omega
      exact ⟨_, _, _, hpush.cut hwant hle⟩
    · exact ⟨_, _, _, hpush⟩

/-- Candidates in offset order, with scores above `-∞`, few enough for a machine word. -/
structure Candidates (cands : List (PointOffset × S)) : Prop where
  ordered : cands.Pairwise fun a b => a.1 ≤ b.1
  finite : ∀ c ∈ cands, c.2 ≠ ⊥
  length_lt : cands.length < usizeMax

variable (sel admitted) in
/-- The invariant holds when the stream ends. -/
lemma topOfInv_foldl (hwant : 0 < want) (rest seen kept : List (PointOffset × S)) (floor : S)
    (hinv : ∃ A B D, TopOfInv want seen kept floor A B D)
    (hnewer : ∀ a ∈ seen, ∀ c ∈ rest, a.1 ≤ c.1) (hord : rest.Pairwise fun a b => a.1 ≤ b.1)
    (hfin : ∀ c ∈ rest, c.2 ≠ ⊥) (hlen : seen.length + rest.length < usizeMax) :
    ∃ A B D, TopOfInv want (seen ++ rest.filter fun c => admitted c.1)
      (rest.foldl (topOfStep sel want admitted) (kept, floor)).1
      (rest.foldl (topOfStep sel want admitted) (kept, floor)).2 A B D := by
  induction rest generalizing seen kept floor with
  | nil => simpa using hinv
  | cons c rest ih =>
    obtain ⟨A, B, D, hinv⟩ := hinv
    rw [pairwise_cons] at hord
    rw [length_cons] at hlen
    have hone : ([c].filter fun c => admitted c.1).length ≤ 1 := length_filter_le _ _
    have hstep := topOfInv_step sel admitted hinv hwant (by omega)
      (hfin c (by simp)) fun a ha => hnewer a ha c (by simp)
    have htail := ih (seen ++ [c].filter fun c => admitted c.1) _ _ hstep
      (by
        intro a ha c' hc'
        rcases mem_append.mp ha with ha | ha
        · exact hnewer a ha c' (by simp [hc'])
        · obtain rfl : a = c := by simpa using mem_of_mem_filter ha
          exact hord.1 c' hc')
      hord.2 (fun c' hc' => hfin c' (by simp [hc'])) (by rw [length_append]; omega)
    rw [append_assoc, ← filter_append] at htail
    exact htail

/-- **Pruning loses nothing of the final ranking**: one pass with a bounded buffer finds the best
`want` admitted candidates. -/
lemma topOf_isTop {cands : List (PointOffset × S)} (h : Candidates cands) (hwant : 0 < want) :
    IsTop (RankLe bestFirst) want (cands.filter fun c => admitted c.1)
      (topOf sel cands want admitted) := by
  obtain ⟨A, B, D, hinv⟩ := topOfInv_foldl sel admitted hwant cands [] [] ⊥
    ⟨[], [], [], .init⟩ (by simp) h.ordered h.finite (by simpa using h.length_lt)
  rw [nil_append] at hinv
  have hsorted := isTop_take_insertionSort (r := RankLe bestFirst) want
    (cands.foldl (topOfStep sel want admitted) ([], Score.negInf)).1
  have hall : IsTop (RankLe bestFirst) want (A ++ B ++ D) (topOf sel cands want admitted) := by
    rw [topOf, if_neg (by omega), sortBy]
    rcases hinv.full with ⟨-, rfl⟩ | hA
    · rw [append_nil]
      exact hsorted.perm hinv.kept_perm
    · exact (hsorted.perm hinv.kept_perm).append_dominated fun d hd =>
        ⟨A, B, .refl _, hA, fun a ha => hinv.outranked a ha d hd⟩
  exact hall.perm hinv.seen_perm.symm

end LinearOrder

/-! ## The loop ends with the head of the full ranking -/

/-- Collecting stops at `topK` results, and skips nothing before. -/
lemma collectHits_eq (idOf : PointOffset → Option String) (exclusion : Option (Finset String))
    {topK : ℕ} (head : List (PointOffset × S)) (results : List (String × S))
    (h : results.length < topK) : collectHits idOf exclusion topK head results
      = results ++ (head.filterMap (resolve idOf exclusion)).take (topK - results.length) := by
  induction head generalizing results with
  | nil => simp [collectHits]
  | cons c head ih =>
    rw [collectHits, filterMap_cons, resolve]
    cases hid : idOf c.1 with
    | none => simpa using ih results h
    | some id =>
      by_cases hex : exclusion.any (id ∈ ·) = true
      · simpa [hex] using ih results h
      · simp only [hex, Option.bind_some, Bool.false_eq_true, if_false]
        obtain ⟨room, hroom⟩ : ∃ room, topK - results.length = room + 1 :=
          ⟨topK - results.length - 1, by omega⟩
        split
        · next hfull =>
          obtain rfl : room = 0 := by simp at hfull; omega
          simp [hroom]
        · next hmore =>
          simp only [length_append, length_singleton] at hmore
          rw [ih _ (by rw [length_append, length_singleton]; omega), hroom]
          simp only [length_append, length_singleton, append_assoc, take_succ_cons]
          congr 2
          rw [show topK - (results.length + 1) = room by omega]
          rfl

/-- The answer an exact search should give: the candidates that resolve, best first, cut at
`topK`. -/
def exactAnswer [Score S] (idOf : PointOffset → Option String) (exclusion : Option (Finset String))
    (topK : ℕ) (cands : List (PointOffset × S)) : List (String × S) :=
  ((sortBy bestFirst (cands.filter fun c => (resolve idOf exclusion c).isSome)).take topK).filterMap
    (resolve idOf exclusion)

variable {idOf : PointOffset → Option String} {exclusion : Option (Finset String)} {topK : ℕ}

/-- The number of results is the number of elements that resolve. -/
lemma length_filterMap_resolve (l : List (PointOffset × S)) :
    (l.filterMap (resolve idOf exclusion)).length
      = (l.filter fun c => (resolve idOf exclusion c).isSome).length := by
  rw [length_filterMap_eq_countP, countP_eq_length_filter]

/-- Cutting results is cutting the elements that resolve. -/
lemma take_filterMap_resolve (l : List (PointOffset × S)) (j : ℕ) :
    (l.filterMap (resolve idOf exclusion)).take j
      = ((l.filter fun c => (resolve idOf exclusion c).isSome).take j).filterMap
        (resolve idOf exclusion) := by
  induction l generalizing j with
  | nil => simp
  | cons c l ih =>
    cases h : resolve idOf exclusion c with
    | none => simpa [h] using ih j
    | some x => cases j <;> simp [h, ih]

section LinearOrder

variable [LinearOrder S] [OrderBot S]

/-- A head that yields `topK` results, or is the whole ranking, yields the answer. -/
lemma take_filterMap_eq_exactAnswer {want : ℕ} {cands head : List (PointOffset × S)}
    (htop : IsTop (RankLe bestFirst) want cands head)
    (hj : topK ≤ (head.filterMap (resolve idOf exclusion)).length ∨ cands.Perm head) :
    (head.filterMap (resolve idOf exclusion)).take topK
      = exactAnswer idOf exclusion topK cands := by
  rw [length_filterMap_resolve] at hj
  have hcut := htop.filter_take (fun c => (resolve idOf exclusion c).isSome) hj
  have hsort := isTop_take_insertionSort (r := RankLe bestFirst) topK
    (cands.filter fun c => (resolve idOf exclusion c).isSome)
  rw [take_filterMap_resolve, exactAnswer, sortBy, hcut.unique hsort]

/-- **The loop of `finishExact` ends**, with the first `topK` results of the full ranking. **Proof
sketch.** The head doubles while it is shorter than the ranking, so it is the whole ranking once
`want` passes the number of candidates. -/
lemma finishExactLoop_of_isTop {cands : List (PointOffset × S)}
    {top : ℕ → List (PointOffset × S)} (hlen : cands.length < usizeMax)
    (htop : ∀ want, 0 < want → IsTop (RankLe bestFirst) want cands (top want))
    (hk : 0 < topK) (fuel want : ℕ) (hwant : 0 < want) (hfuel : cands.length + 1 - want < fuel) :
    finishExactLoop top idOf exclusion topK fuel want
      = some (exactAnswer idOf exclusion topK cands) := by
  induction fuel generalizing want with
  | zero => omega
  | succ fuel ih =>
    have hhead := htop want hwant
    have hcollect : collectHits idOf exclusion topK (top want) []
        = ((top want).filterMap (resolve idOf exclusion)).take topK := by
      simpa using collectHits_eq idOf exclusion (top want) [] hk
    simp only [finishExactLoop, hcollect]
    split
    · next hdone =>
      congr 1
      refine take_filterMap_eq_exactAnswer hhead ?_
      rcases hdone with hfull | hshort
      · left
        rw [length_take] at hfull
        omega
      · exact .inr (hhead.perm_of_length_lt hshort)
    · next hmore =>
      -- Not exhausted: the head is full, so `want` is at most the number of candidates.
      have hle : want ≤ cands.length := by
        obtain ⟨rest, hperm, -⟩ := hhead.split
        have hsum := hperm.length_eq
        rw [length_append] at hsum
        omega
      have hgrow : want < satMul want 2 := by
        rw [satMul]
        omega
      exact ih _ (by omega) (by omega)

/-- **Exact search path.** Over candidates in offset order with ordered finite scores, the loop of
`finishExact` around `topOf` ends and returns the first `topK` candidates that resolve and are not
excluded, best score first and the lower offset first on a tie. `topK` is at least one, as the
callers see to, or there is no exclusion set. **Proof sketch.** Every head is one of the full
ranking (`topOf_isTop`), so the loop's answer is (`finishExactLoop_of_isTop`). A search for nothing
stops at the first, empty, head. -/
theorem finishExact_topOf (sel : SelectNth (RankLe (bestFirst (S := S))))
    (cands : List (PointOffset × S)) (hcands : Candidates cands) (admitted : PointOffset → Bool)
    (idOf : PointOffset → Option String) (exclusion : Option (Finset String)) (topK : ℕ)
    (hk : 0 < topK ∨ exclusion = none) :
    ∃ enough, ∀ fuel, enough ≤ fuel →
      finishExact (fun want => topOf sel cands want admitted) idOf exclusion topK fuel
        = some (exactAnswer idOf exclusion topK (cands.filter fun c => admitted c.1)) := by
  have hlen : (cands.filter fun c => admitted c.1).length < usizeMax :=
    (length_filter_le _ _).trans_lt hcands.length_lt
  by_cases hpos : 0 < topK
  · refine ⟨cands.length + 2, fun fuel hfuel => ?_⟩
    have hfetch : 0 < firstFetch exclusion topK := by
      rw [firstFetch]
      split
      · simp only [satAdd, satMul, usizeMax]; omega
      · exact hpos
    refine finishExactLoop_of_isTop hlen (fun want hwant => topOf_isTop hcands hwant) hpos fuel
      _ hfetch ?_
    have := length_filter_le (fun c => admitted c.1) cands
    omega
  · obtain rfl : topK = 0 := by omega
    obtain rfl : exclusion = none := hk.resolve_left hpos
    refine ⟨1, fun fuel hfuel => ?_⟩
    obtain ⟨fuel, rfl⟩ : ∃ n, fuel = n + 1 := ⟨fuel - 1, by omega⟩
    simp [finishExact, firstFetch, finishExactLoop, topOf, collectHits, exactAnswer]

/-- Ids for a few offsets; offset `2` has been deleted. -/
def sampleIds : PointOffset → Option String
  | 1 => some "a"
  | 4 => some "c"
  | 6 => some "d"
  | _ => none

/-- The two best of four candidates are a deleted and an excluded one; the search goes on to
the third. -/
theorem finishExact_topOf_past_excluded : ∃ enough, ∀ fuel, enough ≤ fuel →
    finishExact (fun want => topOf (SelectNth.ofSort (RankLe bestFirst))
        [(1, (5 : ℕ)), (2, 9), (4, 9), (6, 7)] want fun _ => true)
      sampleIds (some {"c"}) 1 fuel = some [("d", 7)] :=
  finishExact_topOf (SelectNth.ofSort (RankLe bestFirst)) [(1, (5 : ℕ)), (2, 9), (4, 9), (6, 7)]
    ⟨by decide, by decide, by decide⟩ (fun _ => true) sampleIds (some {"c"}) 1
    (.inl (by decide))

/-- Asked for no results while an exclusion set is active, the loop returns one: the first head is
not empty, and the number of its results never equals zero. -/
theorem finishExact_topOf_zero_with_exclusion : Candidates [(1, (5 : ℕ))] ∧
    (∀ fuel, finishExact (fun want => topOf (SelectNth.ofSort (RankLe bestFirst))
        [(1, (5 : ℕ))] want fun _ => true) sampleIds (some {"c"}) 0 (fuel + 1)
      = some [("a", 5)]) ∧
    exactAnswer sampleIds (some {"c"}) 0 [(1, (5 : ℕ))] = [] :=
  ⟨⟨by decide, by decide, by decide⟩, fun _ => rfl, by decide⟩

end LinearOrder

end TurboMemory
