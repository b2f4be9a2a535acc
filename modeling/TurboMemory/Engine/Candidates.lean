import TurboMemory.Engine.OneEdge
import TurboMemory.Engine.Retention

/-!
# Proposals for a verifier

With a deferred commit the caller asks for pairs, has them vetted, and commits the ones that are
left. The pairs are those of both detection passes, or every memory with its nearest older ones.
The results of a nearest-neighbour search enter as a list of ids with cosines, the best first, or
an error, for each candidate.

## Main results

* `BeliefEngine.proposeLoop_eq_limited` — a detection pass is a loop with a limit.
* `BeliefEngine.mem_visited` — a pass comes to every new record of an allowed role, if it finds
  less than the limit for those of them that are newer than the oldest one.
-/

set_option autoImplicit false

namespace TurboMemory

/-- What a caller asks for: at least this cosine, at most so many pairs of a memory, and none far
below its closest one. -/
structure CandidateQuery where
  minCosine : F32
  perRecord : ℕ
  margin : F32
deriving DecidableEq

/-- The arithmetic of belief revision with differences of cosines. -/
structure CandidateArith extends BeliefArith where
  sub : F32 → F32 → F32

namespace BeliefEngine

/-- The results of the searches for older memories: for a candidate, of a vector, so many, within
a scope. -/
abbrev AnyBeliefSearch :=
  (cand : PointOffset) → Embedding → ℕ → Option String → Except StorageError (List (String × F32))

/-! ## Candidates -/

/-- The pairs of a memory with its neighbours, the nearest first. `taken` pairs were made so far;
`closest` is the cosine of the closest older memory that is current or that this one replaced. -/
def offers (B : CandidateArith) (C : BeliefConfig) (e : Engine) (q : CandidateQuery)
    (superseded : List String) (cand : PointOffset × MetaRecord) :
    List (String × F32) → ℕ → Option F32 → List ProposedSupersession
  | [], _, _ => []
  | (nid, cosine) :: rest, taken, closest =>
    if taken = q.perRecord ∨ B.lt cosine q.minCosine then []
    else if closest.any fun best => B.lt cosine (B.sub best q.margin) then []
    else if nid = cand.2.id then offers B C e q superseded cand rest taken closest
    else if nid ∈ superseded then
      offers B C e q superseded cand rest taken
        (if closest = none ∧ e.graph.graph.beliefHead nid = cand.2.id then some cosine else closest)
    else
      match e.findMetaById nid, e.idIndex[nid]? with
      | some old, some oldOffset =>
        if cand.2.insertSeq ≤ old.insertSeq ∨ old.scope ≠ cand.2.scope ∨
            roleAllowed old.sourceRole C.beliefSourceRoles = false then
          offers B C e q superseded cand rest taken closest
        else
          -- The kind only decides whether a commit hands concepts on.
          let kind := if B.le C.refinementTextThreshold
            (B.textJaccardSimilarity cand.2.text old.text) then .refinement else .contradiction
          ⟨nid, cand.2.id, oldOffset, cand.1, kind, cosine⟩ ::
            offers B C e q superseded cand rest (taken + 1) (some (closest.getD cosine))
      | _, _ => offers B C e q superseded cand rest taken closest

/-- The pairs of one candidate; a superseded memory replaces nothing. -/
def offersFor (B : CandidateArith) (C : BeliefConfig) (e : Engine) (q : CandidateQuery)
    (search : AnyBeliefSearch) (cand : PointOffset × MetaRecord) :
    Except StorageError (List ProposedSupersession) :=
  let superseded := e.graph.graph.supersededIds
  if cand.2.id ∈ superseded then .ok []
  else
    match e.vectors.get cand.1 with
    | none => .ok []
    | some embedding =>
      (search cand.1 embedding (max (q.perRecord * 4) 10) cand.2.scope).map fun neighbors =>
        offers B C e q superseded cand neighbors 0 none

/-- The records from the watermark on that take part, the newest first. -/
def offerable (E : Env) (C : BeliefConfig) (e : Engine) (watermark : ℕ) :
    List (PointOffset × MetaRecord) :=
  ((E.iterate e.metadata.records).filter fun c =>
    watermark ≤ c.2.insertSeq && roleAllowed c.2.sourceRole C.beliefSourceRoles).insertionSort
      fun a b => b.2.insertSeq ≤ a.2.insertSeq

/-- The pairs of all candidates until the limit, and the candidates that were looked at. -/
def offerLoop (E : Env) (B : CandidateArith) (C : BeliefConfig) (e : Engine) (q : CandidateQuery)
    (search : AnyBeliefSearch) (watermark : ℕ) :
    Except StorageError (List ProposedSupersession) × List (PointOffset × MetaRecord) :=
  Loop.limited C.refinementMaxPairsPerCycle (offersFor B C e q search)
    (offerable E C e watermark) []

/-- Every memory with its nearest older ones, for a verifier that can judge meaning. -/
def proposeSupersessionCandidates (E : Env) (B : CandidateArith) (C : BeliefConfig)
    (flags : ConsolidationFlags) (q : CandidateQuery) (search : AnyBeliefSearch)
    (s : BeliefEngine) : Except StorageError (List ProposedSupersession) × BeliefEngine :=
  if q.perRecord = 0 ∨ C.refinementMaxPairsPerCycle = 0 then (.ok [], s)
  else
    let examinedUpTo := s.engine.metadata.nextSeq
    match (offerLoop E B C s.engine q search (s.start C)).1 with
    | .error err => (.error err, s)
    | .ok proposed =>
      (.ok proposed, if flags.deferSupersessionCommit then { s with watermark := examinedUpTo }
        else s)

/-- The pairs of both detection passes. -/
def proposeSupersessions (E : Env) (B : BeliefArith) (C : BeliefConfig)
    (flags : ConsolidationFlags) (annR annC : Ann) (s : BeliefEngine) :
    Except StorageError (List ProposedSupersession) × BeliefEngine :=
  let examinedUpTo := s.engine.metadata.nextSeq
  match proposeRefinements E B C annR s with
  | (.error err, s) => (.error err, s)
  | (.ok refinements, s) =>
    match proposeContradictions E B C annC s with
    | (.error err, s) => (.error err, s)
    | (.ok contradictions, s) =>
      (.ok (refinements ++ contradictions),
        if flags.deferSupersessionCommit then { s with watermark := examinedUpTo } else s)

/-- The detection of a consolidation. An error ends the consolidation before the watermark
moves. -/
def triggerDetection (E : Env) (B : BeliefArith) (C : BeliefConfig) (flags : ConsolidationFlags)
    (annR annC : Ann) (s : BeliefEngine) : BeliefEngine :=
  if flags.deferSupersessionCommit then s
  else
    match checkRefinements E B C annR s with
    | (.error _, s) => s
    | (.ok _, s) =>
      match checkContradictions E B C annC s with
      | (.error _, s) => s
      | (.ok _, s) => s.advanceWatermark

/-! ## What a pass looks at -/

variable {E : Env} {B : BeliefArith} {C : BeliefConfig} {watermark : ℕ} {D : Detection}

/-- The records from the watermark on, the newest first. -/
def fresh (E : Env) (e : Engine) (watermark : ℕ) : List (PointOffset × MetaRecord) :=
  (candidates E e).takeWhile fun c => decide (watermark ≤ c.2.insertSeq)

/-- The pairs of one record, as a list. -/
def pairsOf (E : Env) (B : BeliefArith) (C : BeliefConfig) (e : Engine) (ann : Ann) (D : Detection)
    (cand : PointOffset × MetaRecord) : Except StorageError (List ProposedSupersession) :=
  (proposeOne E B C.beliefSourceRoles e ann D cand).map Option.toList

/-- A detection pass is a loop with a limit over the new records. -/
lemma proposeLoop_eq_limited {e : Engine} {ann : Ann}
    (cands : List (PointOffset × MetaRecord)) (acc : List ProposedSupersession) :
    proposeLoop E B C.beliefSourceRoles e ann D watermark cands acc =
      (Loop.limited D.maxPairs (pairsOf E B C e ann D)
        (cands.takeWhile fun c => decide (watermark ≤ c.2.insertSeq)) acc).1 := by
  induction cands generalizing acc with
  | nil => rfl
  | cons cand cands ih =>
    rw [proposeLoop, List.takeWhile_cons]
    by_cases hseq : watermark ≤ cand.2.insertSeq
    · simp only [hseq, decide_true, if_true, Loop.limited]
      by_cases hmax : D.maxPairs ≤ acc.length
      · rw [if_pos (.inl hmax), if_pos hmax]
      · rw [if_neg (by omega), if_neg hmax, pairsOf]
        cases proposeOne E B C.beliefSourceRoles e ann D cand with
        | error err => rfl
        | ok found => exact ih (acc ++ found.toList)
    · rw [if_pos (.inr (by omega))]
      simp [hseq, Loop.limited]

/-- The records that a pass comes to, of an allowed role. -/
def visited (E : Env) (B : BeliefArith) (C : BeliefConfig) (ann : Ann) (D : Option Detection)
    (s : BeliefEngine) : List (PointOffset × MetaRecord) :=
  match D with
  | none => []
  | some D => (Loop.limited D.maxPairs (pairsOf E B C s.drain.engine ann D)
      (fresh E s.drain.engine (s.start C)) []).2.filter fun c =>
        roleAllowed c.2.sourceRole C.beliefSourceRoles

/-- Less pairs than the limit are found for the new records of an allowed role, the oldest one of
them apart. -/
def Roomy (E : Env) (B : BeliefArith) (C : BeliefConfig) (ann : Ann) (D : Detection)
    (s : BeliefEngine) : Prop :=
  (((fresh E s.drain.engine (s.start C)).filter fun c =>
    roleAllowed c.2.sourceRole C.beliefSourceRoles).dropLast.map
      (Loop.yield (pairsOf E B C s.drain.engine ann D))).sum < D.maxPairs

instance (ann : Ann) (D : Detection) (s : BeliefEngine) : Decidable (Roomy E B C ann D s) :=
  inferInstanceAs (Decidable (_ < _))

/-- A record from the watermark on is fresh. -/
lemma mem_fresh {e : Engine} {o : PointOffset} {r : MetaRecord}
    (hr : e.metadata.records[o]? = some r) (hseq : watermark ≤ r.insertSeq) :
    (o, r) ∈ fresh E e watermark := by
  obtain ⟨before, after, hsplit, hbefore⟩ := candidates_eq_append hr
  have hall : ∀ a ∈ before, decide (watermark ≤ a.2.insertSeq) = true :=
    fun a ha => decide_eq_true (hseq.trans (hbefore a ha).1)
  rw [fresh, hsplit, List.takeWhile_append_of_pos hall, List.takeWhile_cons_of_pos (by simpa)]
  exact List.mem_append_right _ List.mem_cons_self

/-- **A pass with room comes to every new record of an allowed role.** -/
lemma mem_visited {ann : Ann} {s : BeliefEngine}
    {proposed : List ProposedSupersession} (hroomy : Roomy E B C ann D s)
    (hok : (propose E B C ann D s).1 = .ok proposed) {o : PointOffset} {r : MetaRecord}
    (hr : s.drain.engine.metadata.records[o]? = some r) (hseq : s.start C ≤ r.insertSeq)
    (hrole : roleAllowed r.sourceRole C.beliefSourceRoles = true) :
    (o, r) ∈ visited E B C ann (some D) s := by
  refine List.mem_filter.mpr ⟨?_, hrole⟩
  have hloop : (Loop.limited D.maxPairs (pairsOf E B C s.drain.engine ann D)
      (fresh E s.drain.engine (s.start C)) []).1 = .ok proposed := by
    rw [← hok]
    exact (proposeLoop_eq_limited (candidates E s.drain.engine) []).symm
  refine Loop.mem_limited (fun c => roleAllowed c.2.sourceRole C.beliefSourceRoles) hrole _ _ hloop
    (mem_fresh hr hseq) (fun c _ hc => ?_) ?_
  · simp [Loop.yield, pairsOf, proposeOne, hc, Except.map]
  · rw [List.length_nil, Nat.zero_add]
    exact hroomy

end BeliefEngine

end TurboMemory
