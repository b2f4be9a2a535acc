import TurboMemory.Engine.OneEdge
import TurboMemory.Lib.Traces

/-!
# Demotion without a supersession

A memory is demoted when it is superseded. The edge goes away with either of its memories, but the
factor only with the older one: when the newer memory is deleted or updated, the older one keeps
its factor.

## Main results

* `BeliefEngine.Held.apply` — every operation that leaves no memory without the supersession it was
  demoted for (`BeliefOp.Releases`) keeps the invariant.
* `unburdened_throughout` — along runs of such operations no memory is demoted for nothing.
-/

set_option autoImplicit false

namespace TurboMemory

open CriticalSections List Option MemoryGraph MetadataStore

/-! ## Numbers and places -/

variable {records : List (PointOffset × Record)}

namespace Engine

variable {E : Env} {e e' : Engine}

/-- The same records. -/
lemma Ordered.still (h : e.Ordered) (hstill : Still e e') : e'.Ordered := by
  constructor
  · rw [hstill.provenance, hstill.nextOffset, hstill.nextSeq]
    exact h.below
  · rw [hstill.provenance]
    exact h.ordered
  · rw [hstill.provenance, hstill.idIndex]
    exact h.latest

/-- Numbers are taken. -/
lemma Ordered.allocateAll (h : e.Ordered) (clock : ℕ → ℕ) (ps : List PreparedRecord) :
    ({ e with metadata := (allocateAll clock 0 ps e.metadata).2 } : Engine).Ordered := by
  rw [allocateAll_snd]
  exact ⟨fun o a ho => ⟨(h.below o a ho).1.trans_le (Nat.le_add_right _ _),
    (h.below o a ho).2.trans_le (Nat.le_add_right _ _)⟩, h.ordered, h.latest⟩

/-- A record is dropped. -/
lemma Ordered.removeFromIndexes (h : e.Ordered) (id : String) (offset : PointOffset) :
    (e.removeFromIndexes E id offset).Ordered := by
  obtain ⟨hfiles, hindex⟩ := removeFromIndexes_spec e id offset
  have hprov : ∀ o a, (e.removeFromIndexes E id offset).metadata.records.provenance o = some a →
      e.metadata.records.provenance o = some a := by
    intro o a ho
    rw [provenance_removeFromIndexes] at ho
    split at ho
    · cases ho
    · exact ho
  refine ⟨fun o a ho => ?_, fun o o' a a' hlt ho ho' => ?_, fun o o' a ho ho' => ?_⟩
  · rw [hfiles.metadata]
    exact h.below o a (hprov o a ho)
  · exact h.ordered o o' a a' hlt (hprov o a ho) (hprov o' a' ho')
  · rw [hindex, Std.ExtTreeMap.getElem?_erase] at ho'
    split at ho'
    · cases ho'
    · exact h.latest o o' a (hprov o a ho) ho'

/-- A batch neither moves an indexed record nor drops a supersession. -/
lemma applyBatch_kept (E : Env) (io : Io) (hgraph : e.graph.graph.Ok) (hlater : e.Later records) :
    (∀ (id : String) (o : PointOffset), e.idIndex[id]? = some o →
      (e.applyBatch E io records).2.idIndex[id]? = some o) ∧
    (e.applyBatch E io records).2.graph.graph.supersessions = e.graph.graph.supersessions := by
  rcases happly : e.applyBatch E io records with ⟨r, e'⟩
  obtain ⟨-, n, hids, -⟩ := applyBatch_spec happly
  constructor
  · intro id o ho
    dsimp only
    rw [hids, indexIds, getElem?_foldl_insert_of_ne]
    · exact ho
    · rintro p hp rfl
      exact hlater.enterable.unknown p (mem_of_mem_take hp) (Grouping.mem_of_getElem? ho)
  · rcases applyBatch_graph happly with heq | ⟨heq, -⟩
    · rw [heq]
    · dsimp only
      rw [heq]
      exact (addToGraph_foldl hgraph records).2.1

/-- Later records are entered. -/
lemma Ordered.applyBatch {io : Io} (h : e.Ordered)
    (hlater : e.Later records) : (e.applyBatch E io records).2.Ordered := by
  obtain ⟨hnew, -, hoffset, hseq, hindex⟩ := applyBatch_entered E io hlater.enterable
  refine ⟨fun o a ho => ?_, fun o o' a a' hlt ho ho' => ?_, fun o o' a ho ho' => ?_⟩
  · rw [hoffset, hseq]
    rcases hnew o a ho with ⟨p, hp, rfl, rfl⟩ | ho
    · exact ⟨hlater.enterable.allocated p hp, hlater.below p hp⟩
    · exact h.below o a ho
  · rcases hnew o a ho with ⟨p, hp, rfl, rfl⟩ | ho
    · rcases hnew o' a' ho' with ⟨q, hq, rfl, rfl⟩ | ho'
      · exact hlater.numbered p hp q hq hlt
      · exact absurd hlt (hlater.above p hp o' a' ho').1.asymm
    · rcases hnew o' a' ho' with ⟨q, hq, rfl, rfl⟩ | ho'
      · exact (hlater.above q hq o a ho).2
      · exact h.ordered o o' a a' hlt ho ho'
  · rcases hnew o a ho with ⟨p, hp, rfl, rfl⟩ | ho
    · rcases hindex _ _ ho' with ⟨q, hq, hid, rfl⟩ | ho'
      · rw [inj_on_of_nodup_map hlater.enterable.nodup hq hp hid]
      · exact absurd (Grouping.mem_of_getElem? ho') (hlater.enterable.unknown p hp)
    · rcases hindex _ _ ho' with ⟨q, hq, hid, rfl⟩ | ho'
      · exact (hlater.above q hq o a ho).1.le
      · exact h.latest o o' a ho ho'

end Engine

/-! ## Memories that are demoted for nothing -/

variable {r : Request} {id : String} {o : PointOffset} {t : DemotionTable} {E : Env}

namespace BeliefEngine

open Engine

variable {E : Env} {B : BeliefArith} {C : BeliefConfig} {s s' : BeliefEngine}

/-- No memory is demoted that is not superseded. -/
def Unburdened (s : BeliefEngine) : Prop :=
  ∀ o r, s.engine.metadata.get o = some r → r.id ∉ s.engine.graph.graph.supersededIds →
    s.demotion.demotionFactor o = F32.one

/-- Nothing is asked of a supersession. -/
def anyGround : Ground where
  Holds _ _ := True
  stable _ _ _ _ _ := trivial

/-- The invariant: every factor belongs to the indexed record of a superseded memory. -/
structure Held (s : BeliefEngine) : Prop where
  grounded : s.engine.Grounded anyGround
  ordered : s.engine.Ordered
  held : ∀ o ∈ s.demotion.factors, ∃ a, s.engine.metadata.records.provenance o = some a ∧
    s.engine.idIndex[a.id]? = some o ∧ a.id ∈ s.engine.graph.graph.supersededIds

/-- The invariant is enough. -/
lemma Held.unburdened (h : s.Held) : s.Unburdened := by
  intro o r hr hnot
  unfold DemotionTable.demotionFactor
  cases hfactor : s.demotion.factors[o]? with
  | none => rfl
  | some f =>
    obtain ⟨a, ha, -, hsup⟩ := h.held o (Grouping.mem_of_getElem? hfactor)
    rw [Records.provenance, show s.engine.metadata.records[o]? = some r from hr,
      map_some, some.injEq] at ha
    subst ha
    exact absurd hsup hnot

/-- Every memory that one supersedes is superseded by another one too. -/
def Frees (s : BeliefEngine) (id : String) : Prop :=
  ∀ old, (old, id) ∈ s.pairs → old = id ∨ ∃ new, new ≠ id ∧ (old, new) ∈ s.pairs

/-- A step that neither enters nor drops a record, and no factor. -/
lemma Held.still (h : s.Held) (hstill : Still s.engine s'.engine)
    (hfactors : s'.demotion.factors = s.demotion.factors) : s'.Held := by
  refine ⟨h.grounded.still hstill, h.ordered.still hstill, ?_⟩
  rw [hfactors, hstill.provenance, hstill.idIndex, hstill.graph]
  exact h.held

/-- A step that enters and drops nothing. -/
lemma Held.exec_plain (h : s.Held) (io : Io) {a : Action} (ha : a.plain = true) :
    (exec E io a s).2.Held := by
  refine h.still (still_exec E io s.engine ha) ?_
  cases a with
  | removeFromIndexes id offset => cases ha
  | _ => rfl

/-- Numbers are taken. -/
lemma Held.allocate (h : s.Held) (clock : ℕ → ℕ) (ps : List PreparedRecord) :
    ({ s with engine := { s.engine with
      metadata := (allocateAll clock 0 ps s.engine.metadata).2 } } : BeliefEngine).Held := by
  refine ⟨?_, h.ordered.allocateAll clock ps, ?_⟩
  · exact grounded_allocate h.grounded clock ps
  · rw [allocateAll_snd]
    exact h.held

/-- A removal drops one factor. -/
lemma mem_factors_remove {offset o : PointOffset}
    (h : o ∈ (t.remove offset).factors) : o ∈ t.factors ∧ o ≠ offset := by
  unfold DemotionTable.remove at h
  split at h
  · rw [Std.ExtTreeMap.mem_erase] at h
    exact ⟨h.2, fun heq => h.1 (by simp [heq])⟩
  · next hnot =>
    exact ⟨h, fun heq => hnot (heq ▸ h)⟩

section

variable (h : s.Held) (io : Io)
include h

/-- Dropping a record: other factors lose no supersession they need. -/
lemma Held.remove {offset : PointOffset}
    (hid : s.engine.idIndex[id]? = some offset) (hfrees : s.Frees id) :
    (exec E io (.removeFromIndexes id offset) s).2.Held := by
  refine ⟨h.grounded.removeFromIndexes hid, h.ordered.removeFromIndexes id offset, fun o ho => ?_⟩
  obtain ⟨hmem, hne⟩ := mem_factors_remove ho
  obtain ⟨a, ha, hindex, hsup⟩ := h.held o hmem
  have hother : a.id ≠ id := by
    intro heq
    rw [heq, hid] at hindex
    exact hne (some.inj hindex).symm
  change ∃ a', (s.engine.removeFromIndexes E id offset).metadata.records.provenance o = some a' ∧
    (s.engine.removeFromIndexes E id offset).idIndex[a'.id]? = some o ∧
    a'.id ∈ (s.engine.removeFromIndexes E id offset).graph.graph.supersededIds
  refine ⟨a, ?_, ?_, ?_⟩
  · rw [provenance_removeFromIndexes, if_neg hne.symm]
    exact ha
  · rw [(removeFromIndexes_spec s.engine id offset).2, Std.ExtTreeMap.getElem?_erase,
      if_neg (by simpa using hother.symm)]
    exact hindex
  · obtain ⟨new, hnew⟩ := mem_supersededIds.mp hsup
    have hkept : ∃ new, new ≠ id ∧ (a.id, new) ∈ s.engine.graph.graph.supersessions := by
      by_cases heq : new = id
      · exact (hfrees a.id (heq ▸ hnew)).resolve_left hother
      · exact ⟨new, heq, hnew⟩
    obtain ⟨new, hne, hnew⟩ := hkept
    rw [graph_removeFromIndexes, mem_supersededIds]
    refine ⟨new, ?_⟩
    rw [h.grounded.graph.supersessions_removeMemory]
    exact mem_filter.mpr ⟨hnew, by simp [hother, hne]⟩

/-- Records are entered. -/
lemma Held.enter
    (hlater : s.engine.Later records) : (exec E io (.applyBatch records) s).2.Held := by
  obtain ⟨hindex, hpairs⟩ := applyBatch_kept E io h.grounded.graph hlater
  refine ⟨h.grounded.applyBatch hlater.enterable rfl, h.ordered.applyBatch hlater, fun o ho => ?_⟩
  obtain ⟨a, ha, hid, hsup⟩ := h.held o ho
  refine ⟨a, (applyBatch_entered E io hlater.enterable).2.1 o a ha, hindex _ _ hid, ?_⟩
  obtain ⟨new, hnew⟩ := mem_supersededIds.mp hsup
  exact mem_supersededIds.mpr ⟨new, hpairs ▸ hnew⟩

/-- A request that frees no memory. -/
lemma Held.call
    (hfrees : ∀ id, r.target = some id → s.Frees id) : (s.call E io r).2.Held := by
  refine call_induction h h.grounded.fresh h.allocate (fun _ _ ha hs' => hs'.exec_plain io ha)
    (fun s' id offset htarget hs' hgraph hid => hs'.remove io hid ?_)
    fun _ _ hs' _ hlater => hs'.enter io (hlater h.ordered)
  have hfree := hfrees id htarget
  unfold Frees pairs at hfree ⊢
  rw [hgraph]
  exact hfree

end

/-! ## Commits -/

/-- A memory is demoted by a commit only if an edge is made for it. -/
lemma mem_factors_commitOne (h : s.engine.graph.graph.Ok) (n : ℕ) (p : ProposedSupersession)
    (ho : o ∈ (commitOne E B C (n, s) p).2.demotion.factors) :
    o ∈ s.demotion.factors ∨ o = p.oldOffset ∧
      (commitOne E B C (n, s) p).2.HasEdge p.kind p.oldId p.newId := by
  rcases commitOne_spec E B C h n p with ⟨-, -, heq⟩ | ⟨e', hone, -, heq⟩
  · rw [heq] at ho
    exact .inl ho
  · rw [heq] at ho ⊢
    have hedge : HasEdge ⟨e', demote B C s.demotion p.oldOffset, s.watermark⟩ p.kind p.oldId
        p.newId := (hone.beliefs ..).mpr (.inr ⟨rfl, rfl, rfl⟩)
    rw [demote, DemotionTable.setDemotionFactor] at ho
    dsimp only at ho
    by_cases hsame : o = p.oldOffset
    · exact .inr ⟨hsame, hedge⟩
    · left
      split at ho
      · split at ho
        · exact Std.ExtTreeMap.mem_of_mem_erase ho
        · exact ho
      · rw [Std.ExtTreeMap.mem_insert] at ho
        exact ho.resolve_left fun heq => hsame (Std.LawfulEqCmp.eq_of_compare heq).symm

/-- New factors are those of entered pairs. -/
lemma mem_factors_commitSupersessions (h : s.engine.graph.graph.Ok) (ps : List ProposedSupersession)
    (ho : o ∈ (commitSupersessions E B C s ps).2.demotion.factors) :
    o ∈ s.demotion.factors ∨ ∃ p ∈ ps, o = p.oldOffset ∧
      (commitSupersessions E B C s ps).2.HasEdge p.kind p.oldId p.newId := by
  refine (commitSupersessions_induction (P := fun done s' => s'.engine.graph.graph.Ok ∧
    (o ∈ s'.demotion.factors → o ∈ s.demotion.factors ∨ ∃ p ∈ done, o = p.oldOffset ∧
      s'.HasEdge p.kind p.oldId p.newId)) B C ⟨h, .inl⟩ (fun done p n s' _ hs' => ?_)
    fun _ hs' => hs').2 ho
  have hone := revises_commitOne (E := E) (B := B) (C := C) hs'.1 n p
  refine ⟨hone.graph, fun ho => ?_⟩
  rcases mem_factors_commitOne hs'.1 n p ho with ho | ⟨heq, hedge⟩
  · rcases hs'.2 ho with ho | ⟨q, hq, heq, hedge⟩
    · exact .inl ho
    · exact .inr ⟨q, mem_append_left _ hq, heq, (hone.edges ..).mpr (.inl hedge)⟩
  · exact .inr ⟨p, by simp, heq, hedge⟩

/-- The older memory of a pair is at the place that the index has for it. -/
def Placed (s : BeliefEngine) (ps : List ProposedSupersession) : Prop :=
  ∀ p ∈ ps, s.engine.idIndex[p.oldId]? = some p.oldOffset

variable {ps : List ProposedSupersession}

/-- A commit adds and drops no record. -/
lemma Revises.provenance (h : Revises s s' ps) :
    s'.engine.metadata.records.provenance = s.engine.metadata.records.provenance :=
  provenance_of_enriches h.records

/-- What is superseded stays so. -/
lemma Revises.mem_supersededIds (h : Revises s s' ps)
    (hid : id ∈ s.engine.graph.graph.supersededIds) : id ∈ s'.engine.graph.graph.supersededIds := by
  rw [MemoryGraph.mem_supersededIds] at hid ⊢
  obtain ⟨new, hnew⟩ := hid
  obtain ⟨kind, hkind, hbelief⟩ := mem_supersessions.mp hnew
  have hedge : ∃ k : SupersessionKind, k.edge = kind := by
    cases kind with
    | refines => exact ⟨.refinement, rfl⟩
    | contradicts => exact ⟨.contradiction, rfl⟩
    | _ => cases hkind
  obtain ⟨k, rfl⟩ := hedge
  exact ⟨new, mem_supersessions.mpr ⟨k.edge, hkind, (h.edges k id new).mpr (.inl hbelief)⟩⟩

/-- The older end of an edge is superseded. -/
lemma mem_supersededIds_of_edge {kind : SupersessionKind} {old new : String}
    (h : s.HasEdge kind old new) : old ∈ s.engine.graph.graph.supersededIds :=
  mem_supersededIds.mpr
    ⟨new, mem_supersessions.mpr ⟨kind.edge, by cases kind <;> rfl, h⟩⟩

/-- The counters of the store. -/
def counters (s : BeliefEngine) : ℕ × ℕ :=
  (s.engine.metadata.nextOffset, s.engine.metadata.nextSeq)

/-- A commit takes no number. -/
lemma counters_commitOne (n : ℕ) (s : BeliefEngine) (p : ProposedSupersession) :
    (commitOne E B C (n, s) p).2.counters = s.counters :=
  Prod.ext (transferred_commitOne B C n s p).nextOffset (transferred_commitOne B C n s p).nextSeq

/-- Nor do several. -/
lemma counters_commitSupersessions (s : BeliefEngine) (ps : List ProposedSupersession) :
    (commitSupersessions E B C s ps).2.counters = s.counters :=
  commitSupersessions_induction B C rfl
    (fun _ p n s' _ hs' => (counters_commitOne n s' p).trans hs') fun _ hs' => hs'

section

variable (h : s.Held)
include h

/-- A commit of pairs whose older record is in its place. -/
lemma Held.revised (hrevises : Revises s s' ps)
    (hgrounded : s'.engine.Grounded anyGround) (hcounters : s'.counters = s.counters)
    (hfactors : ∀ o ∈ s'.demotion.factors, o ∈ s.demotion.factors ∨ ∃ p ∈ ps,
      o = p.oldOffset ∧ s'.HasEdge p.kind p.oldId p.newId) (hplaced : s.Placed ps) : s'.Held := by
  obtain ⟨hoffset, hseq⟩ := Prod.mk.inj hcounters
  refine ⟨hgrounded, ⟨?_, ?_, ?_⟩, fun o ho => ?_⟩
  · rw [hrevises.provenance, hoffset, hseq]
    exact h.ordered.below
  · rw [hrevises.provenance]
    exact h.ordered.ordered
  · rw [hrevises.provenance, hrevises.idIndex]
    exact h.ordered.latest
  · rw [hrevises.provenance, hrevises.idIndex]
    rcases hfactors o ho with hmem | ⟨p, hp, rfl, hedge⟩
    · obtain ⟨a, ha, hid, hsup⟩ := h.held o hmem
      exact ⟨a, ha, hid, hrevises.mem_supersededIds hsup⟩
    · obtain ⟨a, ha, hid⟩ := h.grounded.named _ _ (hplaced p hp)
      exact ⟨a, ha, hid ▸ hplaced p hp, hid ▸ mem_supersededIds_of_edge hedge⟩

/-- A commit of placed pairs. -/
lemma Held.commitSupersessions
    (hplaced : s.Placed ps) : (commitSupersessions E B C s ps).2.Held := by
  have hgraph := h.grounded.graph
  exact h.revised (revises_commitSupersessions hgraph ps)
    (grounded_commitSupersessions B C h.grounded fun _ _ => trivial)
    (counters_commitSupersessions s ps) (fun o => mem_factors_commitSupersessions hgraph ps) hplaced

/-- The access counters are drained. -/
lemma Held.drain : s.drain.Held := h.still (still_drain s.engine) rfl

/-- A detection finds the older memory at its place: the newest record of an id is the indexed
one. -/
lemma Held.placed_proposed {ann : Ann} {D : Detection}
    (hps : (propose E B C ann D s).1 = .ok ps) : s.drain.Placed ps := by
  intro p hp
  have hs := h.drain
  rcases mem_proposeLoop hps hp with hmem | ⟨cand, hcand, -, hone⟩
  · cases hmem
  obtain ⟨-, v, w, other, hv, hforward, hfind, -, -, -, rfl⟩ := proposeOne_eq_some_iff.mp hone
  obtain ⟨ids, -, hfound⟩ := nearestSupersedingNeighbor_eq_some.mp hforward
  obtain ⟨-, d, hd, -⟩ :=
    (supersedingNeighbor_iff (mem_candidates.mp hcand) hv).mp (find?_some hfound)
  obtain ⟨a, ha, hname⟩ := hs.grounded.named _ _ hd
  have hother : s.drain.engine.metadata.records.provenance other.1 = some other.2.provenance := by
    rw [Records.provenance, mem_candidates.mp (mem_of_find?_eq_some hfind)]
    rfl
  have hle : a.insertSeq ≤ other.2.insertSeq := le_of_find?_candidates hfind ha hname
  have hlast : other.1 ≤ d := hs.ordered.latest other.1 d _ hother hd
  rcases hlast.lt_or_eq with hlt | heq
  · exact absurd (hs.ordered.ordered _ _ _ _ hlt hother ha) (Nat.not_lt.mpr hle)
  · rw [heq]
    exact hd

/-- A detection pass. -/
lemma Held.commitProposed_detect (ann : Ann) (D : Option Detection) :
    (commitProposed E B C (detect E B C ann D s)).2.Held := by
  cases D with
  | none => exact h.commitSupersessions fun p hp => absurd hp not_mem_nil
  | some D =>
    cases hps : (propose E B C ann D s).1 with
    | error err =>
      have heq : propose E B C ann D s = (.error err, s.drain) := Prod.ext hps rfl
      rw [detect, heq]
      exact h.drain
    | ok ps =>
      have heq : propose E B C ann D s = (.ok ps, s.drain) := Prod.ext hps rfl
      rw [detect, heq]
      exact h.drain.commitSupersessions (h.placed_proposed hps)

/-- A commit by ids. -/
lemma Held.commitById (pairs : List (String × String × SupersessionKind)) :
    (commitSupersessionsById E B C s pairs).2.Held := by
  refine h.commitSupersessions fun p hp => ?_
  obtain ⟨pair, -, hpair⟩ := mem_filterMap.mp hp
  unfold resolvePair at hpair
  split at hpair
  · cases hpair
  · simp only [bind_eq_bind, bind_eq_some_iff] at hpair
    obtain ⟨oldOffset, hold, newOffset, -, old, -, new, -, hpair⟩ := hpair
    split at hpair
    · cases hpair
      exact hold
    · cases hpair

end

end BeliefEngine

/-! ## Runs -/

/-- The operations of a sequential run: a request, a deletion by an eviction or a deduplication, a
detection pass with its commit, and a commit of pairs by their ids. -/
inductive BeliefOp
  | request (io : Io) (r : Request)
  | deleteAt (io : Io) (id : String) (offset : PointOffset)
  | checkRefinements (ann : BeliefEngine.Ann)
  | checkContradictions (ann : BeliefEngine.Ann)
  | commitById (pairs : List (String × String × SupersessionKind))

namespace BeliefOp

open BeliefEngine Traces

variable {E : Env} {B : BeliefArith} {C : BeliefConfig} {s : BeliefEngine}

/-- The store after an operation. -/
def apply (E : Env) (B : BeliefArith) (C : BeliefConfig) (s : BeliefEngine) :
    BeliefOp → BeliefEngine
  | .request io r => (s.call E io r).2
  | .deleteAt io id offset =>
    match s.engine.deleteByIdAt id offset with
    | .done _ => s
    | .run e plan _ => (runAll (BeliefEngine.exec E io) plan { s with engine := e }).2
  | .checkRefinements ann => (s.checkRefinements E B C ann).2
  | .checkContradictions ann => (s.checkContradictions E B C ann).2
  | .commitById pairs => (commitSupersessionsById E B C s pairs).2

/-- The id of the memory that an operation deletes or updates. -/
def target : BeliefOp → Option String
  | .request _ r => r.target
  | .deleteAt _ id _ => some id
  | _ => none

/-- A memory that is deleted or updated is not the only one to supersede another. -/
def Releases (s : BeliefEngine) (op : BeliefOp) : Prop :=
  ∀ id, op.target = some id → s.Frees id

/-- A deletion at an offset does what a deletion does, or nothing. -/
lemma apply_deleteAt (s : BeliefEngine) (io : Io) (id : String) (offset : PointOffset) :
    apply E B C s (.deleteAt io id offset) = (s.call E io (.deleteById id)).2 ∨
      apply E B C s (.deleteAt io id offset) = s := by
  simp only [apply, BeliefEngine.call, Engine.begin, Engine.deleteById, Engine.deleteByIdAt,
    Engine.deleteWhere]
  cases s.engine.idIndex[id]? with
  | none => exact .inr rfl
  | some o =>
    by_cases heq : (o == offset) = true
    · left
      simp only [heq, if_true]
      split <;> next hrun => rw [hrun]
    · right
      simp only [heq]
      rfl

end BeliefOp

open BeliefEngine in
/-- **An operation keeps the invariant** if what it deletes or updates leaves no memory without a
supersession. -/
lemma BeliefEngine.Held.apply {B : BeliefArith} {C : BeliefConfig} {s : BeliefEngine}
    (h : s.Held) {op : BeliefOp} (hop : op.Releases s) : (BeliefOp.apply E B C s op).Held := by
  cases op with
  | request io r => exact h.call io hop
  | deleteAt io id offset =>
    rcases BeliefOp.apply_deleteAt s io id offset with heq | heq
    · rw [heq]
      exact h.call io hop
    · rw [heq]
      exact h
  | checkRefinements ann =>
    rw [BeliefOp.apply, BeliefEngine.checkRefinements, proposeRefinements]
    exact h.commitProposed_detect ann _
  | checkContradictions ann =>
    rw [BeliefOp.apply, BeliefEngine.checkContradictions, proposeContradictions]
    exact h.commitProposed_detect ann _
  | commitById pairs => exact h.commitById pairs

/-! ## New stores -/

namespace DemotionTable

/-- Replaying sets no factor. -/
lemma mem_factors_replay {e : Engine} (h : o ∈ (t.replay E e).factors) : o ∈ t.factors := by
  have hop : ∀ (s : Replay) (t : DemotionTable) (op : WalOp),
      o ∈ (t.replayOp e.lastApplied s op).factors → o ∈ t.factors := by
    intro s t op ho
    cases op with
    | insert | flush => exact ho
    | replace oldOffset offset seq record crc =>
      simp only [replayOp] at ho
      split at ho
      · exact (BeliefEngine.mem_factors_remove ho).1
      · exact ho
    | delete offset => exact (BeliefEngine.mem_factors_remove ho).1
  exact Loop.foldl_induction (P := fun acc : Replay × DemotionTable =>
    o ∈ acc.2.factors → o ∈ t.factors) _ id (fun op _ _ hacc ho => hacc (hop _ _ op ho)) h

/-- A store that is opened has only factors that were saved. -/
lemma mem_factors_atOpen {config : StoreConfig} {d : Disk} {saved : Std.ExtTreeMap PointOffset F32}
    (h : o ∈ (atOpen E config d saved).factors) : o ∈ saved := by
  unfold atOpen at h
  split at h
  · exact h
  · dsimp only at h
    split at h
    · exact mem_factors_replay h
    · exact mem_factors_replay h

end DemotionTable

namespace BeliefEngine

variable {E : Env} {B : BeliefArith} {C : BeliefConfig} {config : StoreConfig} {s : BeliefEngine}

/-- A new store. -/
lemma held_new (hopen : BeliefEngine.open E config {} ∅ = .ok s) : s.Held := by
  obtain ⟨hget, -⟩ := open_blank (open_eq_ok hopen)
  have hnone : ∀ o a, s.engine.metadata.records.provenance o ≠ some a := by
    intro o a ho
    obtain ⟨r, hr, -⟩ := map_eq_some_iff.mp ho
    cases (hget o).symm.trans hr
  have hdemotion : s.demotion = .atOpen E config {} ∅ := by
    rw [BeliefEngine.open, open_eq_ok hopen] at hopen
    rw [← Except.ok.inj hopen]
  refine ⟨grounded_new hopen, ⟨fun o a ho => absurd ho (hnone o a),
    fun o _ a _ _ ho => absurd ho (hnone o a), fun o _ a ho => absurd ho (hnone o a)⟩,
    fun o ho => ?_⟩
  rw [hdemotion] at ho
  exact absurd (DemotionTable.mem_factors_atOpen ho) Std.ExtTreeMap.not_mem_empty

end BeliefEngine

open Traces in
/-- **No memory is demoted for nothing** in a run from a new store in which every memory that goes
leaves those that it supersedes with another supersession: a memory that no edge leads from always
has the factor `1.0`. **Proof sketch.** Every factor belongs to the indexed record of a memory with
an edge. A commit makes the edge that it demotes for, at the newest record of the id, which is the
indexed one. A dropped memory takes its factor and the edges to it along; by the condition their
sources have others. -/
theorem unburdened_throughout {E : Env} {B : BeliefArith} {C : BeliefConfig}
    {config : StoreConfig} {s₀ : BeliefEngine} (hopen : BeliefEngine.open E config {} ∅ = .ok s₀)
    (ops : List BeliefOp) (hops : Along (BeliefOp.apply E B C) BeliefOp.Releases ops s₀) :
    Throughout (BeliefOp.apply E B C) BeliefEngine.Unburdened ops s₀ :=
  throughout_of_along (fun _ _ hs hop => hs.apply hop) (fun _ hs => hs.unburdened)
    (BeliefEngine.held_new hopen) hops

/-! ## Short runs -/

instance (s : BeliefEngine) (id : String) : Decidable (s.Frees id) :=
  decidable_of_iff (∀ p ∈ s.pairs, p.2 = id → p.1 = id ∨ ∃ q ∈ s.pairs, q.2 ≠ id ∧ q.1 = p.1) (by
    refine ⟨fun h old hold => ?_, fun h p hp hid => ?_⟩
    · refine (h (old, id) hold rfl).imp_right ?_
      rintro ⟨q, hq, hne, rfl⟩
      exact ⟨q.2, hne, hq⟩
    · refine (h p.1 (hid ▸ hp)).imp_right ?_
      rintro ⟨new, hne, hnew⟩
      exact ⟨(p.1, new), hnew, hne, rfl⟩)

instance (s : BeliefEngine) (op : BeliefOp) : Decidable (op.Releases s) :=
  decidable_of_iff (∀ id ∈ op.target, s.Frees id) (by simp [BeliefOp.Releases, eq_comm])

/-- Insert a memory. -/
def sampleMemory (id : String) : BeliefOp :=
  .request Io.ok (.insert 5 { sampleInput id "text" none with concepts := ["topic"] })

set_option maxRecDepth 10000

open Traces in
/-- Of two memories that refine a third one is deleted, and then the third. -/
theorem unburdened_throughout_two : ∃ s₀, BeliefEngine.open beliefEnv sampleConfig {} ∅ = .ok s₀ ∧
    Throughout (BeliefOp.apply beliefEnv sampleBelief sampleBeliefConfig) BeliefEngine.Unburdened
      [sampleMemory "a", sampleMemory "b", sampleMemory "c",
        .commitById [("a", "b", .refinement), ("a", "c", .refinement)],
        .request Io.ok (.deleteById "b"), .request Io.ok (.deleteById "a")] s₀ := by
  obtain ⟨s₀, hopen, hreleases⟩ := exists_opened_belief (P := fun s₀ =>
    Along (BeliefOp.apply beliefEnv sampleBelief sampleBeliefConfig) BeliefOp.Releases
      [sampleMemory "a", sampleMemory "b", sampleMemory "c",
        .commitById [("a", "b", .refinement), ("a", "c", .refinement)],
        .request Io.ok (.deleteById "b"), .request Io.ok (.deleteById "a")] s₀) (by decide +kernel)
  exact ⟨s₀, hopen, unburdened_throughout hopen _ hreleases⟩

/-- **A memory is held back by one that was deleted.** The second memory refines the first; it is
deleted, or updated, and the first keeps the factor `0.5`. -/
theorem burdened_after_deletion : ∃ s₀, BeliefEngine.open beliefEnv sampleConfig {} ∅ = .ok s₀ ∧
    [BeliefOp.request Io.ok (.deleteById "b"),
      .request Io.ok (.update 6 (sampleInput "b" "text" none))].all (fun op =>
      let s := [sampleMemory "a", sampleMemory "b", .commitById [("a", "b", .refinement)], op].foldl
        (BeliefOp.apply beliefEnv sampleBelief sampleBeliefConfig) s₀
      (s.engine.metadata.get 0).map MetaRecord.id = some "a" ∧
        s.engine.graph.graph.supersededIds = [] ∧
        s.demotion.demotionFactor 0 = ⟨0x3F000000⟩) = true :=
  exists_opened_belief (by decide +kernel)

end TurboMemory
