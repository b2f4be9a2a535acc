import TurboMemory.Engine.Demotion

/-!
# Refined or contradicted

A consolidation first commits refinements and then contradictions. The two detections test the
overlap of texts against thresholds of their own, and an edge of one kind does not keep out an edge
of the other.

## Main results

* `BeliefEngine.revises_commitSupersessions` — the edges and the records after a commit.
* `BeliefEngine.eligible_of_proposed`, `BeliefEngine.exists_proposed` — a detection proposes
  eligible pairs, and each of them for suitable searches.
* `BeliefEngine.oneEach_iff` — no pair gets both edges just if superseded memories are hidden from
  searches or there is no pair that both detections can propose (`BeliefEngine.Clash`).
-/

set_option autoImplicit false

namespace TurboMemory

open List MetaRecord BeliefEngine Detection

namespace BeliefEngine

open CriticalSections

variable {E : Env} {B : BeliefArith} {C : BeliefConfig} {s s' s'' : BeliefEngine}
  {ps : List ProposedSupersession} {o : PointOffset} {r : MetaRecord}

/-! ## What a commit leaves -/

/-- The edge of a kind of supersession between two memories. -/
def HasEdge (s : BeliefEngine) (kind : SupersessionKind) (old new : String) : Prop :=
  s.engine.graph.graph.HasBelief kind.edge old new

/-- What committing pairs does: edges between known memories are entered, and records get
concepts. -/
structure Revises (s s' : BeliefEngine) (ps : List ProposedSupersession) : Prop where
  graph : s'.engine.graph.graph.Ok
  knows : s'.knows = s.knows
  edges : ∀ kind old new, s'.HasEdge kind old new ↔ s.HasEdge kind old new ∨
    s.knows old = true ∧ s.knows new = true ∧
      ∃ p ∈ ps, p.kind = kind ∧ p.oldId = old ∧ p.newId = new
  idIndex : s'.engine.idIndex = s.engine.idIndex
  vectors : s'.engine.vectors = s.engine.vectors
  watermark : s'.watermark = s.watermark
  records : ∀ o : PointOffset, Option.Rel Enriches s.engine.metadata.records[o]?
    s'.engine.metadata.records[o]?

/-- One after the other. -/
lemma rel_enriches_trans {x y z : Option MetaRecord} (h : Option.Rel Enriches x y)
    (h' : Option.Rel Enriches y z) : Option.Rel Enriches x z := by
  cases h with
  | none => exact h'
  | some h =>
    cases h' with
    | some h' => exact .some (h.trans h')

/-- No pair. -/
lemma revises_nil (h : s.engine.graph.graph.Ok) : Revises s s [] :=
  ⟨h, rfl, by simp, rfl, rfl, rfl, fun _ => rel_enriches_refl _⟩

/-- One commit after the other. -/
lemma Revises.trans {qs : List ProposedSupersession} (h : Revises s s' ps)
    (h' : Revises s' s'' qs) : Revises s s'' (ps ++ qs) where
  graph := h'.graph
  knows := h'.knows.trans h.knows
  edges kind old new := by
    rw [h'.edges, h.edges, h.knows, or_assoc]
    refine or_congr_right ?_
    simp only [mem_append, or_and_right, exists_or, and_or_left]
  idIndex := h'.idIndex.trans h.idIndex
  vectors := h'.vectors.trans h.vectors
  watermark := h'.watermark.trans h.watermark
  records o := rel_enriches_trans (h.records o) (h'.records o)

/-- Committing one pair. -/
lemma revises_commitOne (h : s.engine.graph.graph.Ok) (n : ℕ) (p : ProposedSupersession) :
    Revises s (commitOne E B C (n, s) p).2 [p] := by
  rcases commitOne_spec E B C h n p with ⟨hskip, -, heq⟩ | ⟨e', hone, -, heq⟩
  · rw [heq]
    refine ⟨h, rfl, fun kind old new => ⟨.inl, ?_⟩, rfl, rfl, rfl, fun _ => rel_enriches_refl _⟩
    rintro (hedge | ⟨hold, hnew, q, hq, rfl, rfl, rfl⟩)
    · exact hedge
    · -- A pair of known memories is skipped because its edge is there.
      obtain rfl := mem_singleton.mp hq
      exact not_not.mp fun hbelief => hskip ⟨hold, hnew, hbelief⟩
  · rw [heq]
    refine { hone with knows := hone.knows, edges := fun kind old new => ?_, watermark := rfl }
    refine (hone.beliefs ..).trans (or_congr_right ⟨?_, ?_⟩)
    · rintro ⟨rfl, rfl, rfl⟩
      exact ⟨hone.enters.1, hone.enters.2.1, p, mem_singleton_self p, rfl, rfl, rfl⟩
    · rintro ⟨-, -, q, hq, rfl, rfl, rfl⟩
      rw [mem_singleton.mp hq]
      exact ⟨rfl, rfl, rfl⟩

/-- **The edges and the records after a commit.** -/
lemma revises_commitSupersessions (h : s.engine.graph.graph.Ok) (ps : List ProposedSupersession) :
    Revises s (commitSupersessions E B C s ps).2 ps := by
  refine commitSupersessions_induction (P := fun done s' => Revises s s' done) B C (revises_nil h)
    (fun _ p n _ _ hs' => hs'.trans (revises_commitOne hs'.graph n p)) fun _ hs' => ?_
  exact { hs' with }

/-- Draining access counts changes nothing else of a record. -/
lemma get_drain (s : BeliefEngine) (o : PointOffset) :
    Option.Rel (fun r r' => r'.fixed = r.fixed ∧ r'.concepts = r.concepts)
      s.engine.metadata.records[o]? s.drain.engine.metadata.records[o]? := by
  have hcolumn := congrFun (Engine.column_drainInto
    (f := fun r => (fixed r, concepts r)) (fun _ _ _ => rfl)
    s.engine.accessCounters.toList s.engine.metadata) o
  change Option.Rel _ _ (Engine.drainInto s.engine.accessCounters.toList
    s.engine.metadata).records[o]?
  rw [MetadataStore.column, MetadataStore.column, MetadataStore.get, MetadataStore.get] at hcolumn
  cases hr : s.engine.metadata.records[o]? with
  | none =>
    rw [hr, Option.map_none, Option.map_eq_none_iff] at hcolumn
    rw [hcolumn]
    exact .none
  | some r =>
    rw [hr, Option.map_some, Option.map_eq_some_iff] at hcolumn
    obtain ⟨r', hr', heq⟩ := hcolumn
    rw [hr']
    exact .some (Prod.mk.inj heq)

/-- Draining enters nothing. -/
lemma revises_drain (h : s.engine.graph.graph.Ok) : Revises s s.drain [] := by
  refine ⟨h, rfl, by simp [HasEdge, drain], rfl, rfl, rfl, fun o => ?_⟩
  have hrel := get_drain s o
  generalize s.engine.metadata.records[o]? = r at hrel ⊢
  generalize s.drain.engine.metadata.records[o]? = r' at hrel ⊢
  cases hrel with
  | none => exact .none
  | some hr => exact .some ⟨hr.1, fun c hc => hr.2 ▸ hc⟩

/-- Records stay. -/
lemma Revises.get (h : Revises s s' ps) (hr : s.engine.metadata.get o = some r) :
    ∃ r', s'.engine.metadata.get o = some r' ∧ r.Enriches r' := by
  have hrel := h.records o
  rw [show s.engine.metadata.records[o]? = some r from hr] at hrel
  generalize hs' : s'.engine.metadata.records[o]? = found at hrel
  cases hrel with
  | some henriches => exact ⟨_, hs', henriches⟩

/-- No record comes. -/
lemma Revises.get_before (h : Revises s s' ps)
    {r' : MetaRecord} (hr' : s'.engine.metadata.get o = some r') :
    ∃ r, s.engine.metadata.get o = some r ∧ r.Enriches r' := by
  have hrel := h.records o
  rw [show s'.engine.metadata.records[o]? = some r' from hr'] at hrel
  generalize hs : s.engine.metadata.records[o]? = found at hrel
  cases hrel with
  | some henriches => exact ⟨_, hs, henriches⟩

/-! ## Pairs that a detection can propose -/

/-- The first sequence number that a pass looks at. -/
def start (C : BeliefConfig) (s : BeliefEngine) : ℕ :=
  if C.incrementalSupersessionDetection then s.watermark else 0

/-- A search from one record accepts another, but for their concepts. -/
def Accepts (B : BeliefArith) (roles : Option (List String)) (floor : F32) (e : Engine)
    (newer : Bool) (c d : PointOffset) : Prop :=
  ∃ x y v w, e.metadata.get c = some x ∧ e.metadata.get d = some y ∧
    e.vectors.get c = some v ∧ e.vectors.get d = some w ∧
    (if newer then x.insertSeq < y.insertSeq else y.insertSeq < x.insertSeq) ∧
    y.scope = x.scope ∧ roleAllowed y.sourceRole roles = true ∧
    B.lt (B.cosineSimilarity v w) floor = false

/-- Two records have a concept in common. -/
def Linked (e : Engine) (c d : PointOffset) : Prop :=
  ∃ x y, e.metadata.get c = some x ∧ e.metadata.get d = some y ∧ ∃ t ∈ x.concepts, t ∈ y.concepts

variable {roles : Option (List String)} {e : Engine} {c : PointOffset} {newer : Bool}
  {floor : F32} {D : Detection} {x : MetaRecord}

/-- When a neighbour is superseded. -/
lemma supersedingNeighbor_iff {v : Embedding}
    (hx : e.metadata.get c = some x) (hv : e.vectors.get c = some v) {nid : String} :
    supersedingNeighbor B e v x.concepts x.scope x.id x.insertSeq newer floor roles nid = true ↔
      nid ≠ x.id ∧ ∃ d, e.idIndex[nid]? = some d ∧ Accepts B roles floor e newer c d ∧
        Linked e c d := by
  unfold supersedingNeighbor
  rw [Bool.and_eq_true, decide_eq_true_eq]
  refine and_congr_right fun _ => ?_
  cases hd : e.idIndex[nid]? with
  | none => simp
  | some d =>
    simp only [Option.some.injEq, exists_eq_left']
    cases hy : e.metadata.get d with
    | none => simp [Accepts, hy]
    | some y =>
      cases hw : e.vectors.get d with
      | none => simp [Accepts, hw]
      | some w =>
        cases newer <;> simp [Accepts, Linked, hx, hy, hv, hw, and_assoc]
        all_goals tauto

/-- A detection can propose a pair, but for the concepts: a record of each id passes the test on
texts, and accepts the indexed record of the other. -/
def Eligible (B : BeliefArith) (C : BeliefConfig) (D : Detection) (s : BeliefEngine)
    (old new : String) : Prop :=
  ∃ c d x y, s.engine.metadata.get c = some x ∧ x.id = new ∧
    s.engine.metadata.get d = some y ∧ y.id = old ∧
    roleAllowed x.sourceRole C.beliefSourceRoles = true ∧ s.start C ≤ x.insertSeq ∧
    D.gate x y = true ∧ (∃ d', s.engine.idIndex[old]? = some d' ∧
      Accepts B C.beliefSourceRoles D.threshold s.engine false c d') ∧
    ∃ c', s.engine.idIndex[new]? = some c' ∧
      Accepts B C.beliefSourceRoles D.threshold s.engine true d c'

/-- A record of the newer id has a concept in common with the indexed record of the older id. -/
def Shares (s : BeliefEngine) (old new : String) : Prop :=
  ∃ c d x, s.engine.metadata.get c = some x ∧ x.id = new ∧ s.engine.idIndex[old]? = some d ∧
    Linked s.engine c d

/-- The test of a detection looks at the texts. -/
def Detection.Textual (D : Detection) : Prop :=
  ∀ x x' y y' : MetaRecord, x.Enriches x' → y.Enriches y' → D.gate x' y' = D.gate x y

/-- Refinements are found by texts. -/
lemma textual_refining (h : refining B C = some D) : Textual D := by
  intro x x' y y' hx hy
  simp only [(Detection.when_spec h).2.1, hx.fields.2.1, hy.fields.2.1]

/-- So are contradictions. -/
lemma textual_contradicting (h : contradicting B C = some D) : Textual D := by
  intro x x' y y' hx hy
  simp only [(Detection.when_spec h).2.1, hx.fields.2.1, hy.fields.2.1]

variable {old new : String}

section Revised

variable {ps : List ProposedSupersession} (h : Revises s s' ps)
include h

/-- A commit changes no test of a neighbour. -/
lemma Revises.accepts_iff {c d : PointOffset} :
    Accepts B roles floor s'.engine newer c d ↔ Accepts B roles floor s.engine newer c d := by
  unfold Accepts
  rw [h.vectors]
  constructor
  · rintro ⟨x', y', v, w, hx', hy', hv, hw, hrest⟩
    obtain ⟨x, hx, hxx⟩ := h.get_before hx'
    obtain ⟨y, hy, hyy⟩ := h.get_before hy'
    obtain ⟨-, -, hseq, hscope, hrole⟩ := hyy.fields
    rw [hseq, hscope, hrole, hxx.fields.2.2.1, hxx.fields.2.2.2.1] at hrest
    exact ⟨x, y, v, w, hx, hy, hv, hw, hrest⟩
  · rintro ⟨x, y, v, w, hx, hy, hv, hw, hrest⟩
    obtain ⟨x', hx', hxx⟩ := h.get hx
    obtain ⟨y', hy', hyy⟩ := h.get hy
    obtain ⟨-, -, hseq, hscope, hrole⟩ := hyy.fields
    rw [← hseq, ← hscope, ← hrole, ← hxx.fields.2.2.1, ← hxx.fields.2.2.2.1] at hrest
    exact ⟨x', y', v, w, hx', hy', hv, hw, hrest⟩

/-- Nor which pairs are eligible. -/
lemma Revises.eligible_iff (hD : Textual D) :
    Eligible B C D s' old new ↔ Eligible B C D s old new := by
  unfold Eligible start
  simp only [h.idIndex, h.watermark, h.accepts_iff]
  constructor
  · rintro ⟨c, d, x', y', hx', rfl, hy', rfl, hrest⟩
    obtain ⟨x, hx, hxx⟩ := h.get_before hx'
    obtain ⟨y, hy, hyy⟩ := h.get_before hy'
    obtain ⟨hid, -, hseq, -, hrole⟩ := hxx.fields
    rw [hD x x' y y' hxx hyy, hseq, hrole] at hrest
    exact ⟨c, d, x, y, hx, hid.symm, hy, hyy.fields.1.symm, hrest⟩
  · rintro ⟨c, d, x, y, hx, rfl, hy, rfl, hrest⟩
    obtain ⟨x', hx', hxx⟩ := h.get hx
    obtain ⟨y', hy', hyy⟩ := h.get hy
    obtain ⟨hid, -, hseq, -, hrole⟩ := hxx.fields
    rw [← hD x x' y y' hxx hyy, ← hseq, ← hrole] at hrest
    exact ⟨c, d, x', y', hx', hid, hy', hyy.fields.1, hrest⟩

/-- Shared concepts stay shared. -/
lemma Revises.linked {c d : PointOffset} (hlinked : Linked s.engine c d) :
    Linked s'.engine c d := by
  obtain ⟨x, y, hx, hy, t, htx, hty⟩ := hlinked
  obtain ⟨x', hx', hxx⟩ := h.get hx
  obtain ⟨y', hy', hyy⟩ := h.get hy
  exact ⟨x', y', hx', hy', t, hxx.concepts htx, hyy.concepts hty⟩

/-- The same for ids. -/
lemma Revises.shares (hshares : s.Shares old new) : s'.Shares old new := by
  obtain ⟨c, d, x, hx, rfl, hd, hlinked⟩ := hshares
  obtain ⟨x', hx', hxx⟩ := h.get hx
  exact ⟨c, d, x', hx', hxx.fields.1, h.idIndex ▸ hd, h.linked hlinked⟩

/-- The id index stays right. -/
lemma Revises.ids (hids : ∀ id o, s.engine.idIndex[id]? = some o ↔
    s.engine.metadata.idOf o = some id) (id : String) (o : PointOffset) :
    s'.engine.idIndex[id]? = some o ↔ s'.engine.metadata.idOf o = some id := by
  rw [h.idIndex, hids, MetadataStore.idOf, MetadataStore.idOf, Option.map_eq_some_iff,
    Option.map_eq_some_iff]
  constructor
  · rintro ⟨r, hr, rfl⟩
    obtain ⟨r', hr', hrr⟩ := h.get hr
    exact ⟨r', hr', hrr.fields.1⟩
  · rintro ⟨r', hr', rfl⟩
    obtain ⟨r, hr, hrr⟩ := h.get_before hr'
    exact ⟨r, hr, hrr.fields.1.symm⟩

end Revised

/-- Draining brings no concept in. -/
lemma shares_of_drain (h : s.drain.Shares old new) : s.Shares old new := by
  have hget : ∀ {o : PointOffset} {r' : MetaRecord}, s.drain.engine.metadata.get o = some r' →
      ∃ r, s.engine.metadata.get o = some r ∧ r'.id = r.id ∧ r'.concepts = r.concepts := by
    intro o r' hr'
    have hrel := get_drain s o
    rw [show s.drain.engine.metadata.records[o]? = some r' from hr'] at hrel
    generalize hr : s.engine.metadata.records[o]? = found at hrel
    cases hrel with
    | some heq =>
      have hid := congrArg MetaRecord.id heq.1
      exact ⟨_, hr, hid, heq.2⟩
  obtain ⟨c, d, x', hx', rfl, hd, x'', y', hx'', hy', t, htx, hty⟩ := h
  cases hx'.symm.trans hx''
  obtain ⟨x, hx, hid, hconcepts⟩ := hget hx'
  obtain ⟨y, hy, -, hconcepts'⟩ := hget hy'
  exact ⟨c, d, x, hx, hid.symm, hd, x, y, hx, hy, t, hconcepts ▸ htx, hconcepts' ▸ hty⟩

/-- What a search returned for a pair that was found. -/
lemma nearestSupersedingNeighbor_eq_some
    {search : Embedding → Option String → Except StorageError (List String)}
    {v : Embedding} {concepts : List String} {scope : Option String} {exclude nid : String}
    {pivotSeq : ℕ} :
    nearestSupersedingNeighbor B e search v concepts scope exclude pivotSeq newer floor roles =
      .ok (some nid) ↔ ∃ ids, search v scope = .ok ids ∧
        ids.find? (supersedingNeighbor B e v concepts scope exclude pivotSeq newer floor roles) =
          some nid := by
  unfold nearestSupersedingNeighbor
  cases search v scope with
  | error err | ok ids => simp [Except.map]

variable {p : ProposedSupersession} {ann : Ann} {watermark : ℕ}

/-- A proposed pair is eligible, shares a concept, and was found by a search. -/
lemma eligible_of_proposed (hs : s.engine.graph.graph.Ok) (hD : Textual D)
    (hps : (propose E B C ann D s).1 = .ok ps) (hp : p ∈ ps) :
    p.kind = D.kind ∧ p.oldId ≠ p.newId ∧ Eligible B C D s p.oldId p.newId ∧
      s.Shares p.oldId p.newId ∧
      ∃ c v scope ids, ann c false v scope = .ok ids ∧ p.oldId ∈ ids := by
  have hdrain := revises_drain hs
  rcases mem_proposeLoop hps hp with hmem | ⟨cand, hcand, hstart, hone⟩
  · cases hmem
  obtain ⟨hrole, v, w, other, hv, hforward, hfind, hgate, hw, hback, rfl⟩ :=
    proposeOne_eq_some_iff.mp hone
  have hx := mem_candidates.mp hcand
  have hy := mem_candidates.mp (mem_of_find?_eq_some hfind)
  obtain ⟨ids, hsearch, hfound⟩ := nearestSupersedingNeighbor_eq_some.mp hforward
  obtain ⟨ids', -, hfound'⟩ := nearestSupersedingNeighbor_eq_some.mp hback
  obtain ⟨hne, d', hd', haccepts, hlinked⟩ :=
    (supersedingNeighbor_iff hx hv).mp (find?_some hfound)
  obtain ⟨-, c', hc', haccepts', -⟩ :=
    (supersedingNeighbor_iff hy hw).mp (find?_some hfound')
  refine ⟨rfl, hne, (hdrain.eligible_iff hD).mp ?_, shares_of_drain ?_, cand.1, v,
    cand.2.scope, ids, hsearch, mem_of_find?_eq_some hfound⟩
  · exact ⟨cand.1, other.1, cand.2, other.2, hx, rfl, hy, rfl, hrole, hstart, hgate,
      ⟨d', hd', haccepts⟩, c', hc', haccepts'⟩
  · exact ⟨cand.1, d', cand.2, hx, rfl, hd', hlinked⟩

/-- Searches that find one older and one newer memory for one record and nothing for others. -/
def pointAnn (c : PointOffset) (old new : String) : Ann :=
  fun cand newer _ _ => .ok (if cand = c then [if newer then new else old] else [])

/-- Other records find nothing. -/
lemma proposeOne_pointAnn_other {cand : PointOffset × MetaRecord} (hne : cand.1 ≠ c) :
    proposeOne E B roles e (pointAnn c old new) D cand = .ok none := by
  unfold proposeOne
  split
  · split
    · rfl
    · simp [nearestSupersedingNeighbor, pointAnn, hne, Except.map, bind, Except.bind]
  · rfl

/-- A pass whose searches do not fail keeps what it has found. -/
lemma proposeLoop_ok {cands : List (PointOffset × MetaRecord)}
    (hok : ∀ cand ∈ cands, ∃ found, proposeOne E B roles e ann D cand = .ok found)
    (acc : List ProposedSupersession) :
    ∃ ps, proposeLoop E B roles e ann D watermark cands acc = .ok ps ∧ acc ⊆ ps := by
  induction cands generalizing acc with
  | nil => exact ⟨acc, rfl, .refl _⟩
  | cons cand cands ih =>
    unfold proposeLoop
    split
    · exact ⟨acc, rfl, .refl _⟩
    · obtain ⟨found, hfound⟩ := hok cand mem_cons_self
      obtain ⟨ps, hps, hsub⟩ := ih (fun c hc => hok c (mem_cons_of_mem _ hc))
        (acc ++ found.toList)
      simp only [hfound, bind, Except.bind]
      exact ⟨ps, hps, Subset.trans (subset_append_left _ _) hsub⟩

/-- A pass that finds nothing for the records before one comes to that record. -/
lemma proposeLoop_reaches {before after : List (PointOffset × MetaRecord)}
    {cand : PointOffset × MetaRecord} (hmax : 0 < D.maxPairs)
    (hbefore : ∀ a ∈ before, watermark ≤ a.2.insertSeq ∧
      proposeOne E B roles e ann D a = .ok none) (hcand : watermark ≤ cand.2.insertSeq)
    (hone : proposeOne E B roles e ann D cand = .ok (some p))
    (hafter : ∀ a ∈ after, ∃ found, proposeOne E B roles e ann D a = .ok found) :
    ∃ ps, proposeLoop E B roles e ann D watermark (before ++ cand :: after) [] = .ok ps ∧
      p ∈ ps := by
  induction before with
  | nil =>
    rw [nil_append, proposeLoop, if_neg (by simp; omega)]
    obtain ⟨ps, hps, hsub⟩ := proposeLoop_ok hafter [p]
    simp only [hone, bind, Except.bind]
    exact ⟨ps, hps, hsub (mem_singleton_self p)⟩
  | cons a before ih =>
    obtain ⟨hseq, hnone⟩ := hbefore a mem_cons_self
    rw [cons_append, proposeLoop, if_neg (by simp; omega)]
    simp only [hnone, bind, Except.bind]
    exact ih fun a ha => hbefore a (mem_cons_of_mem _ ha)

/-- The place of a record among the candidates: those before it are not older. -/
lemma candidates_eq_append (hx : e.metadata.records[c]? = some x) :
    ∃ before after, candidates E e = before ++ (c, x) :: after ∧
      ∀ a ∈ before, x.insertSeq ≤ a.2.insertSeq ∧ a.1 ≠ c := by
  have hsorted := pairwise_candidates (E := E) (e := e)
  have hmem : (c, x) ∈ candidates E e := mem_candidates.mpr hx
  obtain ⟨before, after, hsplit, hnot⟩ := eq_append_cons_of_mem hmem
  refine ⟨before, after, hsplit, fun a ha => ⟨?_, fun hoffset => hnot ?_⟩⟩
  · rw [hsplit, pairwise_append] at hsorted
    exact hsorted.2.2 a ha (c, x) mem_cons_self
  · have hrecord : e.metadata.records[a.1]? = some a.2 :=
      mem_candidates.mp (hsplit ▸ mem_append_left _ ha)
    rw [hoffset, hx] at hrecord
    rwa [show a = (c, x) from Prod.ext hoffset (Option.some.inj hrecord).symm] at ha

section Indexed

variable (hids : ∀ (id : String) (o : PointOffset),
  s.engine.idIndex[id]? = some o ↔ s.engine.metadata.idOf o = some id)
include hids

/-- A record is found by its id. -/
lemma idIndex_of_get (hr : s.engine.metadata.get o = some r) : s.engine.idIndex[r.id]? = some o :=
  (hids r.id o).mpr (Option.map_eq_some_iff.mpr ⟨r, hr, rfl⟩)

/-- A record is the only one of its id. -/
lemma find?_candidates {d : PointOffset} {y : MetaRecord} (hy : s.engine.metadata.get d = some y) :
    (candidates E s.engine).find? (·.2.id = y.id) = some (d, y) := by
  cases hfound : (candidates E s.engine).find? (·.2.id = y.id) with
  | none =>
    have hnot := find?_eq_none.mp hfound (d, y) (mem_candidates.mpr hy)
    simp at hnot
  | some other =>
    have hid : other.2.id = y.id := by simpa using find?_some hfound
    have hother : s.engine.metadata.get other.1 = some other.2 :=
      mem_candidates.mp (mem_of_find?_eq_some hfound)
    have hoffset := idIndex_of_get hids hother
    rw [hid, idIndex_of_get hids hy, Option.some.injEq] at hoffset
    rw [← hoffset, hy, Option.some.injEq] at hother
    rw [show other = (d, y) from Prod.ext hoffset.symm hother.symm]

/-- A pair is found by the searches that lead from either of its records to the other. -/
lemma proposeOne_pointAnn (hne : old ≠ new)
    (heligible : Eligible B C D s old new) (hshares : s.Shares old new) :
    ∃ c x, s.engine.metadata.get c = some x ∧ s.start C ≤ x.insertSeq ∧
      ∃ p, proposeOne E B C.beliefSourceRoles s.engine (pointAnn c old new) D (c, x) =
        .ok (some p) ∧ p.kind = D.kind ∧ p.oldId = old ∧ p.newId = new := by
  -- The ids lead to one record each.
  obtain ⟨c, d, x, y, hx, rfl, hy, rfl, hrole, hstart, hgate, ⟨d', hd', haccepts⟩,
    c', hc', haccepts'⟩ := heligible
  obtain ⟨c₁, d₁, x₁, hx₁, hid, hd₁, hlinked⟩ := hshares
  have hc₁ := idIndex_of_get hids hx₁
  have hc := idIndex_of_get hids hx
  have hd := idIndex_of_get hids hy
  rw [hid, hc] at hc₁
  rw [hc] at hc'
  rw [hd] at hd₁ hd'
  cases hc₁
  cases hc'
  cases hd₁
  cases hd'
  obtain ⟨-, -, v, w, -, -, hv, hw, -⟩ := id haccepts
  have hlinked' : Linked s.engine d c := by
    obtain ⟨x, y, hx, hy, t, htx, hty⟩ := hlinked
    exact ⟨y, x, hy, hx, t, hty, htx⟩
  refine ⟨c, x, hx, hstart, ⟨y.id, x.id, d, c, D.kind, B.cosineSimilarity v w⟩,
    proposeOne_eq_some_iff.mpr ⟨hrole, v, w, (d, y), hv, ?_, find?_candidates hids hy, hgate, hw,
      ?_, rfl⟩, rfl, rfl, rfl⟩
  · refine nearestSupersedingNeighbor_eq_some.mpr ⟨[y.id], by simp [pointAnn], ?_⟩
    rw [find?_cons, (supersedingNeighbor_iff hx hv).mpr ⟨hne, d, hd, haccepts, hlinked⟩]
  · refine nearestSupersedingNeighbor_eq_some.mpr ⟨[x.id], by simp [pointAnn], ?_⟩
    rw [find?_cons, (supersedingNeighbor_iff hy hw).mpr ⟨hne.symm, c, hc, haccepts', hlinked'⟩]

/-- **Every eligible pair is proposed for some searches**, when the id index agrees with the
records. -/
lemma exists_proposed (hs : s.engine.graph.graph.Ok) (hD : Textual D)
    (hmax : 0 < D.maxPairs) (hne : old ≠ new)
    (heligible : Eligible B C D s old new) (hshares : s.Shares old new) :
    ∃ c ps, (propose E B C (pointAnn c old new) D s).1 = .ok ps ∧
      ∃ p ∈ ps, p.kind = D.kind ∧ p.oldId = old ∧ p.newId = new := by
  have hdrain := revises_drain hs
  obtain ⟨c, x, hx, hstart, p, hone, hp⟩ := proposeOne_pointAnn (E := E) (hdrain.ids hids) hne
    ((hdrain.eligible_iff hD).mpr heligible) (hdrain.shares hshares)
  obtain ⟨before, after, hsplit, hbefore⟩ := candidates_eq_append (E := E) hx
  have hafter : ∀ a ∈ after, ∃ found, proposeOne E B C.beliefSourceRoles s.drain.engine
      (pointAnn c old new) D a = .ok found := by
    intro a ha
    by_cases heq : a.1 = c
    · have hrecord : s.drain.engine.metadata.records[a.1]? = some a.2 := mem_candidates.mp
        (hsplit ▸ mem_append_right _ (mem_cons_of_mem _ ha))
      rw [heq, show s.drain.engine.metadata.records[c]? = some x from hx] at hrecord
      rw [show a = (c, x) from Prod.ext heq (Option.some.inj hrecord).symm]
      exact ⟨_, hone⟩
    · exact ⟨_, proposeOne_pointAnn_other heq⟩
  obtain ⟨ps, hps, hmem⟩ := proposeLoop_reaches hmax
    (fun a ha => ⟨hstart.trans (hbefore a ha).1, proposeOne_pointAnn_other (hbefore a ha).2⟩)
    hstart hone hafter
  rw [← hsplit] at hps
  exact ⟨c, ps, hps, p, hmem, hp⟩

end Indexed

/-! ## A consolidation -/

/-- The pairs among proposed ones that a commit enters; each of them demotes its older memory. -/
def entered (E : Env) (B : BeliefArith) (C : BeliefConfig) :
    BeliefEngine → List ProposedSupersession → List ProposedSupersession
  | _, [] => []
  | s, p :: ps =>
    let rest := entered E B C (commitOne E B C (0, s) p).2 ps
    if (addSupersession B C s.engine.graph.graph p).1 then p :: rest else rest

/-- What a pass proposed, if its searches did not fail. -/
def proposals (r : Except StorageError (List ProposedSupersession) × BeliefEngine) :
    List ProposedSupersession :=
  match r.1 with
  | .ok ps => ps
  | .error _ => []

/-- The flags that a consolidation and its searches read. -/
structure ConsolidationFlags where
  /-- Leave the commit to the caller. -/
  deferSupersessionCommit : Bool
  /-- Searches do not return superseded memories. -/
  excludeSuperseded : Bool
deriving DecidableEq

/-- The belief revision of a consolidation, with the pairs for which it demotes a memory. -/
def consolidate (E : Env) (B : BeliefArith) (C : BeliefConfig) (flags : ConsolidationFlags)
    (annR annC : Ann) (s : BeliefEngine) : BeliefEngine × List ProposedSupersession :=
  if flags.deferSupersessionCommit then (s, [])
  else
    let refs := proposeRefinements E B C annR s
    let demoted := entered E B C refs.2 (proposals refs)
    match checkRefinements E B C annR s with
    | (.error _, s) => (s, demoted)
    | (.ok _, s) =>
      let cons := proposeContradictions E B C annC s
      ((checkContradictions E B C annC s).2, demoted ++ entered E B C cons.2 (proposals cons))

/-- An edge is made between two states. -/
def Gains (s s' : BeliefEngine) (kind : SupersessionKind) (old new : String) : Prop :=
  ¬ s.HasEdge kind old new ∧ s'.HasEdge kind old new

/-- No pair is both refined and contradicted, and none demotes its older memory twice
(`demotion_consolidate`). -/
structure OneEach (s : BeliefEngine) (r : BeliefEngine × List ProposedSupersession) : Prop where
  edges : ∀ old new, ¬ (Gains s r.1 .refinement old new ∧ Gains s r.1 .contradiction old new)
  demotions : ∀ old new, (r.2.countP fun p => p.oldId = old ∧ p.newId = new) ≤ 1

/-- Searches return no superseded memory. -/
def Hides (s : BeliefEngine) (ann : Ann) : Prop :=
  ∀ c newer v scope ids, ann c newer v scope = .ok ids →
    ∀ id ∈ ids, id ∉ s.engine.graph.graph.supersededIds

/-- Searches that keep to the flag. -/
def Admissible (E : Env) (B : BeliefArith) (C : BeliefConfig) (flags : ConsolidationFlags)
    (annR annC : Ann) (s : BeliefEngine) : Prop :=
  flags.excludeSuperseded = true → s.Hides annR ∧ (checkRefinements E B C annR s).2.Hides annC

/-- Two memories of the graph without an edge that both detections can propose. -/
def Clash (B : BeliefArith) (C : BeliefConfig) (s : BeliefEngine) : Prop :=
  ∃ old new, old ≠ new ∧ s.knows old = true ∧ s.knows new = true ∧
    ¬ s.HasEdge .refinement old new ∧ ¬ s.HasEdge .contradiction old new ∧ s.Shares old new ∧
    (∃ D, refining B C = some D ∧ Eligible B C D s old new) ∧
    ∃ D, contradicting B C = some D ∧ Eligible B C D s old new

/-- A pair is entered at most once, and then its edge is made. -/
lemma countP_entered (h : s.engine.graph.graph.Ok) (ps : List ProposedSupersession)
    (kind : SupersessionKind) (old new : String) :
    let count := (entered E B C s ps).countP fun p => p.kind = kind ∧ p.oldId = old ∧ p.newId = new
    count ≤ 1 ∧ (0 < count → ¬ s.HasEdge kind old new ∧ s.knows old = true ∧
      s.knows new = true ∧ ∃ p ∈ ps, p.kind = kind ∧ p.oldId = old ∧ p.newId = new) := by
  induction ps generalizing s with
  | nil => simp [entered]
  | cons p ps ih =>
    have hone := revises_commitOne (E := E) (B := B) (C := C) h 0 p
    have hrest := ih hone.graph
    dsimp only [entered] at hrest ⊢
    rcases commitOne_spec E B C h 0 p with ⟨-, hadd, heq⟩ | ⟨e', hcommit, hadd, -⟩
    · rw [heq] at hrest ⊢
      simp only [hadd, Bool.false_eq_true, if_false]
      refine ⟨hrest.1, fun hpos => ?_⟩
      obtain ⟨hfresh, hold, hnew, q, hq, hkey⟩ := hrest.2 hpos
      exact ⟨hfresh, hold, hnew, q, mem_cons_of_mem _ hq, hkey⟩
    · simp only [hadd, if_true, countP_cons]
      rw [hone.knows] at hrest
      obtain ⟨hold, hnew, hfresh⟩ := hcommit.enters
      by_cases hkey : p.kind = kind ∧ p.oldId = old ∧ p.newId = new
      · -- The edge is there for the pairs that follow.
        obtain ⟨rfl, rfl, rfl⟩ := id hkey
        have hedge := (hone.edges p.kind p.oldId p.newId).mpr
          (.inr ⟨hold, hnew, p, mem_singleton_self p, rfl, rfl, rfl⟩)
        have hzero : ¬ 0 < _ := fun hpos => (hrest.2 hpos).1 hedge
        simp only [and_self, decide_true, if_true]
        exact ⟨by omega, fun _ => ⟨hfresh, hold, hnew, p, mem_cons_self, rfl, rfl, rfl⟩⟩
      · simp only [hkey, decide_false, Bool.false_eq_true, if_false, Nat.add_zero]
        refine ⟨hrest.1, fun hpos => ?_⟩
        obtain ⟨hfresh, hold, hnew, q, hq, hkey⟩ := hrest.2 hpos
        exact ⟨fun hedge => hfresh ((hone.edges ..).mpr (.inl hedge)), hold, hnew, q,
          mem_cons_of_mem _ hq, hkey⟩

/-- The pairs of a pass: what their commit does, of which kind they are, and why they are there. -/
structure Passed (B : BeliefArith) (C : BeliefConfig) (D : Option Detection) (ann : Ann)
    (s s' : BeliefEngine) (ps demoted : List ProposedSupersession) : Prop where
  revises : Revises s s' ps
  proposed : ∀ p ∈ ps, ∃ d, D = some d ∧ p.kind = d.kind ∧ p.oldId ≠ p.newId ∧
    Eligible B C d s p.oldId p.newId ∧ s.Shares p.oldId p.newId ∧
    ∃ c v scope ids, ann c false v scope = .ok ids ∧ p.oldId ∈ ids
  once : ∀ kind old new,
    let count := demoted.countP fun p => p.kind = kind ∧ p.oldId = old ∧ p.newId = new
    count ≤ 1 ∧ (0 < count → Gains s s' kind old new)
  subset : demoted ⊆ ps

/-- Only proposed pairs are entered. -/
lemma entered_subset (ps : List ProposedSupersession) : entered E B C s ps ⊆ ps := by
  induction ps generalizing s with
  | nil => exact .refl _
  | cons p ps ih =>
    rw [entered]
    split
    · exact cons_subset_cons _ ih
    · exact subset_cons_of_subset _ ih

/-- Demote the older memories of pairs. -/
def demoteAll (B : BeliefArith) (C : BeliefConfig) (t : DemotionTable)
    (ps : List ProposedSupersession) : DemotionTable :=
  ps.foldl (fun t p => demote B C t p.oldOffset) t

/-- A commit demotes the older memories of the pairs it enters. -/
lemma demotion_foldl_commitOne (ps : List ProposedSupersession) (n : ℕ) :
    (ps.foldl (commitOne E B C) (n, s)).2.demotion =
      demoteAll B C s.demotion (entered E B C s ps) := by
  induction ps generalizing n s with
  | nil => rfl
  | cons p ps ih =>
    simp only [foldl_cons, entered, commitOne]
    split <;> exact ih _

/-- So does that of a detection. -/
lemma demotion_detect (D : Option Detection) (ann : Ann) :
    (commitProposed E B C (detect E B C ann D s)).2.demotion = demoteAll B C s.demotion
      (entered E B C (detect E B C ann D s).2 (proposals (detect E B C ann D s))) := by
  have hdrained : (detect E B C ann D s).2.demotion = s.demotion := by
    cases D <;> rfl
  rw [← hdrained]
  generalize detect E B C ann D s = r
  obtain ⟨err | ps, s⟩ := r
  · rfl
  · simp only [commitProposed, proposals, commitSupersessions]
    rw [← demotion_foldl_commitOne ps 0]
    split <;> rfl

/-- **The demotions of a consolidation** are those of the pairs it lists. -/
lemma demotion_consolidate (flags : ConsolidationFlags) (annR annC : Ann) :
    (consolidate E B C flags annR annC s).1.demotion =
      demoteAll B C s.demotion (consolidate E B C flags annR annC s).2 := by
  have hrefs : (checkRefinements E B C annR s).2.demotion = _ := demotion_detect (refining B C) annR
  unfold consolidate
  split
  · rfl
  · dsimp only
    split
    · next s₁ heq =>
      rw [heq] at hrefs
      exact hrefs
    · next s₁ heq =>
      rw [heq] at hrefs
      refine (demotion_detect (contradicting B C) annC).trans ?_
      rw [demoteAll, demoteAll, foldl_append]
      exact congrArg (demoteAll B C · _) hrefs

/-- A detection and its commit. -/
lemma passed_detect (h : s.engine.graph.graph.Ok) {D : Option Detection}
    (hD : ∀ d, D = some d → Textual d) (ann : Ann) :
    Passed B C D ann s (commitProposed E B C (detect E B C ann D s)).2
      (proposals (detect E B C ann D s))
      (entered E B C (detect E B C ann D s).2 (proposals (detect E B C ann D s))) := by
  cases D with
  | none =>
    exact ⟨revises_nil h, by simp [detect, proposals], by simp [detect, proposals, entered],
      entered_subset _⟩
  | some D =>
    have hdrain := revises_drain h
    cases hps : (propose E B C ann D s).1 with
    | error err =>
      have heq : propose E B C ann D s = (.error err, s.drain) := Prod.ext hps rfl
      simp only [detect, heq, commitProposed, proposals, entered]
      exact ⟨hdrain, by simp, by simp, .refl _⟩
    | ok ps =>
      have heq : propose E B C ann D s = (.ok ps, s.drain) := Prod.ext hps rfl
      simp only [detect, heq, commitProposed, proposals]
      have hrevises := hdrain.trans
        (revises_commitSupersessions (E := E) (B := B) (C := C) hdrain.graph ps)
      refine ⟨hrevises, fun p hp => ?_, fun kind old new => ?_, entered_subset ps⟩
      · exact ⟨D, rfl, eligible_of_proposed h (hD D rfl) hps hp⟩
      · obtain ⟨hle, hpos⟩ := countP_entered hdrain.graph ps kind old new
        refine ⟨hle, fun hcount => ?_⟩
        obtain ⟨hfresh, hold, hnew, hmem⟩ := hpos hcount
        exact ⟨hfresh, (hrevises.edges kind old new).mpr (.inr ⟨hold, hnew, hmem⟩)⟩

section Cycle

variable {D D' : Option Detection} {ann ann' : Ann}
  {refs cons demoted demoted' : List ProposedSupersession}

section

variable (h : Passed B C D ann s s' refs demoted)
include h

/-- A pass has one kind. -/
lemma Passed.kind {kind : SupersessionKind}
    (hD : ∀ d, D = some d → d.kind = kind) (hp : p ∈ refs) : p.kind = kind := by
  obtain ⟨d, hd, hkind, -⟩ := h.proposed p hp
  exact hkind.trans (hD d hd)

/-- A pass makes edges of its own kind only. -/
lemma Passed.edge_iff_of_ne {kind other : SupersessionKind} (hD : ∀ d, D = some d → d.kind = kind)
    (hne : other ≠ kind) : s'.HasEdge other old new ↔ s.HasEdge other old new := by
  rw [h.revises.edges]
  refine ⟨?_, .inl⟩
  rintro (hedge | ⟨-, -, p, hp, hkind, -⟩)
  · exact hedge
  · exact absurd (hkind.symm.trans (h.kind hD hp)) hne

/-- Counting the pairs of that kind. -/
lemma Passed.countP_eq {kind : SupersessionKind}
    (hD : ∀ d, D = some d → d.kind = kind) (old new : String) :
    (demoted.countP fun p => p.oldId = old ∧ p.newId = new) =
      demoted.countP fun p => p.kind = kind ∧ p.oldId = old ∧ p.newId = new := by
  refine countP_congr fun p hp => ?_
  simp [h.kind hD (h.subset hp)]

/-- The edges decide over the demotions. -/
lemma Passed.oneEach
    (hD : ∀ d, D = some d → d.kind = .refinement) (h' : Passed B C D' ann' s' s'' cons demoted')
    (hD' : ∀ d, D' = some d → d.kind = .contradiction) (hedges : ∀ old new,
      ¬ (Gains s s' .refinement old new ∧ Gains s' s'' .contradiction old new)) :
    OneEach s (s'', demoted ++ demoted') := by
  refine ⟨fun old new ⟨href, hcon⟩ => hedges old new ?_, fun old new => ?_⟩
  · unfold Gains at href hcon ⊢
    rw [h'.edge_iff_of_ne hD' (by simp)] at href
    rw [← h.edge_iff_of_ne hD (by simp)] at hcon
    exact ⟨href, hcon⟩
  · rw [countP_append, h.countP_eq hD, h'.countP_eq hD']
    obtain ⟨hle, hgains⟩ := h.once .refinement old new
    obtain ⟨hle', hgains'⟩ := h'.once .contradiction old new
    have hnot := hedges old new
    by_contra hlt
    exact hnot ⟨hgains (by omega), hgains' (by omega)⟩

end

/-- A pair that gets both edges clashes, and the second search finds a superseded memory. -/
lemma Passed.clash (h : Passed B C (refining B C) ann s s' refs demoted)
    (h' : Passed B C (contradicting B C) ann' s' s'' cons demoted')
    (href : Gains s s' .refinement old new) (hcon : Gains s' s'' .contradiction old new) :
    Clash B C s ∧ ¬ s'.Hides ann' := by
  rcases (h.revises.edges ..).mp href.2 with hedge | ⟨hold, hnew, p, hp, -, rfl, rfl⟩
  · exact absurd hedge href.1
  rcases (h'.revises.edges ..).mp hcon.2 with hedge | ⟨-, -, q, hq, -, hqold, hqnew⟩
  · exact absurd hedge hcon.1
  obtain ⟨D, hD, -, hne, heligible, hshares, -⟩ := h.proposed p hp
  obtain ⟨D', hD', -, -, heligible', -, c, v, scope, ids, hsearch, hmem⟩ := h'.proposed q hq
  rw [hqold, hqnew, h.revises.eligible_iff (textual_contradicting hD')] at heligible'
  have hfresh : ¬ s.HasEdge .contradiction p.oldId p.newId :=
    fun hedge => hcon.1 ((h.revises.edges ..).mpr (.inl hedge))
  refine ⟨⟨p.oldId, p.newId, hne, hold, hnew, href.1, hfresh, hshares, ⟨D, hD, heligible⟩, D',
    hD', heligible'⟩, fun hhides => hhides c false v scope ids hsearch _ hmem ?_⟩
  rw [hqold]
  exact MemoryGraph.mem_supersededIds.mpr
    ⟨p.newId, MemoryGraph.mem_supersessions.mpr ⟨.refines, rfl, href.2⟩⟩

end Cycle

/-- For some searches a detection makes the edge of an eligible pair. -/
lemma exists_edge (hs : s.engine.graph.graph.Ok) (hids : ∀ id o,
      s.engine.idIndex[id]? = some o ↔ s.engine.metadata.idOf o = some id)
    {D : Detection} (hD : Textual D) (hmax : 0 < D.maxPairs)
    (hne : old ≠ new) (hold : s.knows old = true) (hnew : s.knows new = true)
    (heligible : Eligible B C D s old new) (hshares : s.Shares old new) :
    ∃ ann made s', commitProposed E B C (detect E B C ann (some D) s) = (.ok made, s') ∧
      s'.HasEdge D.kind old new := by
  obtain ⟨c, ps, hps, p, hp, hkey⟩ := exists_proposed (E := E) hids hs hD hmax hne heligible hshares
  have heq : propose E B C (pointAnn c old new) D s = (.ok ps, s.drain) := Prod.ext hps rfl
  have hrevises := (revises_drain hs).trans
    (revises_commitSupersessions (E := E) (B := B) (C := C) (revises_drain hs).graph ps)
  refine ⟨pointAnn c old new, (commitSupersessions E B C s.drain ps).1,
    (commitSupersessions E B C s.drain ps).2, by rw [detect, heq, commitProposed], ?_⟩
  exact (hrevises.edges D.kind old new).mpr (.inr ⟨hold, hnew, p, hp, hkey⟩)

/-- **A pair gets one edge just if searches hide superseded memories or no pair clashes.** Unless
the commit is left to the caller, a consolidation keeps refinements and contradictions apart for all
searches if these exclude superseded memories or no pair can be proposed by both detections; where
the id index agrees with the records only then. **Proof sketch.** Each pass adds edges of one kind.
A pair with both edges was proposed twice, so it clashes; after the first time its older memory is
superseded. Conversely, searches that lead from the records of a clashing pair to each other make
both passes propose it. -/
theorem oneEach_iff (hs : s.engine.graph.graph.Ok) (flags : ConsolidationFlags) :
    let Kept := ∀ annR annC, Admissible E B C flags annR annC s →
      OneEach s (consolidate E B C flags annR annC s)
    let Apart := flags.deferSupersessionCommit = true ∨ flags.excludeSuperseded = true ∨
      ¬ Clash B C s
    (Apart → Kept) ∧ ((∀ id o,
      s.engine.idIndex[id]? = some o ↔ s.engine.metadata.idOf o = some id) → Kept → Apart) := by
  have hfirst : ∀ annR, Passed B C (refining B C) annR s (checkRefinements E B C annR s).2
      (proposals (proposeRefinements E B C annR s))
      (entered E B C (proposeRefinements E B C annR s).2
        (proposals (proposeRefinements E B C annR s))) := by
    intro annR
    rw [checkRefinements, proposeRefinements]
    exact passed_detect hs (fun d => textual_refining) annR
  have hsecond : ∀ annC {s₁ : BeliefEngine}, s₁.engine.graph.graph.Ok →
      Passed B C (contradicting B C) annC s₁ (checkContradictions E B C annC s₁).2
        (proposals (proposeContradictions E B C annC s₁))
        (entered E B C (proposeContradictions E B C annC s₁).2
          (proposals (proposeContradictions E B C annC s₁))) := by
    intro annC s₁ hs₁
    rw [checkContradictions, proposeContradictions]
    exact passed_detect hs₁ (fun d => textual_contradicting) annC
  refine ⟨fun hapart annR annC hadmissible => ?_, fun hids hkept => ?_⟩
  · unfold consolidate
    split
    · exact ⟨fun old new hboth => hboth.1.1 hboth.1.2, by simp⟩
    · next hdefer =>
      have hrefs := hfirst annR
      have hkind : ∀ d, refining B C = some d → d.kind = .refinement :=
        fun d hd => (Detection.when_spec hd).1
      dsimp only
      split
      · next err s₁ heq =>
        rw [heq] at hrefs
        have hrest : Passed B C none annC s₁ s₁ [] [] :=
          ⟨revises_nil hrefs.revises.graph, by simp, by simp, by simp⟩
        have hone := hrefs.oneEach hkind hrest (by simp) fun old new hboth =>
          hboth.2.1 hboth.2.2
        rwa [append_nil] at hone
      · next made s₁ heq =>
        rw [heq] at hrefs
        have hcons := hsecond annC hrefs.revises.graph
        refine hrefs.oneEach hkind hcons (fun d hd => (Detection.when_spec hd).1)
          fun old new hboth => ?_
        obtain ⟨href, hcon⟩ := hboth
        obtain ⟨hclash, hsees⟩ := hrefs.clash hcons href hcon
        rcases hapart with hflag | hflag | hfree
        · exact hdefer hflag
        · have hhides := (hadmissible hflag).2
          rw [heq] at hhides
          exact hsees hhides
        · exact hfree hclash
  · by_contra hnot
    obtain ⟨hdefer, hexclude, hclash⟩ := not_or.mp hnot |>.imp_right not_or.mp
    obtain ⟨old, new, hne, hold, hnew, hfresh, hfresh', hshares, ⟨D, hD, heligible⟩, D', hD',
      heligible'⟩ := not_not.mp hclash
    -- The first pass makes the one edge and leaves the pair eligible for the second.
    obtain ⟨annR, made, s₁, hcheck, hedge⟩ := exists_edge hs hids (textual_refining hD)
      (Detection.when_spec hD).2.2 hne hold hnew heligible hshares
    rw [← hD, ← proposeRefinements, ← checkRefinements] at hcheck
    have hrefs := hfirst annR
    rw [hcheck] at hrefs
    have hrevises := hrefs.revises
    obtain ⟨annC, made', s₂, hcheck', hedge'⟩ := exists_edge hrevises.graph
      (hrevises.ids hids) (textual_contradicting hD') (Detection.when_spec hD').2.2 hne
      (hrevises.knows ▸ hold) (hrevises.knows ▸ hnew)
      ((hrevises.eligible_iff (textual_contradicting hD')).mpr heligible')
      (hrevises.shares hshares)
    rw [← hD', ← proposeContradictions, ← checkContradictions] at hcheck'
    have hcons := hsecond annC hrevises.graph
    rw [hcheck'] at hcons
    have hkept := (hkept annR annC fun hflag => absurd hflag hexclude).edges old new
    rw [consolidate, if_neg hdefer] at hkept
    simp only [hcheck, hcheck'] at hkept
    rw [(Detection.when_spec hD).1] at hedge
    rw [(Detection.when_spec hD').1] at hedge'
    exact hkept ⟨⟨hfresh, (hcons.revises.edges ..).mpr (.inl hedge)⟩, hfresh', hedge'⟩

end BeliefEngine

/-! ## Two statements about Alice -/

/-- Arithmetic for two memories with one vector whose texts share two of seven words, one of them
with the word `instead`; products with `0.4` are formed of `1.0` and `0.4`. -/
def opposedBelief : BeliefArith :=
  { sampleBelief with
    textJaccardSimilarity := fun a b => if a = b then F32.one else ⟨0x3E924925⟩
    hasOppositionMarker := fun text => text = "Alice lives Berlin Germany instead"
    mul := fun x y => if x = F32.one then y else ⟨0x3E23D70B⟩ }

/-- The default settings, with both detections on. -/
def opposedConfig : BeliefConfig where
  refinementCosineThreshold := some ⟨0x3F59999A⟩
  refinementMaxPairsPerCycle := 1024
  refinementTextThreshold := ⟨0x3E800000⟩
  contradictionCosineThreshold := some ⟨0x3F333333⟩
  contradictionMaxPairsPerCycle := 1024
  contradictionTextThreshold := ⟨0x3E99999A⟩
  contradictionRequireOpposition := true
  contradictionWeakenFactor := ⟨0x3F000000⟩
  supersessionDemotionFactor := ⟨0x3ECCCCCD⟩
  beliefSourceRoles := none
  incrementalSupersessionDetection := false

namespace BeliefEngine

/-- The default flags. -/
def sampleFlags : ConsolidationFlags := ⟨false, false⟩

/-- The two statements, one after the other. -/
def opposed (s : BeliefEngine) : BeliefEngine :=
  [("a", "Alice lives Paris France"), ("b", "Alice lives Berlin Germany instead")].foldl
    (fun s m => (s.call beliefEnv Io.ok
      (.insert 5 { sampleInput m.1 m.2 none with concepts := ["topic"] })).2) s

instance (s : BeliefEngine) (kind : SupersessionKind) (old new : String) :
    Decidable (s.HasEdge kind old new) := by
  unfold HasEdge MemoryGraph.HasBelief
  infer_instance

instance (s s' : BeliefEngine) (kind : SupersessionKind) (old new : String) :
    Decidable (Gains s s' kind old new) := by
  unfold Gains
  infer_instance

set_option maxRecDepth 10000

/-- The same settings, but texts that overlap enough for a refinement do not oppose each other. -/
def disjointConfig : BeliefConfig :=
  { opposedConfig with contradictionTextThreshold := opposedConfig.refinementTextThreshold }

/-- Disjoint thresholds do not clash. -/
lemma not_clash_disjointConfig (s : BeliefEngine) : ¬ Clash opposedBelief disjointConfig s := by
  rintro ⟨old, new, -, -, -, -, -, -, -, D, hD, -, -, x, y, -, -, -, -, -, -, hgate, -⟩
  cases hD
  by_cases htext : x.text = y.text
  · simp [opposedBelief, htext, disjointConfig, opposedConfig, sampleBelief] at hgate
    exact absurd hgate.1 (by decide)
  · simp [opposedBelief, htext, disjointConfig, opposedConfig, sampleBelief] at hgate
    exact absurd hgate.1 (by decide)

/-- With the default thresholds one consolidation refines and contradicts a pair, and demotes its
older memory twice, to the floor. -/
theorem refined_and_contradicted : ∃ s, Run beliefEnv opposedBelief opposedConfig s ∧
    ∃ r, consolidate beliefEnv opposedBelief opposedConfig sampleFlags sampleAnn sampleAnn s = r ∧
      Gains s r.1 .refinement "a" "b" ∧ Gains s r.1 .contradiction "a" "b" ∧
      (r.2.countP fun p => p.oldId = "a" ∧ p.newId = "b") = 2 ∧
      r.1.demotion.demotionFactor 0 = supersessionDemotionFloor := by
  obtain ⟨s₀, hopen, htest⟩ := exists_opened_belief (P := fun s₀ =>
    let s := s₀.opposed
    let r := consolidate beliefEnv opposedBelief opposedConfig sampleFlags sampleAnn sampleAnn s
    Gains s r.1 .refinement "a" "b" ∧ Gains s r.1 .contradiction "a" "b" ∧
      (r.2.countP fun p => p.oldId = "a" ∧ p.newId = "b") = 2 ∧
      r.1.demotion.demotionFactor 0 = supersessionDemotionFloor) (by decide +kernel)
  have hrun : Run beliefEnv opposedBelief opposedConfig s₀.opposed :=
    ((Run.new sampleConfig hopen).step (.request s₀ Io.ok _)).step (.request _ Io.ok _)
  exact ⟨s₀.opposed, hrun, _, rfl, htest⟩

/-- A refinement that is not a contradiction as well. -/
theorem oneEach_disjoint : ∃ s r, Run beliefEnv opposedBelief disjointConfig s ∧
    consolidate beliefEnv opposedBelief disjointConfig sampleFlags sampleAnn sampleAnn s = r ∧
    Gains s r.1 .refinement "a" "b" ∧ OneEach s r := by
  obtain ⟨s₀, hopen, hgains⟩ := exists_opened_belief (P := fun s₀ =>
    Gains s₀.opposed (consolidate beliefEnv opposedBelief disjointConfig sampleFlags
      sampleAnn sampleAnn s₀.opposed).1 .refinement "a" "b") (by decide +kernel)
  have hrun : Run beliefEnv opposedBelief disjointConfig s₀.opposed :=
    ((Run.new sampleConfig hopen).step (.request s₀ Io.ok _)).step (.request _ Io.ok _)
  have hgraph := (hrun.grounded ownSnapshots_beliefEnv).graph
  have hkept := (oneEach_iff (E := beliefEnv) hgraph sampleFlags).1
    (.inr (.inr (not_clash_disjointConfig _)))
  exact ⟨s₀.opposed, _, hrun, rfl, hgains,
    hkept sampleAnn sampleAnn fun hflag => absurd hflag (by decide)⟩

end BeliefEngine

end TurboMemory
