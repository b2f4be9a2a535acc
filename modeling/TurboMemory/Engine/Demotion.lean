import TurboMemory.Engine.BeliefCrash

/-!
# Demotion after a kill

A commit enters the edge of a detected pair and demotes the older memory. The edge is saved at
once, the factor with the next flush. After a kill between the two the edge is there and the factor
is not; a pass that detects the pair again finds the edge and does not demote.

## Main results

* `BeliefEngine.Sound.demotes_commitSupersessions` — a commit demotes the older records of the
  pairs that enter, and no others.
* `BeliefEngine.demoted_open_iff` — all live memories with an edge are demoted after an open just if
  on disk the saved factors are in step with the saved edges (`BeliefEngine.Restorable`).
* `BeliefEngine.Sound.restorable_flush` — a flush leaves files that are.
* `BeliefEngine.demoted_after_reopen_iff` — when all are demoted after a new open and both passes.
* `BeliefEngine.not_demoted_after_kill` — a memory that stays without a factor.
-/

set_option autoImplicit false

namespace TurboMemory

open List F32

/-- The edge that a pair stands for. -/
def ProposedSupersession.key (p : ProposedSupersession) : String × String × SupersessionKind :=
  (p.oldId, p.newId, p.kind)

/-- Pairs for the same edge name the same older record. -/
def ProposedSupersession.Agree (ps : List ProposedSupersession) : Prop :=
  ∀ p ∈ ps, ∀ q ∈ ps, p.key = q.key → p.oldOffset = q.oldOffset

namespace BeliefEngine

open ProposedSupersession

variable {E : Env} {B : BeliefArith} {C : BeliefConfig} {s s' s'' : BeliefEngine}

/-! ## Pairs that enter -/

/-- What decides whether a pair enters. -/
lemma enters_congr {p q : ProposedSupersession} (h : p.key = q.key) : s.Enters p ↔ s.Enters q := by
  obtain ⟨hold, hrest⟩ := Prod.mk.inj h
  obtain ⟨hnew, hkind⟩ := Prod.mk.inj hrest
  rw [Enters, Enters, hold, hnew, hkind]

/-- What committing pairs does: missing edges are entered, and the older records of their pairs
demoted. -/
structure Demotes (E : Env) (B : BeliefArith) (s s' : BeliefEngine)
    (ps : List ProposedSupersession) : Prop where
  sound : s'.Sound E B
  provenance : s'.engine.metadata.records.provenance = s.engine.metadata.records.provenance
  pairs : ∀ q, q ∈ s'.pairs ↔ q ∈ s.pairs ∨ ∃ p ∈ ps, s.Enters p ∧ q = (p.oldId, p.newId)
  factors : ∀ o, B.lt (s'.demotion.demotionFactor o) one = true ↔
    B.lt (s.demotion.demotionFactor o) one = true ∨ ∃ p ∈ ps, s.Enters p ∧ p.oldOffset = o
  enters : ∀ q, s'.Enters q ↔ s.Enters q ∧ ∀ p ∈ ps, q.key ≠ p.key

/-- A step that keeps the graph, the factors and the provenance. -/
lemma Demotes.nil (h : s'.Sound E B)
    (hprov : s'.engine.metadata.records.provenance = s.engine.metadata.records.provenance)
    (hgraph : s'.engine.graph.graph = s.engine.graph.graph)
    (hfactors : s'.demotion.factors = s.demotion.factors) : Demotes E B s s' [] where
  sound := h
  provenance := hprov
  pairs q := by simp [BeliefEngine.pairs, hgraph]
  factors o := by simp [DemotionTable.demotionFactor, hfactors]
  enters q := by simp [Enters, knows, hgraph]

variable {ps : List ProposedSupersession}

/-- The pairs that enter, one list after the other: of two pairs for one edge the first one does. -/
lemma Demotes.exists_append {qs : List ProposedSupersession} (h : Demotes E B s s' ps)
    {P : ProposedSupersession → Prop}
    (hP : ∀ p ∈ ps, ∀ q ∈ qs, q.key = p.key → P q → P p) :
    ((∃ p ∈ ps, s.Enters p ∧ P p) ∨ ∃ q ∈ qs, s'.Enters q ∧ P q) ↔
      ∃ p ∈ ps ++ qs, s.Enters p ∧ P p := by
  constructor
  · rintro (⟨p, hp, hent, hPp⟩ | ⟨q, hq, hent, hPq⟩)
    · exact ⟨p, mem_append_left _ hp, hent, hPp⟩
    · exact ⟨q, mem_append_right _ hq, ((h.enters q).mp hent).1, hPq⟩
  · rintro ⟨q, hq, hent, hPq⟩
    rcases mem_append.mp hq with hq | hq
    · exact .inl ⟨q, hq, hent, hPq⟩
    by_cases hsame : ∃ p ∈ ps, q.key = p.key
    · obtain ⟨p, hp, hkey⟩ := hsame
      exact .inl ⟨p, hp, (enters_congr hkey).mp hent, hP p hp q hq hkey hPq⟩
    · exact .inr ⟨q, hq, (h.enters q).mpr ⟨hent, fun p hp hkey => hsame ⟨p, hp, hkey⟩⟩, hPq⟩

/-- One commit after the other. -/
lemma Demotes.trans {ps qs : List ProposedSupersession} (h : Demotes E B s s' ps)
    (h' : Demotes E B s' s'' qs) (hagree : Agree (ps ++ qs)) : Demotes E B s s'' (ps ++ qs) where
  sound := h'.sound
  provenance := h'.provenance.trans h.provenance
  pairs r := by
    rw [h'.pairs, h.pairs, or_assoc, h.exists_append]
    rintro p - q - hkey rfl
    obtain ⟨hold, hrest⟩ := Prod.mk.inj hkey
    rw [hold, (Prod.mk.inj hrest).1]
  factors o := by
    rw [h'.factors, h.factors, or_assoc, h.exists_append]
    rintro p hp q hq hkey rfl
    exact (hagree q (mem_append_right _ hq) p (mem_append_left _ hp) hkey).symm
  enters r := by
    rw [h'.enters, h.enters, and_assoc]
    refine and_congr_right fun _ => ?_
    simp only [mem_append, or_imp, forall_and]

/-! ## Commits -/

section Commit

variable (hB : B.UnitFloats) (hC : B.lt C.supersessionDemotionFactor one = true)
include hB hC

/-- Committing one pair. -/
lemma Sound.demotes_commitOne (h : s.Sound E B) (n : ℕ) (p : ProposedSupersession) :
    Demotes E B s (BeliefEngine.commitOne E B C (n, s) p).2 [p] := by
  have hsound := h.commitOne (n := n) hB hC p
  rcases commitOne_spec E B C h.graph n p with ⟨hskip, -, heq⟩ | ⟨e', hone, -, heq⟩
  · rw [heq]
    refine ⟨h, rfl, by simp [hskip], by simp [hskip], fun q => ?_⟩
    simp only [mem_singleton, forall_eq]
    exact ⟨fun henters => ⟨henters, fun hkey => hskip ((enters_congr hkey).mp henters)⟩, And.left⟩
  · rw [heq] at hsound ⊢
    obtain ⟨-, hlow, hother⟩ := DemotionTable.demote_spec hB hC h.demotion p.oldOffset
    refine ⟨hsound, provenance_of_enriches hone.records, fun q => ?_, fun o => ?_, fun q => ?_⟩
    · simp only [pairs, mem_singleton, exists_eq_left, hone.enters, true_and]
      rw [hone.supersessions, mem_append, mem_singleton]
    · simp only [mem_singleton, exists_eq_left, hone.enters, true_and]
      by_cases ho : o = p.oldOffset
      · subst ho
        exact ⟨fun _ => .inr rfl, fun _ => hlow⟩
      · rw [hother o ho]
        exact ⟨.inl, fun hor => hor.resolve_right (Ne.symm ho)⟩
    · simp only [Enters, hone.knows, hone.beliefs, mem_singleton, forall_eq,
        key, ne_eq, Prod.mk.injEq]
      tauto

/-- **What a commit does** to the factors: the older records of the pairs that enter are demoted,
and no others. -/
lemma Sound.demotes_commitSupersessions (h : s.Sound E B)
    (hagree : Agree ps) : Demotes E B s (BeliefEngine.commitSupersessions E B C s ps).2 ps := by
  refine commitSupersessions_induction (P := fun done s' => Demotes E B s s' done) B C
    (.nil h rfl rfl rfl) (fun done p n s' hpre hs' => ?_) fun s' hs' => ?_
  · exact hs'.trans (hs'.sound.demotes_commitOne hB hC n p) fun q hq r hr =>
      hagree q (hpre.subset hq) r (hpre.subset hr)
  · exact { hs' with sound := { hs'.sound with
      saved := fun _ hbytes => ⟨_, hs'.sound.graph, (Option.some.inj hbytes).symm⟩
      clean := { hs'.sound.clean with } } }

end Commit

/-! ## Detection -/

variable {ann : Ann} {D : Detection}

/-- Pairs of one kind that agree and name live records, and what committing them does. -/
structure Pass (E : Env) (B : BeliefArith) (s s' : BeliefEngine) (kind : SupersessionKind)
    (ps : List ProposedSupersession) : Prop where
  agree : Agree ps
  kind : ∀ p ∈ ps, p.kind = kind
  older : ∀ p ∈ ps, ∃ a, s.engine.metadata.records.provenance p.oldOffset = some a ∧ a.id = p.oldId
  demotes : Demotes E B s s' ps

section Passes

variable (hB : B.UnitFloats) (hC : B.lt C.supersessionDemotionFactor one = true)
include hB hC

section

variable (h : s.Sound E B)
include h

/-- A detection and its commit. -/
lemma Sound.pass_propose (hps : (propose E B C ann D s).1 = .ok ps) :
    Pass E B s (commitProposed E B C (propose E B C ann D s)).2 D.kind ps := by
  have hold : ∀ p ∈ ps, ((candidates E s.drain.engine).find? (·.2.id = p.oldId)).map Prod.fst =
      some p.oldOffset ∧ p.kind = D.kind := by
    intro p hp
    rcases mem_proposeLoop hps hp with hmem | ⟨cand, -, -, hone⟩
    · cases hmem
    · obtain ⟨-, v, w, other, -, -, hfind, -, -, -, rfl⟩ := proposeOne_eq_some_iff.mp hone
      exact ⟨by rw [hfind]; rfl, rfl⟩
  have hagree : Agree ps := by
    intro p hp q hq hkey
    have hp := (hold p hp).1
    rw [(Prod.mk.inj hkey).1, (hold q hq).1] at hp
    exact (Option.some.inj hp).symm
  have hdrain : Demotes E B s s.drain [] := .nil h.drain (Engine.drainInto_spec _ _).2.1 rfl rfl
  have heq : propose E B C ann D s = (.ok ps, s.drain) := Prod.ext hps rfl
  have holder : ∀ p ∈ ps,
      ∃ a, s.engine.metadata.records.provenance p.oldOffset = some a ∧ a.id = p.oldId := by
    intro p hp
    obtain ⟨c, hfind, hoff⟩ := Option.map_eq_some_iff.mp (hold p hp).1
    have hrecord := mem_candidates.mp (mem_of_find?_eq_some hfind)
    have hid := find?_some hfind
    refine ⟨c.2.provenance, ?_, of_decide_eq_true hid⟩
    rw [← hdrain.provenance, ← hoff]
    exact Option.map_eq_some_iff.mpr ⟨c.2, hrecord, rfl⟩
  rw [heq]
  exact ⟨hagree, fun p hp => (hold p hp).2, holder,
    hdrain.trans (h.drain.demotes_commitSupersessions hB hC hagree) hagree⟩

/-- A detection that may be switched off. -/
lemma Sound.pass_detect {D : Option Detection}
    {kind : SupersessionKind} (hkind : ∀ d, D = some d → d.kind = kind)
    (hps : (detect E B C ann D s).1 = .ok ps) :
    Pass E B s (commitProposed E B C (detect E B C ann D s)).2 kind ps := by
  cases D with
  | none =>
    cases hps
    exact ⟨by simp [Agree], by simp, by simp, .nil h rfl rfl rfl⟩
  | some D =>
    rw [← hkind D rfl]
    exact h.pass_propose hB hC hps

/-- The first pass. -/
lemma Sound.pass_checkRefinements (hps : (proposeRefinements E B C ann s).1 = .ok ps) :
    Pass E B s (checkRefinements E B C ann s).2 .refinement ps := by
  rw [checkRefinements]
  exact h.pass_detect hB hC (fun d hd => (Detection.when_spec hd).1) hps

/-- The second pass. -/
lemma Sound.pass_checkContradictions (hps : (proposeContradictions E B C ann s).1 = .ok ps) :
    Pass E B s (checkContradictions E B C ann s).2 .contradiction ps := by
  rw [checkContradictions]
  exact h.pass_detect hB hC (fun d hd => (Detection.when_spec hd).1) hps

end

end Passes

/-- Both passes, one after the other. -/
lemma Pass.both {refs cons : List ProposedSupersession}
    (h : Pass E B s s' .refinement refs) (h' : Pass E B s' s'' .contradiction cons) :
    Demotes E B s s'' (refs ++ cons) := by
  refine h.demotes.trans h'.demotes fun p hp q hq hkey => ?_
  have hkind : p.kind = q.kind := (Prod.mk.inj (Prod.mk.inj hkey).2).2
  rcases mem_append.mp hp with hp | hp <;> rcases mem_append.mp hq with hq | hq
  · exact h.agree p hp q hq hkey
  · rw [h.kind p hp, h'.kind q hq] at hkind
    cases hkind
  · rw [h'.kind p hp, h.kind q hq] at hkind
    cases hkind
  · exact h'.agree p hp q hq hkey

/-! ## Files -/

/-- Every live memory that another one supersedes is demoted. -/
def Demoted (B : BeliefArith) (s : BeliefEngine) : Prop :=
  ∀ (o : PointOffset) (a : Provenance), s.engine.metadata.records.provenance o = some a →
    (∃ new, (a.id, new) ∈ s.pairs) → B.lt (s.demotion.demotionFactor o) one = true

/-- The records and edges that are there decide it. -/
lemma demoted_iff_forall_mem : s.Demoted B ↔ ∀ p ∈ s.engine.metadata.records.toList,
    ∀ q ∈ s.pairs, q.1 = p.2.id → B.lt (s.demotion.demotionFactor p.1) one = true := by
  constructor
  · rintro h p hp ⟨old, new⟩ hq rfl
    exact h p.1 p.2.provenance (Option.map_eq_some_iff.mpr
      ⟨p.2, Std.ExtTreeMap.mem_toList_iff_getElem?_eq_some.mp hp, rfl⟩) ⟨new, hq⟩
  · rintro h o a ha ⟨new, hnew⟩
    obtain ⟨r, hr, rfl⟩ := Option.map_eq_some_iff.mp ha
    exact h (o, r) (Std.ExtTreeMap.mem_toList_iff_getElem?_eq_some.mpr hr) _ hnew rfl

instance decidableDemoted : Decidable (s.Demoted B) :=
  decidable_of_iff _ demoted_iff_forall_mem.symm

instance decidableHasBelief (g : MemoryGraph) (kind : EdgeKind) (old new : String) :
    Decidable (g.HasBelief kind old new) :=
  inferInstanceAs (Decidable (∃ e ∈ g.intEdges, e.kind = kind ∧ g.memoryName e.source = some old ∧
    g.memoryName e.target = some new))

/-- No two live records have the same id. -/
def Unique (s : BeliefEngine) : Prop :=
  ∀ (o o' : PointOffset) (a a' : Provenance), s.engine.metadata.records.provenance o = some a →
    s.engine.metadata.records.provenance o' = some a' → a.id = a'.id → o = o'

/-- Committing pairs none of which enters. -/
lemma Demotes.demoted_iff (h : Demotes E B s s' ps) (hnone : ∀ p ∈ ps, ¬s.Enters p) :
    s'.Demoted B ↔ s.Demoted B := by
  have hno : ∀ P : ProposedSupersession → Prop, ¬∃ p ∈ ps, s.Enters p ∧ P p :=
    fun P ⟨p, hp, henters, _⟩ => hnone p hp henters
  simp only [Demoted, h.provenance, h.pairs, h.factors, hno, or_false]

/-- Committing pairs that name live records. -/
lemma Demotes.demoted (h : Demotes E B s s' ps) (hunique : s.Unique)
    (holder : ∀ p ∈ ps, ∃ a,
      s.engine.metadata.records.provenance p.oldOffset = some a ∧ a.id = p.oldId)
    (hdemoted : s.Demoted B) : s'.Demoted B := by
  rintro o a ha ⟨new, hpair⟩
  rw [h.provenance] at ha
  rcases (h.pairs _).mp hpair with hpair | ⟨p, hp, henters, heq⟩
  · exact (h.factors o).mpr (.inl (hdemoted o a ha ⟨new, hpair⟩))
  · obtain ⟨b, hb, hid⟩ := holder p hp
    exact (h.factors o).mpr (.inr ⟨p, hp, henters,
      hunique _ _ _ _ hb ha (hid.trans (Prod.mk.inj heq).1.symm)⟩)

/-- The records that the snapshot and the log lead to. -/
def held (E : Env) (files : Engine) : PointOffset → Option Provenance :=
  (files.replay E).metadata.records.provenance

/-- The supersessions of the saved graph. -/
def savedPairs (E : Env) (d : Disk) : List (String × String) :=
  (d.redb.graph.bind E.fromSnapshotBytes).elim [] MemoryGraph.supersessions

/-- **The saved factors are in step with the saved edges**: a record of the files with a saved edge
from its memory to that of another one has a saved factor, and the log does not remove it. -/
def Restorable (E : Env) (config : StoreConfig) (d : Disk)
    (saved : Std.ExtTreeMap PointOffset F32) : Prop :=
  ∀ files, Engine.openFiles config d = .ok files →
    ∀ (o n : PointOffset) (a b : Provenance), held E files o = some a → held E files n = some b →
      (a.id, b.id) ∈ savedPairs E d →
      o ∈ saved ∧ ∀ op ∈ (files.wal.readAll E.codec).1, ¬files.Drops o op

section Open

variable {d : Disk} {saved : Std.ExtTreeMap PointOffset F32} {config : StoreConfig}
  {files : Engine}

/-- The supersessions after an open: the saved ones between records that the files hold. -/
lemma mem_pairs_open (hE : E.OwnSnapshots) (hgood : GoodGraph E d.redb.graph)
    (hfiles : Engine.openFiles config d = .ok files)
    (hopen : BeliefEngine.open E config d saved = .ok s) {q : String × String} :
    q ∈ s.pairs ↔ q ∈ savedPairs E d ∧ (∃ o a, held E files o = some a ∧ a.id = q.1) ∧
      ∃ n b, held E files n = some b ∧ b.id = q.2 := by
  obtain ⟨-, hgraph⟩ := Engine.open_graph (open_eq_ok hopen)
  obtain ⟨-, hrecords, hvectors⟩ := Engine.open_records hfiles (open_eq_ok hopen)
  have hlive : ∀ id, (∃ p ∈ s.engine.recordsVec E, p.2.id = id) ↔
      ∃ o a, held E files o = some a ∧ a.id = id := by
    intro id
    rw [held, ← hrecords]
    constructor
    · rintro ⟨p, hp, rfl⟩
      obtain ⟨m, hm, hid⟩ := Option.map_eq_some_iff.mp (Engine.idOf_of_mem_recordsVec hp)
      exact ⟨p.1, m.provenance, Option.map_eq_some_iff.mpr ⟨m, hm, rfl⟩, hid⟩
    · rintro ⟨o, a, ha, rfl⟩
      obtain ⟨m, hm, rfl⟩ := Option.map_eq_some_iff.mp ha
      obtain ⟨v, hv⟩ := hvectors o m hm
      exact ⟨(o, m.withEmbedding v), Engine.mem_recordsVec.mpr
        (Option.bind_eq_some_iff.mpr ⟨m, hm, by rw [hv]; rfl⟩), rfl⟩
  rw [pairs, hgraph, savedPairs]
  cases hbytes : d.redb.graph with
  | none =>
    show q ∈ (buildGraph E _).graph.supersessions ↔ _
    simp [(buildGraph_spec E _).2.1]
  | some bytes =>
    obtain ⟨g, hok, rfl⟩ := hgood bytes hbytes
    have hload : (some (E.toSnapshotBytes g)).bind E.fromSnapshotBytes = some g.reload :=
      hE.reload g
    rw [(rebuildGraph_spec E _ hok.reloaded.ok hload).2.1, hload, mem_filter, decide_eq_true_iff,
      hlive, hlive]
    rfl

/-- **Factors after an open.** All are there if and only if the saved factors are in step with the
saved edges. -/
lemma demoted_open_iff (hE : E.OwnSnapshots) (hB : B.UnitFloats) (h : SoundFiles E B d saved)
    (hopen : BeliefEngine.open E config d saved = .ok s) :
    s.Demoted B ↔ Restorable E config d saved := by
  obtain ⟨-, files, -, hfiles, -⟩ := Engine.open_eq_ok_iff.mp (open_eq_ok hopen)
  obtain ⟨-, hrecords, -⟩ := Engine.open_records hfiles (open_eq_ok hopen)
  have hfactor : ∀ o, B.lt (s.demotion.demotionFactor o) one = true ↔
      o ∈ saved ∧ ∀ op ∈ (files.wal.readAll E.codec).1, ¬files.Drops o op := by
    intro o
    rw [demotion_open hopen, (DemotionTable.sound_atOpen E config d h.demotion).lt_one_iff hB,
      DemotionTable.mem_atOpen hfiles]
  simp only [Demoted, hfactor, hrecords, mem_pairs_open hE h.graph hfiles hopen]
  constructor
  · intro hall files' hfiles' o n a b ha hb hpair
    cases hfiles.symm.trans hfiles'
    exact hall o a ha ⟨b.id, hpair, ⟨o, a, ha, rfl⟩, n, b, hb, rfl⟩
  · rintro hrest o a ha ⟨new, hpair, -, n, b, hb, rfl⟩
    exact hrest files hfiles o n a b ha hb hpair

end Open

/-! ## Kill points -/

/-- What a flush does: records and graph stay as they are, and the factors are saved. -/
lemma flush_spec {io : Io} {reply : Reply} (hflush : s.call E io .flush = (.ok reply, s')) :
    s'.engine.metadata.records.provenance = s.engine.metadata.records.provenance ∧
    s'.engine.graph = s.engine.graph ∧ s'.demotion = s.demotion.flush := by
  simp only [call, Engine.begin, Engine.flush, CriticalSections.runAll, exec, Engine.exec] at hflush
  rcases hvectors : s.engine.vectors.flush with ⟨_ | _, vectors⟩
  · simp [hvectors] at hflush
  · simp only [hvectors, Prod.mk.injEq] at hflush
    obtain rfl := hflush.2
    refine ⟨?_, rfl, rfl⟩
    rw [← (Engine.drainInto_spec s.engine.accessCounters.toList s.engine.metadata).2.1]
    exact congrArg Records.provenance (MetadataStore.flush_cache _ _).1

/-- **A kill after a flush.** When every superseded memory of a store is demoted, a flush leaves
files that are in step. -/
lemma Sound.restorable_flush (hE : E.OwnSnapshots) (hB : B.UnitFloats) (h : s.Sound E B)
    (hdemoted : s.Demoted B) {io : Io} {reply : Reply}
    (hflush : s.call E io .flush = (.ok reply, s')) (config : StoreConfig) :
    Restorable E config s'.engine.disk s'.demotion.saved := by
  have hsaved := Engine.saved_flush h.clean (engine_call hflush)
  obtain ⟨hprov, hgraph, hdemotion⟩ := flush_spec hflush
  intro files hfiles o n a b ha hb hpair
  obtain ⟨w, tail, hw, hholds⟩ := hsaved.wal.image.open
  obtain ⟨vs, w', -, hw', rfl⟩ := Engine.openFiles_eq_ok_iff.mp hfiles
  cases hw.symm.trans hw'
  -- The log is empty, so that the files hold the records of the snapshot.
  have hread := hholds.readAll
  have hheld : s.engine.metadata.records.provenance o = some a := by
    rw [← hprov, ← hsaved.records, ← ha, held, Engine.replay]
    simp only [hread, foldl_nil]
    rfl
  have hedge : (a.id, b.id) ∈ s.pairs := by
    rw [savedPairs, show s'.engine.disk.redb.graph = _ from hsaved.graph, Option.bind_some,
      hE.reload, hgraph] at hpair
    exact h.graph.reloaded.perm.mem_iff.mp hpair
  refine ⟨?_, by simp [hread]⟩
  rw [hdemotion, h.demotion.saved_flush]
  exact (h.demotion.lt_one_iff hB).mp (hdemoted o a hheld ⟨b.id, hedge⟩)

/-- **Demotion after a kill.** A store of any run is killed at any point and opened again, and both
passes detect and commit. If they detect pairs that have their edges, every superseded live memory
is demoted afterwards just if the saved factors are in step with the saved edges. Whatever they
detect, that is enough if no two live records share an id. **Proof sketch.** In all runs the graph
is good and factors are below `1.0` (`Reached.sound`). A commit enters missing edges and demotes the
older records (`Sound.demotes_commitSupersessions`); the passes enter edges of different kinds, so
neither keeps out a pair of the other. Pairs that have their edges change nothing, so the store is
as the files have it (`demoted_open_iff`). -/
theorem demoted_after_reopen_iff (hE : E.OwnSnapshots) (hB : B.UnitFloats)
    (hC : B.lt C.supersessionDemotionFactor one = true) {d : Disk}
    {saved : Std.ExtTreeMap PointOffset F32} (hreached : Reached E B C (.down d saved))
    {config : StoreConfig} (hopen : BeliefEngine.open E config d saved = .ok s) {ann ann' : Ann}
    {refs cons : List ProposedSupersession} (hrefs : (proposeRefinements E B C ann s).1 = .ok refs)
    (hcons : (proposeContradictions E B C ann' (checkRefinements E B C ann s).2).1 = .ok cons) :
    ((∀ p ∈ refs ++ cons, s.engine.graph.graph.HasBelief p.kind.edge p.oldId p.newId) →
      ((checkContradictions E B C ann' (checkRefinements E B C ann s).2).2.Demoted B ↔
        Restorable E config d saved)) ∧
    (s.Unique → Restorable E config d saved →
      (checkContradictions E B C ann' (checkRefinements E B C ann s).2).2.Demoted B) := by
  have hfiles := hreached.sound hE hB hC
  have hsound : s.Sound E B := SoundFiles.open hE hfiles hopen
  have hfirst := hsound.pass_checkRefinements hB hC hrefs
  have hsecond := hfirst.demotes.sound.pass_checkContradictions hB hC hcons
  have hboth := hfirst.both hsecond
  rw [← demoted_open_iff hE hB hfiles hopen]
  refine ⟨fun hsame => hboth.demoted_iff fun p hp henters => henters.2.2 (hsame p hp), ?_⟩
  intro hunique hdemoted
  refine hboth.demoted hunique (fun p hp => ?_) hdemoted
  rcases mem_append.mp hp with hp | hp
  · exact hfirst.older p hp
  · obtain ⟨a, ha, hid⟩ := hsecond.older p hp
    exact ⟨a, hfirst.demotes.provenance ▸ ha, hid⟩

/-! ## Two short runs -/

/-- The key of a float determines it. -/
lemma totalKey_inj {x y : F32} (h : x.totalKey = y.totalKey) : x = y := by
  obtain ⟨x⟩ := x
  obtain ⟨y⟩ := y
  have hx := x.toNat_lt
  have hy := y.toNat_lt
  have hbits : x.toNat = y.toNat := by
    unfold totalKey at h
    dsimp only at h
    split at h <;> split at h <;> omega
  rw [UInt32.toNat_inj.mp hbits]

/-- The small arithmetic, in which a product is formed with `1.0` only. -/
lemma unitFloats_sampleBelief : sampleBelief.UnitFloats where
  le_one := by decide
  floor_le_one := by decide
  le_of_lt x h := by
    have hlt : x.totalKey < one.totalKey := of_decide_eq_true h
    exact decide_eq_true hlt.le
  not_le x h := by
    have hlt : x.totalKey < one.totalKey := of_decide_eq_true h
    exact decide_eq_false hlt.not_ge
  mul_lt x f _ hx hf := by
    show decide ((if x = one then f else x).totalKey < one.totalKey) = true
    split
    · exact hf
    · next hne =>
      have hle : x.totalKey ≤ one.totalKey := of_decide_eq_true hx
      exact decide_eq_true (lt_of_le_of_ne hle fun heq => hne (totalKey_inj heq))
  max_lt x h := by
    show decide ((if x.totalKey < _ then supersessionDemotionFloor else x).totalKey < _) = true
    split
    · decide
    · exact h
  le_max x _ := by
    show decide (_ ≤ (if x.totalKey < _ then supersessionDemotionFloor else x).totalKey) = true
    split
    · decide
    · next hnot => exact decide_eq_true (not_lt.mp hnot)
  antisymm x y _ _ hle hge :=
    totalKey_inj (le_antisymm (of_decide_eq_true hle) (of_decide_eq_true hge))
  clampUnit _ _ _ := rfl

/-- What every search of the runs returns. -/
def sampleAnn : Ann := fun _ _ _ _ => .ok ["a", "b"]

/-- The pair of the runs: `b` refines `a`. -/
def samplePair : ProposedSupersession := ⟨"a", "b", 0, 1, .refinement, one⟩

/-- Both passes of a consolidation. -/
def consolidated (s : BeliefEngine) : BeliefEngine :=
  (checkContradictions beliefEnv sampleBelief sampleBeliefConfig sampleAnn
    (checkRefinements beliefEnv sampleBelief sampleBeliefConfig sampleAnn s).2).2

/-- The sample is reached. -/
lemma reached_refined {s₀ : BeliefEngine}
    (hopen : BeliefEngine.open beliefEnv sampleConfig {} ∅ = .ok s₀) :
    Reached beliefEnv sampleBelief sampleBeliefConfig (.up s₀.refined) := by
  have hinsert :
      Reached beliefEnv sampleBelief sampleBeliefConfig (.up (s₀.insertAll ["a", "b"])) :=
    ((Reached.new.opened sampleConfig hopen).step (.request _ Io.ok _)).step (.request _ Io.ok _)
  exact hinsert.step (.checkRefinements _ _)

/-- A store that is killed between two calls and opened again, where the new one has a property. -/
lemma exists_killed {f : BeliefEngine → BeliefEngine} {P : BeliefEngine → Prop} [DecidablePred P]
    (hreach : ∀ s₀, BeliefEngine.open beliefEnv sampleConfig {} ∅ = .ok s₀ →
      Reached beliefEnv sampleBelief sampleBeliefConfig (.up (f s₀)))
    (h : passes (fun s₀ => passes (fun s => decide (P s)) (BeliefEngine.open beliefEnv sampleConfig
        (f s₀).engine.disk (f s₀).demotion.saved))
      (BeliefEngine.open beliefEnv sampleConfig {} ∅) = true) : ∃ d saved s,
      Reached beliefEnv sampleBelief sampleBeliefConfig (.down d saved) ∧
      BeliefEngine.open beliefEnv sampleConfig d saved = .ok s ∧ P s := by
  obtain ⟨s₀, hopen, h⟩ := exists_ok_of_passes h
  obtain ⟨s, hreopen, h⟩ := exists_ok_of_passes h
  exact ⟨_, _, s, (hreach s₀ hopen).killed .rest, hreopen, of_decide_eq_true h⟩

set_option maxRecDepth 10000

/-- With a flush before the kill the factor is there. -/
theorem demoted_after_reopen_flushed : ∃ (d : Disk) (saved : Std.ExtTreeMap PointOffset F32)
    (s : BeliefEngine), Reached beliefEnv sampleBelief sampleBeliefConfig (.down d saved) ∧
    BeliefEngine.open beliefEnv sampleConfig d saved = .ok s ∧
    s.pairs = [("a", "b")] ∧ s.consolidated.Demoted sampleBelief := by
  obtain ⟨d, saved, s, hreached, hopen, hps, hpairs, hedge, hdemoted⟩ := exists_killed
    (fun _ hopen => (reached_refined hopen).step (.request _ Io.ok .flush)) (P := fun s =>
      (proposeRefinements beliefEnv sampleBelief sampleBeliefConfig sampleAnn s).1 =
        .ok [samplePair] ∧ s.pairs = [("a", "b")] ∧
      s.engine.graph.graph.HasBelief .refines "a" "b" ∧ s.Demoted sampleBelief)
    (by decide +kernel)
  have hfiles := hreached.sound ownSnapshots_beliefEnv unitFloats_sampleBelief (by decide)
  have hrestorable :=
    (demoted_open_iff ownSnapshots_beliefEnv unitFloats_sampleBelief hfiles hopen).mp hdemoted
  refine ⟨d, saved, s, hreached, hopen, hpairs,
    ((demoted_after_reopen_iff ownSnapshots_beliefEnv unitFloats_sampleBelief (by decide) hreached
      hopen hps rfl).1 fun p hp => ?_).mpr hrestorable⟩
  rw [mem_singleton.mp hp]
  exact hedge

/-- **A factor that is not restored.** `b` refines `a`; the store is killed and opened again. Then
`a` has its edge and the factor `1.0`, also after a consolidation that detects the pair again. -/
theorem not_demoted_after_kill : ∃ (d : Disk) (saved : Std.ExtTreeMap PointOffset F32)
    (s : BeliefEngine), Reached beliefEnv sampleBelief sampleBeliefConfig (.down d saved) ∧
    BeliefEngine.open beliefEnv sampleConfig d saved = .ok s ∧
    (proposeRefinements beliefEnv sampleBelief sampleBeliefConfig sampleAnn s).1 =
      .ok [samplePair] ∧
    s.pairs = [("a", "b")] ∧ ¬s.consolidated.Demoted sampleBelief :=
  exists_killed (fun _ => reached_refined) (by decide +kernel)

end BeliefEngine

end TurboMemory
