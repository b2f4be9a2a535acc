import TurboMemory.Engine.BeliefRuns
import TurboMemory.Lib.Chains

/-!
# Committing supersessions by id

A caller that verifies proposed supersessions commits them by id. The commit skips ids that are
not live, a record paired with itself, and records of different scopes; it does not look at the
supersessions that are there. With superseded memories excluded from searches, a cycle of
supersessions hides all its memories.

## Main results

* `BeliefEngine.surfaces_of_commitRun` — in runs whose accepted pairs each leave a way out, a chain
  from every live memory ends in a live one that is not superseded.
* `BeliefEngine.hidden_by_cycle` — two pairs that hide both of their memories.
-/

set_option autoImplicit false

namespace TurboMemory

open Chains List

namespace BeliefEngine

variable {E : Env} {B : BeliefArith} {C : BeliefConfig} {s s' : BeliefEngine}

/-! ## The store -/

/-- The supersessions of a store. -/
def pairs (s : BeliefEngine) : List (String × String) := s.engine.graph.graph.supersessions

/-- The graph is a good one, its memories are in the id index, and that leads to records. -/
structure Tracked (s : BeliefEngine) : Prop where
  graph : s.engine.graph.graph.Ok
  indexed : ∀ (id : String) (nid : ℕ),
    s.engine.graph.graph.interner.keyToId[memKey id]? = some nid → id ∈ s.engine.idIndex
  named : ∀ (id : String) (o : PointOffset), s.engine.idIndex[id]? = some o →
    ∃ a, s.engine.metadata.records.provenance o = some a ∧ a.id = id

/-- Following supersessions from a memory leads to a live one that is not superseded. -/
def Surfaces (s : BeliefEngine) (id : String) : Prop :=
  ∃ head, Relation.ReflTransGen s.Superseded id head ∧ s.Live head ∧
    head ∉ s.engine.graph.graph.supersededIds

/-- The ids of a supersession are live. -/
lemma Tracked.live (h : s.Tracked) {p : String × String} (hp : p ∈ s.pairs) :
    s.Live p.1 ∧ s.Live p.2 := by
  have hlive : ∀ id, id ∈ s.engine.idIndex → s.Live id := by
    intro id hid
    obtain ⟨o, ho⟩ := Option.isSome_iff_exists.mp (Std.ExtTreeMap.isSome_getElem?_iff_mem.mpr hid)
    obtain ⟨a, ha, rfl⟩ := h.named id o ho
    obtain ⟨r, hr, rfl⟩ := Option.map_eq_some_iff.mp ha
    exact ⟨o, r, hr, rfl⟩
  obtain ⟨⟨n, hn⟩, m, hm⟩ := h.graph.key_of_mem_supersessions hp
  exact ⟨hlive _ (h.indexed _ _ hn), hlive _ (h.indexed _ _ hm)⟩

/-- A memory that is not superseded is current. -/
lemma not_mem_supersededIds {g : MemoryGraph} {id : String} :
    id ∉ g.supersededIds ↔ Current g.supersessions id := by
  rw [MemoryGraph.mem_supersededIds, not_exists]
  rfl

/-- Memories surface when their ids do in the supersessions. -/
lemma Tracked.surfaces (h : s.Tracked) (hall : ∀ id, Chains.Surfaces s.pairs id) {id : String}
    (hid : s.Live id) : s.Surfaces id := by
  obtain ⟨head, hlead, hcur⟩ := hall id
  refine ⟨head, hlead, ?_, not_mem_supersededIds.mpr hcur⟩
  rcases Relation.ReflTransGen.cases_tail hlead with rfl | ⟨old, -, hstep⟩
  · exact hid
  · exact (h.live hstep).2

/-- Conversely; an id without a record has no supersessions. -/
lemma Tracked.surfaces_pairs (h : s.Tracked) (hall : ∀ id, s.Live id → s.Surfaces id)
    (id : String) : Chains.Surfaces s.pairs id := by
  by_cases hid : s.Live id
  · obtain ⟨head, hlead, -, hcur⟩ := hall id hid
    exact ⟨head, hlead, not_mem_supersededIds.mp hcur⟩
  · exact ⟨id, .refl, fun new hnew => hid (h.live hnew).1⟩

/-! ## The commit -/

/-- The pair passes the commit's checks, and its memories are in the graph. -/
def accepts (s : BeliefEngine) (pair : String × String × SupersessionKind) : Bool :=
  (resolvePair s.engine pair).isSome && s.knows pair.1 && s.knows pair.2.1

/-- The ids of the pairs that are committed. -/
def accepted (s : BeliefEngine) (pairs : List (String × String × SupersessionKind)) :
    List (String × String) :=
  (pairs.filter s.accepts).map fun pair => (pair.1, pair.2.1)

/-- What a commit leaves alone, and the supersessions it leads to. -/
structure Committed (s s' : BeliefEngine) (more : List (String × String)) : Prop where
  tracked : s'.Tracked
  knows : s'.knows = s.knows
  mem_pairs : ∀ p, p ∈ s'.pairs ↔ p ∈ s.pairs ∨ p ∈ more

/-- One commit after the other. -/
lemma Committed.trans {s'' : BeliefEngine} {more more' : List (String × String)}
    (h : Committed s s' more) (h' : Committed s' s'' more') : Committed s s'' (more ++ more') where
  tracked := h'.tracked
  knows := h'.knows.trans h.knows
  mem_pairs p := by rw [h'.mem_pairs, h.mem_pairs, mem_append, or_assoc]

/-- Committing one pair enters it, if its memories are in the graph. -/
lemma Tracked.commitOne (h : s.Tracked) (n : ℕ) (p : ProposedSupersession) :
    Committed s (commitOne E B C (n, s) p).2
      (if s.knows p.oldId && s.knows p.newId then [(p.oldId, p.newId)] else []) := by
  rcases commitOne_spec E B C h.graph n p with ⟨hskip, -, heq⟩ | ⟨e', hone, -, heq⟩
  · rw [heq]
    refine ⟨h, rfl, fun q => ⟨.inl, ?_⟩⟩
    rintro (hq | hq)
    · exact hq
    · -- A known pair is skipped only because it is there already.
      split at hq
      · next hknows =>
        obtain ⟨hold, hnew⟩ := Bool.and_eq_true_iff.mp hknows
        rw [mem_singleton.mp hq]
        refine MemoryGraph.mem_supersessions.mpr ⟨p.kind.edge, by cases p.kind <;> rfl, ?_⟩
        exact not_not.mp fun hbelief => hskip ⟨hold, hnew, hbelief⟩
      · cases hq
  · obtain ⟨hold, hnew, -⟩ := hone.enters
    rw [heq, hold, hnew]
    refine ⟨⟨hone.graph, ?_, ?_⟩, hone.knows, fun q => ?_⟩
    · simp only [hone.memories, hone.idIndex]
      exact h.indexed
    · rw [hone.idIndex, provenance_of_enriches hone.records]
      exact h.named
    · rw [pairs, hone.supersessions, mem_append]
      rfl

/-- Committing pairs one after the other. -/
lemma Tracked.commitSupersessions (h : s.Tracked) (proposed : List ProposedSupersession) :
    Committed s (commitSupersessions E B C s proposed).2
      ((proposed.filter fun p => s.knows p.oldId && s.knows p.newId).map
        fun p => (p.oldId, p.newId)) := by
  refine commitSupersessions_induction (P := fun done s' => Committed s s'
    ((done.filter fun p => s.knows p.oldId && s.knows p.newId).map fun p => (p.oldId, p.newId))) B C
    ⟨h, rfl, by simp⟩ (fun done p n s' _ hs' => ?_) fun s' hs' => ?_
  · have hall := hs'.trans (hs'.tracked.commitOne (E := E) (B := B) (C := C) n p)
    rw [hs'.knows] at hall
    rw [filter_append, map_append, filter_singleton]
    split at hall <;> next hknows => simpa [hknows] using hall
  · exact { hs' with tracked := { hs'.tracked with } }

/-- A resolved pair has its ids. -/
lemma resolvePair_ids {e : Engine} {pair : String × String × SupersessionKind}
    {p : ProposedSupersession} (h : resolvePair e pair = some p) :
    p.oldId = pair.1 ∧ p.newId = pair.2.1 := by
  unfold resolvePair at h
  split at h
  · cases h
  · simp only [Option.bind_eq_bind, Option.bind_eq_some_iff, Option.ite_none_right_eq_some] at h
    obtain ⟨_, -, _, -, _, -, _, -, -, hp⟩ := h
    rw [← Option.some.inj hp]
    exact ⟨rfl, rfl⟩

/-- **What a commit by id does**: the accepted pairs are supersessions then. -/
lemma Tracked.commitById (h : s.Tracked) (list : List (String × String × SupersessionKind)) :
    Committed s (commitSupersessionsById E B C s list).2 (s.accepted list) := by
  have haccepted : ((list.filterMap (resolvePair s.engine)).filter fun p =>
      s.knows p.oldId && s.knows p.newId).map (fun p => (p.oldId, p.newId)) = s.accepted list := by
    unfold accepted
    induction list with
    | nil => rfl
    | cons pair list ih =>
      rw [filterMap_cons, filter_cons]
      cases hpair : resolvePair s.engine pair with
      | none =>
        simp only [accepts, hpair, Option.isSome_none, Bool.false_and, Bool.false_eq_true, if_false]
        exact ih
      | some p =>
        obtain ⟨hold, hnew⟩ := resolvePair_ids hpair
        simp only [accepts, hpair, Option.isSome_some, Bool.true_and, filter_cons, hold, hnew]
        split
        · rw [map_cons, map_cons, hold, hnew]
          exact congrArg _ ih
        · exact ih
  rw [← haccepted]
  exact h.commitSupersessions _

/-! ## Runs -/

/-- Calls to commit by id, one after the other. At its turn, the older memory of an accepted pair is
superseded already, or the newer one leads to another memory that is not. -/
inductive CommitRun (E : Env) (B : BeliefArith) (C : BeliefConfig) (s₀ : BeliefEngine) :
    BeliefEngine → Prop
  | start : CommitRun E B C s₀ s₀
  | commit {s : BeliefEngine} (hrun : CommitRun E B C s₀ s)
      (list : List (String × String × SupersessionKind))
      (hout : WaysOut s.pairs (s.accepted list)) :
      CommitRun E B C s₀ (commitSupersessionsById E B C s list).2

/-- **No chain is hidden as a whole** by commits by id that leave a way out: following supersessions
from any live memory leads to a live one that is not superseded. **Proof sketch.** A call adds the
accepted pairs (`Tracked.commitById`), each while every id surfaces, so every id still does
(`Chains.surfaces_concat_iff`). -/
theorem surfaces_of_commitRun {s₀ : BeliefEngine} (h : s₀.Tracked)
    (hstart : ∀ id, s₀.Live id → s₀.Surfaces id) (hrun : CommitRun E B C s₀ s) :
    ∀ id, s.Live id → s.Surfaces id := by
  have hinv : s.Tracked ∧ ∀ id, Chains.Surfaces s.pairs id := by
    induction hrun with
    | start => exact ⟨h, h.surfaces_pairs hstart⟩
    | commit _ list hout ih =>
      refine ⟨(ih.1.commitById list).tracked, fun id => ?_⟩
      refine (surfaces_congr fun p => ?_).mpr (surfaces_append ih.2 hout id)
      rw [(ih.1.commitById list).mem_pairs, mem_append]
  exact fun id hid => hinv.1.surfaces hinv.2 hid

/-- In a store that was only changed by its own detection passes every memory surfaces. -/
lemma Run.surfaces (hE : E.OwnSnapshots) (hrun : Run E B C s) :
    s.Tracked ∧ ∀ id, s.Live id → s.Surfaces id := by
  have h := hrun.grounded hE
  refine ⟨{ h with }, fun id hid => ?_⟩
  obtain ⟨hpath, hcurrent⟩ := beliefHead_spec h id
  refine ⟨_, hpath, ?_, hcurrent⟩
  rcases Relation.ReflTransGen.cases_tail hpath with heq | ⟨old, -, hstep⟩
  · rw [heq]
    exact hid
  · exact live_of_superseded h hstep

/-- Two memories that supersede each other, and nothing else does, do not surface. -/
lemma not_surfaces_of_cycle {old new : String} (hpairs : s.pairs = [(old, new), (new, old)]) :
    ¬ s.Surfaces old := by
  rintro ⟨head, hpath, -, hcurrent⟩
  have hcurrent := not_mem_supersededIds.mp hcurrent
  rw [← pairs, hpairs] at hcurrent
  have hmem : head = old ∨ head = new := by
    induction hpath with
    | refl => exact .inl rfl
    | tail _ hstep _ =>
      rw [Superseded, ← pairs, hpairs] at hstep
      rcases mem_cons.mp hstep with heq | hstep
      · exact .inr (Prod.mk.inj heq).2
      · exact .inl (Prod.mk.inj (mem_singleton.mp hstep)).2
  rcases hmem with rfl | rfl
  · exact hcurrent new (by simp)
  · exact hcurrent old (by simp)

/-! ## Two short runs -/

/-- A store with three memories and no supersessions. -/
def three (s : BeliefEngine) : BeliefEngine := s.insertAll ["a", "b", "c"]

/-- Commit refinements by id. -/
def refine (s : BeliefEngine) (list : List (String × String)) : BeliefEngine :=
  (commitSupersessionsById beliefEnv sampleBelief sampleBeliefConfig s
    (list.map fun p => (p.1, p.2, .refinement))).2

set_option maxRecDepth 10000

/-- Two commits that extend a chain. -/
theorem surfaces_of_commitRun_chain : ∃ s₀ s,
    CommitRun beliefEnv sampleBelief sampleBeliefConfig s₀ s ∧
    s.pairs = [("a", "b"), ("b", "c")] ∧ ∀ id, s.Live id → s.Surfaces id := by
  obtain ⟨s₀, hopen, hpairs, haccepted, hpairs₁, haccepted₁, hpairs₂⟩ :=
    exists_opened_belief (P := fun s₀ => s₀.three.pairs = [] ∧
      s₀.three.accepted [("a", "b", .refinement)] = [("a", "b")] ∧
      (s₀.three.refine [("a", "b")]).pairs = [("a", "b")] ∧
      (s₀.three.refine [("a", "b")]).accepted [("b", "c", .refinement)] = [("b", "c")] ∧
      ((s₀.three.refine [("a", "b")]).refine [("b", "c")]).pairs = [("a", "b"), ("b", "c")])
    (by decide +kernel)
  obtain ⟨htracked, hsurfaces⟩ :=
    (run_insertAll (.new sampleConfig hopen) ["a", "b", "c"]).surfaces ownSnapshots_beliefEnv
  have hfirst : WaysOut s₀.three.pairs (s₀.three.accepted [("a", "b", .refinement)]) := by
    rw [hpairs, haccepted]
    exact ⟨.inr ⟨"b", .refl, by simp [Current], by decide⟩, trivial⟩
  have hsecond : WaysOut (s₀.three.refine [("a", "b")]).pairs
      ((s₀.three.refine [("a", "b")]).accepted [("b", "c", .refinement)]) := by
    rw [hpairs₁, haccepted₁]
    exact ⟨.inr ⟨"c", .refl, by simp [Current], by decide⟩, trivial⟩
  have hrun : CommitRun beliefEnv sampleBelief sampleBeliefConfig s₀.three
      ((s₀.three.refine [("a", "b")]).refine [("b", "c")]) :=
    .commit (.commit .start _ hfirst) _ hsecond
  exact ⟨_, _, hrun, hpairs₂, surfaces_of_commitRun htracked hsurfaces hrun⟩

/-- **A cycle hides its memories.** One call commits that `b` supersedes `a` and `a` supersedes `b`:
both are live, and no chain from `a` leads to a memory that is not superseded. -/
theorem hidden_by_cycle : ∃ s, Run beliefEnv sampleBelief sampleBeliefConfig s ∧
    (s.refine [("a", "b"), ("b", "a")]).Live "a" ∧ (s.refine [("a", "b"), ("b", "a")]).Live "b" ∧
    ¬ (s.refine [("a", "b"), ("b", "a")]).Surfaces "a" := by
  obtain ⟨s₀, hopen, hpairs, ha, hb⟩ := exists_opened_belief (P := fun s₀ =>
    let s := s₀.three.refine [("a", "b"), ("b", "a")]
    s.pairs = [("a", "b"), ("b", "a")] ∧
      (s.engine.metadata.get 0).map MetaRecord.id = some "a" ∧
      (s.engine.metadata.get 1).map MetaRecord.id = some "b") (by decide +kernel)
  obtain ⟨ra, ha⟩ := Option.map_eq_some_iff.mp ha
  obtain ⟨rb, hb⟩ := Option.map_eq_some_iff.mp hb
  refine ⟨s₀.three, run_insertAll (.new sampleConfig hopen) _, ⟨0, ra, ha⟩, ⟨1, rb, hb⟩,
    not_surfaces_of_cycle hpairs⟩

end BeliefEngine

end TurboMemory
