import TurboMemory.Engine.CommitById
import TurboMemory.Engine.Openable

/-!
# Belief revision and kills

Stores that are killed at any point and opened again (`BeliefEngine.Reached`). A supersession is
saved with the graph in a transaction of its own as soon as it is committed; the factor by which the
older memory is demoted waits for the next flush.

## Main results

* `BeliefEngine.Reached.sound` — in all runs, graphs in memory and on disk are good ones, every
  factor is below `1.0`, and what changed since the last flush is marked.
-/

set_option autoImplicit false

namespace TurboMemory

open CriticalSections Std DemotionTable F32

/-! ## Kills -/

namespace BeliefEngine

/-- A kill during a step leaves a first part of its writes. Factors are saved in one transaction
with the records. -/
def Killed (E : Env) (s : BeliefEngine) (a : Action) (d : Disk)
    (saved : ExtTreeMap PointOffset F32) : Prop :=
  s.engine.disk.Images (a.writes E s.engine) d ∧
  (d.redb = s.engine.disk.redb ∧ saved = s.demotion.saved ∨
    d.redb = (s.exec E Io.ok a).2.engine.disk.redb ∧ saved = (s.exec E Io.ok a).2.demotion.saved)

/-- What a kill leaves: between two calls, or during a step of a request. -/
inductive Leaves (E : Env) (s : BeliefEngine) : Disk → ExtTreeMap PointOffset F32 → Prop
  | rest : Leaves E s s.engine.disk s.demotion.saved
  | during {io : Io} {r : Request} {e : Engine} {plan before after : List Action} {a : Action}
      {reply : Reply} {s₁ : BeliefEngine} {d : Disk} {saved : ExtTreeMap PointOffset F32}
      (hbegin : s.engine.begin E s.engine.graph.graph.vocab r = .run e plan reply)
      (hplan : plan = before ++ a :: after)
      (hrun : runAll (exec E io) before { s with engine := e } = (.ok (), s₁))
      (hkilled : Killed E s₁ a d saved) : Leaves E s d saved

/-- A running store, or the files of one that was killed. -/
inductive Situation
  | up (s : BeliefEngine)
  | down (d : Disk) (saved : ExtTreeMap PointOffset F32)

/-- What requests, consolidation, commits by id, kills and opens lead to. -/
inductive Reached (E : Env) (B : BeliefArith) (C : BeliefConfig) : Situation → Prop
  | new : Reached E B C (.down {} ∅)
  | opened {d : Disk} {saved : ExtTreeMap PointOffset F32} {s : BeliefEngine}
      (h : Reached E B C (.down d saved)) (config : StoreConfig)
      (hopen : BeliefEngine.open E config d saved = .ok s) : Reached E B C (.up s)
  | step {s s' : BeliefEngine} (h : Reached E B C (.up s)) (hstep : Step E B C s s') :
      Reached E B C (.up s')
  | commitById {s : BeliefEngine} (h : Reached E B C (.up s))
      (list : List (String × String × SupersessionKind)) :
      Reached E B C (.up (commitSupersessionsById E B C s list).2)
  | killed {s : BeliefEngine} {d : Disk} {saved : ExtTreeMap PointOffset F32}
      (h : Reached E B C (.up s)) (hleaves : Leaves E s d saved) : Reached E B C (.down d saved)
  | killedOpening {d d' : Disk} {saved saved' : ExtTreeMap PointOffset F32}
      (h : Reached E B C (.down d saved)) (config : StoreConfig)
      (himage : d.Images (openWrites E config d) d')
      (hsaved : saved' = saved ∨ saved' = (atOpen E config d saved).saved) :
      Reached E B C (.down d' saved')

end BeliefEngine

/-! ## The replay loop -/

/-- What the replay loop keeps of the files: the snapshot, and the vectors but for their count.
Records that it changes are marked. -/
structure Replay.Over (e : Engine) (s : Replay) : Prop where
  db : s.metadata.db = e.metadata.db
  vectors : s.vectors = { e.vectors with count := s.vectors.count }
  clean : e.metadata.Clean → s.metadata.Clean

/-- The log removes the record at an offset: it is deleted, or replaced by a version that the
snapshot lacks and whose vector is in the file. -/
def Engine.Drops (e : Engine) (o : PointOffset) : WalOp → Prop
  | .replace oldOffset offset seq _ crc =>
    oldOffset = o ∧ e.lastApplied < seq ∧ (e.vectors.recover offset (some crc)).isSome
  | .delete offset => offset = o
  | _ => False

section

variable {e : Engine} {s : Replay} (h : s.Over e)
include h

/-- Which vectors can be recovered does not change during the loop. -/
lemma Replay.Over.isSome_recover (offset : PointOffset) (crc : Option UInt32) :
    (s.vectors.recover offset crc).isSome = (e.vectors.recover offset crc).isSome := by
  rw [h.vectors]
  unfold VectorStore.recover
  split_ifs <;> first | rfl | (dsimp only; split_ifs <;> rfl)

/-- One operation of the loop. -/
lemma Replay.Over.replayOp (last : ℕ) (op : WalOp) : (replayOp last s op).Over e := by
  have hrecover : ∀ {offset crc vector vectors},
      s.vectors.recover offset crc = some (vector, vectors) →
      vectors = { e.vectors with count := vectors.count } := by
    intro offset crc vector vectors hrecover
    simp only [VectorStore.recover] at hrecover
    split_ifs at hrecover
    cases hrecover
    exact congrArg (fun v : VectorStore => { v with count := max s.vectors.count (offset + 1) })
      h.vectors
  cases op with
  | insert offset seq record crc =>
    rw [TurboMemory.replayOp]
    split
    · split
      · next hsome => exact ⟨h.db, hrecover hsome, fun hc => (h.clean hc).put _ _⟩
      · exact { h with }
    · exact h
  | replace oldOffset offset seq record crc =>
    rw [TurboMemory.replayOp]
    split
    · split
      · next hsome => exact ⟨h.db, hrecover hsome, fun hc => ((h.clean hc).remove _).put _ _⟩
      · exact { h with }
    · exact h
  | delete offset => exact ⟨h.db, h.vectors, fun hc => (h.clean hc).remove offset⟩
  | flush n => exact h

end

/-- The whole loop. -/
lemma Engine.over_replay (E : Env) (e : Engine) : (e.replay E).Over e :=
  Loop.foldl_induction _ ⟨rfl, rfl, id⟩ fun op _ _ hs => hs.replayOp _ op

/-! ## Factors -/

/-- What is used of float arithmetic, between the demotion floor and `1.0`. -/
structure BeliefArith.UnitFloats (B : BeliefArith) : Prop where
  le_one : B.le one one = true
  floor_le_one : B.le supersessionDemotionFloor one = true
  le_of_lt : ∀ x, B.lt x one = true → B.le x one = true
  not_le : ∀ x, B.lt x one = true → B.le one x = false
  /-- A factor times a number below `1.0`. -/
  mul_lt : ∀ x f, B.le supersessionDemotionFloor x = true → B.le x one = true →
    B.lt f one = true → B.lt (B.mul x f) one = true
  max_lt : ∀ x, B.lt x one = true → B.lt (B.max x supersessionDemotionFloor) one = true
  le_max : ∀ x, B.lt x one = true →
    B.le supersessionDemotionFloor (B.max x supersessionDemotionFloor) = true
  antisymm : ∀ x y, B.le supersessionDemotionFloor x = true → B.lt x one = true →
    B.le x y = true → B.le y x = true → x = y
  /-- Clamping changes nothing in the unit interval. -/
  clampUnit : ∀ x, B.le supersessionDemotionFloor x = true → B.lt x one = true → B.clampUnit x = x

/-- The factors of a table are below `1.0`, and not below the floor. -/
def Demoting (B : BeliefArith) (t : ExtTreeMap PointOffset F32) : Prop :=
  ∀ (o : PointOffset) (f : F32), t[o]? = some f →
    B.lt f one = true ∧ B.le supersessionDemotionFloor f = true

namespace DemotionTable

variable {B : BeliefArith} {C : BeliefConfig} {t : DemotionTable}
  {table : ExtTreeMap PointOffset F32}

/-- Both tables demote, and where they differ the offset is marked. -/
structure Sound (B : BeliefArith) (t : DemotionTable) : Prop where
  factors : Demoting B t.factors
  saved : Demoting B t.saved
  covered : ∀ o : PointOffset, o ∉ t.dirty → t.saved[o]? = t.factors[o]?

/-- Saved factors are loaded. -/
lemma sound_open {saved : ExtTreeMap PointOffset F32} (h : Demoting B saved) :
    (DemotionTable.open saved).Sound B := ⟨h, h, fun _ _ => rfl⟩

section

variable (h : Demoting B table) (offset : PointOffset)
include h

/-- A factor is dropped. -/
lemma demoting_erase : Demoting B (table.erase offset) := by
  intro o f ho
  rw [ExtTreeMap.getElem?_erase] at ho
  split at ho
  · cases ho
  · exact h o f ho

/-- A demoting factor is set. -/
lemma demoting_insert {x : F32}
    (hx : B.lt x one = true ∧ B.le supersessionDemotionFloor x = true) :
    Demoting B (table.insert offset x) := by
  intro o f ho
  rw [ExtTreeMap.getElem?_insert] at ho
  split at ho
  · rw [← Option.some.inj ho]
    exact hx
  · exact h o f ho

end

section

variable (h : t.Sound B)
include h

/-- A removal marks its offset. -/
lemma Sound.remove (offset : PointOffset) : (t.remove offset).Sound B := by
  unfold DemotionTable.remove
  split
  · refine ⟨demoting_erase h.factors offset, h.saved, fun o ho => ?_⟩
    have hne : o ≠ offset ∧ o ∉ t.dirty := by simpa [not_or] using ho
    rw [ExtTreeMap.getElem?_erase, if_neg (by simpa using hne.1.symm)]
    exact h.covered o hne.2
  · exact h

/-- A flush brings the saved factors up to those in memory. -/
lemma Sound.saved_flush : t.flush.saved = t.factors := by
  refine ExtTreeMap.ext_getElem? fun o => ?_
  rw [DemotionTable.flush, LazyTable.getElem?_save, Option.map_id_apply]
  split
  · rfl
  · next ho => exact h.covered o ho

/-- A flush leaves nothing to mark. -/
lemma Sound.flush : t.flush.Sound B :=
  ⟨h.factors, h.saved_flush ▸ h.factors, fun o _ => by rw [h.saved_flush]; rfl⟩

/-- A step of a commit section. -/
lemma Sound.after (a : Action) : (t.after a).Sound B := by
  cases a with
  | removeFromIndexes id offset => exact h.remove offset
  | flushMetadata n => exact h.flush
  | _ => exact h

/-- The replay of the log. -/
lemma Sound.replay (E : Env) (e : Engine) : (t.replay E e).Sound B := by
  unfold DemotionTable.replay
  generalize (⟨e.metadata, e.vectors, e.lastApplied, 0, false⟩ : Replay) = s
  induction (e.wal.readAll E.codec).1 generalizing s t with
  | nil => exact h
  | cons op ops ih =>
    refine ih ?_ _
    cases op with
    | insert | flush => exact h
    | replace oldOffset offset seq record crc =>
      show (if _ ∧ _ then t.remove oldOffset else t).Sound B
      split
      · exact h.remove oldOffset
      · exact h
    | delete offset => exact h.remove offset

end

/-- The factors of an opened store. -/
lemma sound_atOpen (E : Env) (config : StoreConfig) (d : Disk)
    {saved : ExtTreeMap PointOffset F32} (h : Demoting B saved) :
    (atOpen E config d saved).Sound B := by
  unfold atOpen
  split
  · exact sound_open h
  · next e _ =>
    dsimp only
    split
    · exact ((sound_open h).replay E e).flush
    · exact (sound_open h).replay E e

/-- The factors that are left after the removal of a record. -/
lemma mem_remove {o offset : PointOffset} :
    o ∈ (t.remove offset).factors ↔ o ∈ t.factors ∧ offset ≠ o := by
  unfold DemotionTable.remove
  split
  · simp [ExtTreeMap.mem_erase, and_comm]
  · next hnot =>
    refine ⟨fun ho => ⟨ho, ?_⟩, And.left⟩
    rintro rfl
    exact hnot ho

/-- **The factors that are left after the replay loop**: those of records that the log does not
remove. -/
lemma mem_replay {E : Env} {e : Engine} {o : PointOffset} : o ∈ (t.replay E e).factors ↔
    o ∈ t.factors ∧ ∀ op ∈ (e.wal.readAll E.codec).1, ¬e.Drops o op := by
  unfold DemotionTable.replay
  have hstart : (⟨e.metadata, e.vectors, e.lastApplied, 0, false⟩ : Replay).Over e :=
    ⟨rfl, rfl, id⟩
  generalize (⟨e.metadata, e.vectors, e.lastApplied, 0, false⟩ : Replay) = s at hstart
  induction (e.wal.readAll E.codec).1 generalizing s t with
  | nil => simp
  | cons op ops ih =>
    have hop : o ∈ (t.replayOp e.lastApplied s op).factors ↔ o ∈ t.factors ∧ ¬e.Drops o op := by
      cases op with
      | insert | flush => simp [DemotionTable.replayOp, Engine.Drops]
      | delete offset => exact mem_remove
      | replace oldOffset offset seq record crc =>
        rw [DemotionTable.replayOp, hstart.isSome_recover, Engine.Drops]
        split
        · next happlied => simp [mem_remove, happlied]
        · next hskip => simp [hskip]
    rw [List.foldl_cons]
    refine (ih _ (hstart.replayOp _ op)).trans ?_
    rw [hop, and_assoc, List.forall_mem_cons]

/-- The factors of a store that is opened. -/
lemma mem_atOpen {E : Env} {config : StoreConfig} {d : Disk} {files : Engine}
    (hfiles : Engine.openFiles config d = .ok files) {saved : ExtTreeMap PointOffset F32}
    {o : PointOffset} : o ∈ (atOpen E config d saved).factors ↔
      o ∈ saved ∧ ∀ op ∈ (files.wal.readAll E.codec).1, ¬files.Drops o op := by
  refine Iff.trans ?_ (mem_replay (t := DemotionTable.open saved))
  rw [atOpen, hfiles]
  dsimp only
  split <;> rfl

/-- A record is demoted just if it has a factor. -/
lemma Sound.lt_one_iff (hB : B.UnitFloats) (h : t.Sound B) {o : PointOffset} :
    B.lt (t.demotionFactor o) one = true ↔ o ∈ t.factors := by
  unfold demotionFactor
  cases hfactor : t.factors[o]? with
  | none =>
    have hone : B.lt one one = false := by
      by_contra hlt
      have hnot := hB.not_le one (by simpa using hlt)
      rw [hB.le_one] at hnot
      cases hnot
    simp [hone, ← ExtTreeMap.isSome_getElem?_iff_mem, hfactor]
  | some f =>
    simp [(h.factors o f hfactor).1, ← ExtTreeMap.isSome_getElem?_iff_mem, hfactor]

/-- **Demoting a record**: its factor is below `1.0`, the others stay. -/
lemma demote_spec (hB : B.UnitFloats) (hC : B.lt C.supersessionDemotionFactor one = true)
    (h : t.Sound B) (offset : PointOffset) : (BeliefEngine.demote B C t offset).Sound B ∧
    B.lt ((BeliefEngine.demote B C t offset).demotionFactor offset) one = true ∧
    ∀ o, o ≠ offset → (BeliefEngine.demote B C t offset).demotionFactor o = t.demotionFactor o := by
  have hcur : B.le supersessionDemotionFloor (t.demotionFactor offset) = true ∧
      B.le (t.demotionFactor offset) one = true := by
    unfold demotionFactor
    cases hfactor : t.factors[offset]? with
    | none => exact ⟨hB.floor_le_one, hB.le_one⟩
    | some f =>
      obtain ⟨hlt, hle⟩ := h.factors offset f hfactor
      exact ⟨hle, hB.le_of_lt f hlt⟩
  have hmul := hB.mul_lt _ C.supersessionDemotionFactor hcur.1 hcur.2 hC
  have hlt := hB.max_lt _ hmul
  have hle := hB.le_max _ hmul
  have hclamp := hB.clampUnit _ hle hlt
  unfold BeliefEngine.demote setDemotionFactor
  generalize B.max (B.mul (t.demotionFactor offset) C.supersessionDemotionFactor)
    supersessionDemotionFloor = f at hlt hle hclamp ⊢
  simp only [hclamp, hB.not_le _ hlt, Bool.false_eq_true, if_false]
  refine ⟨⟨demoting_insert h.factors offset ⟨hlt, hle⟩, h.saved, ?_⟩, ?_, fun o ho => ?_⟩
  · intro o ho
    show t.saved[o]? = (t.factors.insert offset f)[o]?
    have hdirty : o ∉ t.dirty := fun hmem => ho (by split <;> simp [hmem])
    rw [h.covered o hdirty, ExtTreeMap.getElem?_insert]
    split
    · next heq =>
      obtain rfl := LawfulEqCmp.eq_of_compare heq
      -- A factor that is not marked is the one that was there.
      cases hold : t.factors[offset]? with
      | none => simp [hold] at ho
      | some old =>
        obtain ⟨hlt', hle'⟩ := h.factors offset old hold
        have hsame : B.le old f = true ∧ B.le f old = true := by
          by_contra hnot
          rw [← Bool.and_eq_true, Bool.not_eq_true] at hnot
          simp [hold, hnot] at ho
        rw [hB.antisymm old f hle' hlt' hsame.1 hsame.2]
    · rfl
  · unfold demotionFactor
    rwa [ExtTreeMap.getElem?_insert_self, Option.getD_some]
  · unfold demotionFactor
    rw [ExtTreeMap.getElem?_insert, if_neg]
    simpa using Ne.symm ho

end DemotionTable

/-! ## The invariant -/

/-- A saved graph is the snapshot of a good graph. -/
def GoodGraph (E : Env) (saved : Option (List UInt8)) : Prop :=
  ∀ bytes, saved = some bytes → ∃ g : MemoryGraph, g.Ok ∧ bytes = E.toSnapshotBytes g

namespace Engine

variable {E : Env} {e e' : Engine}

/-- No step makes a bad graph. -/
lemma ok_exec (h : e.graph.graph.Ok) (io : Io) (a : Action) : (e.exec E io a).2.graph.graph.Ok := by
  cases hplain : a.plain with
  | true => rwa [(still_exec E io e hplain).graph]
  | false =>
    cases a with
    | removeFromIndexes id offset =>
      exact (graph_removeFromIndexes (E := E) e id offset) ▸ h.removeMemory id
    | applyBatch records =>
      rcases applyBatch_graph (Prod.eta (e.applyBatch E io records)).symm with heq | ⟨heq, -⟩
      · exact heq ▸ h
      · exact heq ▸ (addToGraph_foldl h records).1
    | _ => cases hplain

/-- Every step marks what it changes of the records. -/
lemma clean_exec (h : e.metadata.Clean) (io : Io) (a : Action) :
    (e.exec E io a).2.metadata.Clean := by
  cases hplain : a.plain with
  | true => exact (still_exec E io e hplain).clean h
  | false =>
    cases a with
    | removeFromIndexes id offset =>
      show (e.removeFromIndexes E id offset).metadata.Clean
      rw [(removeFromIndexes_spec e id offset).1.metadata]
      exact h.remove offset
    | applyBatch records =>
      obtain ⟨hsame, -⟩ := applyBatch_spec (Prod.eta (e.applyBatch E io records)).symm
      exact (show _ = e.metadata.putBatch records from hsame.metadata) ▸ h.putBatch records
    | _ => cases hplain

/-- The only step that saves a graph. -/
lemma db_graph_exec (io : Io) {a : Action} (ha : a ≠ .saveGraph) :
    (e.exec E io a).2.metadata.db.graph = e.metadata.db.graph := by
  cases hquiet : a.quiet with
  | true => exact congrArg Redb.graph (exec_quiet hquiet rfl).db
  | false =>
    cases a with
    | log entries =>
      unfold exec
      dsimp only
      split <;> rfl
    | flushMetadata n =>
      show (e.metadata.flush n).db.graph = _
      unfold MetadataStore.flush
      split <;> rfl
    | saveGraph => exact absurd rfl ha
    | truncateWal | clearWal => rfl
    | _ => cases hquiet

/-- Only a good graph is saved. -/
lemma goodGraph_exec (h : e.graph.graph.Ok) (hgood : GoodGraph E e.metadata.db.graph) (io : Io)
    (a : Action) : GoodGraph E (e.exec E io a).2.metadata.db.graph := by
  by_cases ha : a = .saveGraph
  · subst ha
    intro bytes hbytes
    exact ⟨e.graph.graph, h, (Option.some.inj hbytes).symm⟩
  · rw [db_graph_exec io ha]
    exact hgood

end Engine

namespace BeliefEngine

variable {E : Env} {B : BeliefArith} {C : BeliefConfig} {s s' : BeliefEngine}

/-- The invariant of a store. -/
structure Sound (E : Env) (B : BeliefArith) (s : BeliefEngine) : Prop where
  graph : s.engine.graph.graph.Ok
  saved : GoodGraph E s.engine.metadata.db.graph
  clean : s.engine.metadata.Clean
  demotion : s.demotion.Sound B

/-- The invariant of the files of a store. -/
structure SoundFiles (E : Env) (B : BeliefArith) (d : Disk)
    (saved : ExtTreeMap PointOffset F32) : Prop where
  graph : GoodGraph E d.redb.graph
  demotion : Demoting B saved

section

variable (h : s.Sound E B)
include h

/-- A step of a plan. -/
lemma Sound.exec (io : Io) (a : Action) : (s.exec E io a).2.Sound E B :=
  ⟨Engine.ok_exec h.graph io a, Engine.goodGraph_exec h.graph h.saved io a,
    Engine.clean_exec h.clean io a, h.demotion.after a⟩

/-- A plan. -/
lemma Sound.runAll (io : Io) (plan : List Action) :
    (runAll (BeliefEngine.exec E io) plan s).2.Sound E B :=
  runAll_preserves (fun a _ _ hs => hs.exec io a) h

/-- A request starts from the store with its counters advanced. -/
lemma Sound.begin {r : Request} {e : Engine} {plan : List Action} {reply : Reply}
    (hbegin : s.engine.begin E s.engine.graph.graph.vocab r = .run e plan reply) :
    ({ s with engine := e } : BeliefEngine).Sound E B := by
  have hallocate : ∀ clock ps, ({ s with engine := { s.engine with
      metadata := (allocateAll clock 0 ps s.engine.metadata).2 } } : BeliefEngine).Sound E B := by
    intro clock ps
    rw [allocateAll_snd]
    exact ⟨h.graph, h.saved, { h.clean with }, h.demotion⟩
  cases Engine.begun_of_begin hbegin with
  | inserts clock ps => exact hallocate clock ps
  | replace now p => exact hallocate (fun _ => now) [p]
  | delete | flush => exact h

/-- A request. -/
lemma Sound.call (io : Io) (r : Request) : (s.call E io r).2.Sound E B :=
  call_preserves h fun _ plan _ hbegin => (h.begin hbegin).runAll io plan

/-- What a kill leaves. -/
lemma Sound.leaves {d : Disk} {saved : ExtTreeMap PointOffset F32}
    (hleaves : Leaves E s d saved) : SoundFiles E B d saved := by
  cases hleaves with
  | rest => exact ⟨h.saved, h.demotion.saved⟩
  | @during io _ _ _ before _ a _ _ _ _ hbegin hplan hrun hkilled =>
    have hs₁ := (h.begin hbegin).runAll io before
    rw [hrun] at hs₁
    rcases hkilled.2 with ⟨hredb, rfl⟩ | ⟨hredb, rfl⟩
    · exact ⟨hredb ▸ hs₁.saved, hs₁.demotion.saved⟩
    · have hexec := hs₁.exec Io.ok a
      exact ⟨hredb ▸ hexec.saved, hexec.demotion.saved⟩

end

/-! ## Commits -/

section

variable (hB : B.UnitFloats) (hC : B.lt C.supersessionDemotionFactor one = true) (h : s.Sound E B)
include hB hC h

/-- A pair is committed. -/
lemma Sound.commitOne
    {n : ℕ} (p : ProposedSupersession) :
    (commitOne E B C (n, s) p).2.Sound E B := by
  rcases commitOne_spec E B C h.graph n p with ⟨-, -, heq⟩ | ⟨e', hone, -, heq⟩
  · rw [heq]
    exact h
  · rw [heq]
    exact ⟨hone.graph, hone.db ▸ h.saved, hone.clean h.clean,
      (demote_spec hB hC h.demotion p.oldOffset).1⟩

/-- Several are. -/
lemma Sound.commitSupersessions
    (proposed : List ProposedSupersession) : (commitSupersessions E B C s proposed).2.Sound E B :=
  commitSupersessions_induction (P := fun _ s => s.Sound E B) B C h
    (fun _ p _ _ _ hs' => hs'.commitOne hB hC p) fun _ hs' =>
      { hs' with
        saved := fun _ hbytes => ⟨_, hs'.graph, (Option.some.inj hbytes).symm⟩
        clean := { hs'.clean with } }

end

end BeliefEngine

/-! ## Opens -/

namespace Engine

variable {E : Env} {e : Engine} {config : StoreConfig} {d : Disk} {P : Engine → Prop}

/-- A recovery saves no graph, and neither enters nor drops a record. -/
lemma recoverPlan_plain (E : Env) (e : Engine) :
    ∀ a ∈ e.recoverPlan E, a ≠ .saveGraph ∧ a.plain = true := by
  intro a ha
  unfold recoverPlan cutPlan persistPlan at ha
  rcases List.mem_append.mp ha with ha | ha
  · split at ha
    · rw [List.mem_singleton.mp ha]
      simp [Action.plain]
    · cases ha
  · split at ha
    · simp only [List.mem_cons, List.not_mem_nil, or_false] at ha
      rcases ha with rfl | rfl | rfl | rfl <;> simp [Action.plain]
    · cases ha

/-- The files of an engine that is opened. -/
lemma db_openFiles (hfiles : openFiles config d = .ok e) : e.metadata.db = d.redb := by
  obtain ⟨vs, w, -, -, rfl⟩ := openFiles_eq_ok_iff.mp hfiles
  rfl

/-- Replaying writes nothing. -/
lemma db_replayedEngine (E : Env) (e : Engine) :
    (e.replayedEngine E).metadata.db = e.metadata.db := by
  rw [← (over_replay E e).db]
  unfold replayedEngine
  dsimp only
  split <;> rfl

/-- **The graph after an open** is rebuilt from the recovered records and the saved graph, which
stays on disk. -/
lemma open_graph (hopen : Engine.open E config d = .ok e) : e.metadata.db.graph = d.redb.graph ∧
    e.graph = rebuildGraph E (e.recordsVec E) d.redb.graph := by
  obtain ⟨-, opened, recovered, hfiles, hrun, -, hrebuild⟩ := open_eq_ok_iff.mp hopen
  have hreplayed : (opened.replayedEngine E).metadata.db = d.redb :=
    (db_replayedEngine E opened).trans (db_openFiles hfiles)
  have hrecovered : recovered.metadata.db.graph = d.redb.graph := by
    have hpres := runAll_preserves (P := fun e : Engine => e.metadata.db.graph = d.redb.graph)
      (fun a ha e he =>
        (db_graph_exec (E := E) Io.ok (recoverPlan_plain E opened a ha).1).trans he)
      (congrArg Redb.graph hreplayed)
    rwa [hrun] at hpres
  have heq := rebuild_eq hrebuild
  constructor
  · rw [heq]
    exact hrecovered
  · rw [heq, ← hrecovered]
    rfl

/-- A vector file that could be opened is mapped. -/
lemma mapped_openFiles (hfiles : openFiles config d = .ok e) : e.vectors.mapped = true := by
  obtain ⟨vs, w, hvs, -, rfl⟩ := openFiles_eq_ok_iff.mp hfiles
  show vs.mapped = true
  unfold VectorStore.open VectorStore.newWithCapacity at hvs
  split at hvs
  · split_ifs at hvs
    dsimp only at hvs
    split at hvs
    · cases hvs
    · cases hvs
      rfl
  · split_ifs at hvs
    split at hvs
    · cases hvs
    · split_ifs at hvs
      cases hvs
      rfl

/-- **The records after an open** are those of the replay loop, and all have their vectors. -/
lemma open_records {files : Engine} (hfiles : openFiles config d = .ok files)
    (hopen : Engine.open E config d = .ok e) :
    e.metadata.Clean ∧ e.metadata.records = (files.replay E).metadata.records ∧
    ∀ o r, e.metadata.records[o]? = some r → ∃ v, e.vectors.get o = some v := by
  obtain ⟨-, opened, recovered, hfiles', hrun, hguard, hrebuild⟩ := open_eq_ok_iff.mp hopen
  cases hfiles.symm.trans hfiles'
  have hover := over_replay E files
  have hmapped : (files.replayedEngine E).vectors.mapped = true := by
    show (files.replay E).vectors.mapped = true
    rw [hover.vectors]
    exact mapped_openFiles hfiles
  obtain ⟨recovered', hrun', hkept⟩ := recoverPlan_run (e := files) hmapped
  obtain rfl : recovered = recovered' := (Prod.mk.inj (hrun.symm.trans hrun')).2
  have hclean : (files.replayedEngine E).metadata.Clean := by
    have hstart : files.metadata.Clean := by
      obtain ⟨vs, w, -, -, rfl⟩ := openFiles_eq_ok_iff.mp hfiles
      exact MetadataStore.clean_open _
    have hreplay := hover.clean hstart
    unfold replayedEngine
    dsimp only
    split
    · exact { hreplay with }
    · exact hreplay
  have hrecords :
      (files.replayedEngine E).metadata.records = (files.replay E).metadata.records := by
    unfold replayedEngine
    dsimp only
    split <;> rfl
  have hpres : recovered.metadata.Clean := by
    have hrunAll := runAll_preserves (P := fun e : Engine => e.metadata.Clean)
      (fun a (_ : a ∈ files.recoverPlan E) e he => clean_exec (E := E) he Io.ok a) hclean
    rwa [hrun] at hrunAll
  rw [rebuild_eq hrebuild]
  refine ⟨hpres, hkept.records.trans hrecords, fun o r hr => ?_⟩
  -- The guard compares the greatest offset with the number of vectors.
  have hlt : o < recovered.vectors.count := by
    unfold guards at hguard
    split at hguard
    · cases hguard
    · have hmem : o ∈ recovered.metadata.records.keys :=
        ExtTreeMap.mem_keys.mpr (ExtTreeMap.isSome_getElem?_iff_mem.mp (by rw [hr]; rfl))
      split at hguard
      · next hnone =>
        rw [MetadataStore.maxLiveOffset, List.max?_eq_none_iff] at hnone
        rw [hnone] at hmem
        cases hmem
      · next maxLive hmax =>
        split at hguard
        · cases hguard
        · next hcount =>
          exact (((List.max?_le_iff hmax).mp le_rfl) o hmem).trans_lt (Nat.not_le.mp hcount)
  exact ⟨_, by rw [VectorStore.get, if_pos ⟨hlt, hkept.mapped.trans hmapped⟩]⟩

/-- Every transaction of a plan commits the snapshot of a store that the plan comes to. -/
lemma exists_of_commit_mem {plan : List Action}
    (hstep : ∀ a ∈ plan, ∀ e, P e → P (e.exec E Io.ok a).2) (h : P e) {db : Redb}
    (hdb : .commit db ∈ planWrites E plan e) : ∃ e', P e' ∧ db = e'.metadata.db := by
  induction plan generalizing e with
  | nil => cases hdb
  | cons a plan ih =>
    have hnext := hstep a List.mem_cons_self e h
    rcases List.mem_append.mp hdb with hdb | hdb
    · refine ⟨_, hnext, ?_⟩
      cases a with
      | flushMetadata n | saveGraph => simpa [Action.writes, exec] using hdb
      | put offset vector | log entries =>
        unfold Action.writes at hdb
        dsimp only at hdb
        split at hdb
        · simp at hdb
        · cases hdb
      | _ => simp [Action.writes] at hdb
    · exact ih (fun b hb => hstep b (List.mem_cons_of_mem _ hb)) hnext hdb

/-- A kill during an open leaves the snapshot as it was, or as one of the stores has it that the
recovery comes to. -/
lemma redb_of_openImages
    (hstep : ∀ opened : Engine, ∀ a ∈ opened.recoverPlan E, ∀ e, P e → P (e.exec E Io.ok a).2)
    (h : ∀ opened, openFiles config d = .ok opened → P (opened.replayedEngine E)) {d' : Disk}
    (himage : d.Images (openWrites E config d) d') :
    d'.redb = d.redb ∨ ∃ e', P e' ∧ d'.redb = e'.metadata.db := by
  have hcommit : ∀ db, .commit db ∈ openWrites E config d → ∃ e', P e' ∧ db = e'.metadata.db := by
    intro db hdb
    unfold openWrites at hdb
    split at hdb
    · next opened _ hfiles =>
      rcases List.mem_append.mp hdb with hdb | hdb
      · -- Creating the vector file and the log writes no snapshot.
        rcases List.mem_append.mp hdb with hdb | hdb
        · unfold createVectorsWrites at hdb
          split at hdb
          · cases hdb
          · split at hdb <;> simp at hdb
        · unfold createWalWrites at hdb
          split at hdb
          · simp at hdb
          · split at hdb <;> simp at hdb
      · exact exists_of_commit_mem (hstep opened) (h opened hfiles) hdb
    · cases hdb
  refine himage.invariant
    (P := fun d' => d'.redb = d.redb ∨ ∃ e', P e' ∧ d'.redb = e'.metadata.db) (.inl rfl) ?_
  intro w hw d₁ d₂ hd₁ htorn
  cases htorn with
  | none => exact hd₁
  | part bytes n => exact hd₁
  | all =>
    cases w with
    | commit db => exact .inr (hcommit db hw)
    | _ => exact hd₁

/-- A kill during an open leaves the saved graph. -/
lemma graph_of_openImages {d' : Disk} (himage : d.Images (openWrites E config d) d') :
    d'.redb.graph = d.redb.graph := by
  have hredb := redb_of_openImages (P := fun e : Engine => e.metadata.db.graph = d.redb.graph)
    (fun opened a ha e he =>
      (db_graph_exec (E := E) Io.ok (recoverPlan_plain E opened a ha).1).trans he)
    (fun opened hfiles => by rw [db_replayedEngine, db_openFiles hfiles]) himage
  rcases hredb with heq | ⟨e', he', heq⟩
  · rw [heq]
  · rw [heq, he']

end Engine

namespace BeliefEngine

variable {E : Env} {B : BeliefArith} {C : BeliefConfig} {s s' : BeliefEngine} {d : Disk}
  {saved : ExtTreeMap PointOffset F32} {config : StoreConfig}

/-- The graph after an open is a good one. -/
lemma ok_rebuildGraph (hE : E.OwnSnapshots) (records : List (PointOffset × Record))
    {bytes : Option (List UInt8)} (hgood : GoodGraph E bytes) :
    (rebuildGraph E records bytes).graph.Ok := by
  cases bytes with
  | none => exact (buildGraph_spec E records).1
  | some bytes =>
    obtain ⟨g, hok, rfl⟩ := hgood bytes rfl
    have hload : (some (E.toSnapshotBytes g)).bind E.fromSnapshotBytes = some g.reload :=
      hE.reload g
    exact (rebuildGraph_spec E records hok.reloaded.ok hload).1

/-- The factors of a store that was opened. -/
lemma demotion_open (hopen : BeliefEngine.open E config d saved = .ok s) :
    s.demotion = atOpen E config d saved := by
  have hengine := open_eq_ok hopen
  unfold BeliefEngine.open at hopen
  rw [hengine] at hopen
  rw [← Except.ok.inj hopen]

/-- **An open of good files** gives a good store. -/
lemma SoundFiles.open (hE : E.OwnSnapshots) (h : SoundFiles E B d saved)
    (hopen : BeliefEngine.open E config d saved = .ok s) : s.Sound E B := by
  obtain ⟨hdb, hgraph⟩ := Engine.open_graph (open_eq_ok hopen)
  obtain ⟨-, files, -, hfiles, -⟩ := Engine.open_eq_ok_iff.mp (open_eq_ok hopen)
  refine ⟨?_, hdb ▸ h.graph, (Engine.open_records hfiles (open_eq_ok hopen)).1,
    demotion_open hopen ▸ sound_atOpen E config d h.demotion⟩
  rw [hgraph]
  exact ok_rebuildGraph hE _ h.graph

/-! ## Runs -/

/-- The access counters are drained. -/
lemma Sound.drain (h : s.Sound E B) : s.drain.Sound E B := by
  refine ⟨h.graph, ?_, (Engine.drainInto_spec _ _).1 h.clean, h.demotion⟩
  show GoodGraph E (Engine.drainInto _ s.engine.metadata).db.graph
  rw [(Engine.drainInto_files _ _).1]
  exact h.saved

section

variable (hB : B.UnitFloats) (hC : B.lt C.supersessionDemotionFactor one = true) (h : s.Sound E B)
  (ann : Ann)
include hB hC h

/-- A detection pass and its commit. -/
lemma Sound.commitProposed_detect (D : Option Detection) :
    (commitProposed E B C (detect E B C ann D s)).2.Sound E B := by
  cases D with
  | none => exact h
  | some D =>
    unfold commitProposed
    split
    · next err s' heq =>
      obtain rfl : s.drain = s' := congrArg Prod.snd heq
      exact h.drain
    · next proposed s' heq =>
      obtain rfl : s.drain = s' := congrArg Prod.snd heq
      exact h.drain.commitSupersessions hB hC proposed

/-- A detection pass. -/
lemma Sound.check :
    (checkRefinements E B C ann s).2.Sound E B ∧ (checkContradictions E B C ann s).2.Sound E B := by
  rw [checkRefinements, checkContradictions, proposeRefinements, proposeContradictions]
  exact ⟨h.commitProposed_detect hB hC ann _, h.commitProposed_detect hB hC ann _⟩

end

/-- Any step of a store that is up. -/
lemma Step.sound (hE : E.OwnSnapshots) (hB : B.UnitFloats)
    (hC : B.lt C.supersessionDemotionFactor one = true) (hstep : Step E B C s s')
    (h : s.Sound E B) : s'.Sound E B := by
  cases hstep with
  | request io r => exact h.call io r
  | checkRefinements ann => exact (h.check hB hC ann).1
  | checkContradictions ann => exact (h.check hB hC ann).2
  | advanceWatermark => exact { h with }
  | tend op htends hop =>
    exact { h with graph := (op.keeps_apply E.arith B.learn h.graph htends hop).ok }
  | saveGraph io => exact h.exec io .saveGraph
  | @reopen mid _ io reply config hflush hopen =>
    have hmid := h.call io .flush
    rw [hflush] at hmid
    exact SoundFiles.open hE ⟨hmid.saved, hmid.demotion.saved⟩ hopen

/-- The invariant of a situation. -/
def Situation.Sound (E : Env) (B : BeliefArith) : Situation → Prop
  | .up s => s.Sound E B
  | .down d saved => SoundFiles E B d saved

/-- **The invariant holds in all runs.** -/
lemma Reached.sound (hE : E.OwnSnapshots) (hB : B.UnitFloats)
    (hC : B.lt C.supersessionDemotionFactor one = true) {t : Situation}
    (h : Reached E B C t) : t.Sound E B := by
  induction h with
  | new =>
    refine ⟨fun bytes hbytes => (by cases hbytes), fun o f ho => ?_⟩
    simp at ho
  | opened _ config hopen ih => exact SoundFiles.open hE ih hopen
  | step _ hstep ih => exact hstep.sound hE hB hC ih
  | commitById _ list ih => exact Sound.commitSupersessions hB hC ih _
  | killed _ hleaves ih => exact Sound.leaves ih hleaves
  | @killedOpening d d' saved saved' _ config himage hsaved ih =>
    refine ⟨?_, ?_⟩
    · rw [Engine.graph_of_openImages himage]
      exact ih.graph
    · rcases hsaved with rfl | rfl
      · exact ih.demotion
      · exact (sound_atOpen E config d ih.demotion).saved

end BeliefEngine

end TurboMemory
