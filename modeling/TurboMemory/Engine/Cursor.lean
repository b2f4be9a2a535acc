import Mathlib
import TurboMemory.Engine.Candidates
import TurboMemory.Engine.Release

/-!
# The cursor of incremental detection

An incremental detection looks only at records from a watermark on, and the watermark is moved
after a detection: by a consolidation to the next sequence number at its end, by a deferred
detection to the one at its beginning. Writes go on meanwhile. This file follows the watermark
through every interleaving of writes with consolidations and deferred detections of any number of
threads, and says when no record is left behind it without having been examined.

## Main results

* `Cursor.run_uninterrupted` — moves that are not interrupted do what the source's functions do.
* `Cursor.flows_step` — what one move can do to records, numbers and the work left of a write.
* `Cursor.examined_throughout` — along careful moves every record is examined before the watermark
  moves past it.

## Implementation notes

A detection pass reads the watermark and the records at its beginning, and what it examines
depends on nothing else but its searches, which are arbitrary; so a pass is one move. The other
parts of a consolidation only delete records, change access counts or concepts, or insert a gist:
deletions and inserts are requests here. A record that a pass comes to counts as examined also
where it has no vector or is superseded already, which ends its part in the pass by design.
-/

set_option autoImplicit false

namespace TurboMemory

open BeliefEngine List Engine

/-! ## The system -/

/-- Where the detection of a thread is. The numbers are what it has read of the counters. -/
inductive CursorPhase
  | idle
  /-- A consolidation has committed refinements. -/
  | refined
  /-- A consolidation has committed contradictions. -/
  | detected
  /-- `propose_supersessions` has read the next sequence number. -/
  | asked (examinedUpTo : ℕ)
  /-- `propose_supersessions` has its refinements. -/
  | halfway (examinedUpTo : ℕ)
  /-- `propose_supersessions` has all its pairs. -/
  | proposed (examinedUpTo : ℕ)
  /-- `propose_supersession_candidates` has read the watermark and the next sequence number. -/
  | queried (query : CandidateQuery) (watermark examinedUpTo : ℕ)
  /-- `propose_supersession_candidates` has its pairs. -/
  | offered (examinedUpTo : ℕ)
deriving DecidableEq

/-- A consolidation has detected something and has not moved the watermark yet. -/
def CursorPhase.automatic : CursorPhase → Bool
  | .refined | .detected => true
  | _ => false

/-- The store, what is left of the write that holds the lock, where each thread is, and the records
examined so far. -/
structure Cursor (T : Type) where
  store : BeliefEngine
  writer : List Action := []
  phase : T → CursorPhase := fun _ => .idle
  taken : List (PointOffset × ℕ) := []

/-- The moves of the system. -/
inductive CursorMove (T : Type)
  | request (r : Request)
  | write (io : Io)
  | commit (pairs : List (String × String × SupersessionKind))
  | refinements (t : T) (ann : Ann)
  | contradictions (t : T) (ann : Ann)
  | ask (t : T)
  | query (t : T) (q : CandidateQuery)
  | offer (t : T) (search : AnyBeliefSearch)
  | finish (t : T)

namespace Cursor

variable {T : Type} [DecidableEq T]

/-- A thread goes on to a phase. -/
def enter (s : Cursor T) (t : T) (phase : CursorPhase) : Cursor T :=
  { s with phase := Function.update s.phase t phase }

/-- A thread has made a pass that examined these records; an error ends its detection. -/
def pass {α : Type} (s : Cursor T) (t : T) (next : CursorPhase)
    (visited : List (PointOffset × MetaRecord)) (r : Except StorageError α × BeliefEngine) :
    Cursor T where
  store := r.2
  writer := s.writer
  phase := Function.update s.phase t (if r.1.isOk then next else .idle)
  taken := s.taken ++ visited.map fun c => (c.1, c.2.insertSeq)

/-- One move. A move that is not enabled changes nothing. -/
def step (E : Env) (B : CandidateArith) (C : BeliefConfig) (flags : ConsolidationFlags)
    (s : Cursor T) : CursorMove T → Cursor T
  | .request r =>
    match s.writer with
    | [] =>
      match s.store.engine.begin E s.store.engine.graph.graph.vocab r with
      | .done _ => s
      | .run e plan _ => { s with store := { s.store with engine := e }, writer := plan }
    | _ :: _ => s
  | .write io =>
    match s.writer with
    | [] => s
    | a :: rest =>
      let r := s.store.exec E io a
      { s with store := r.2, writer := if r.1.isOk then rest else [] }
  | .commit pairs =>
    { s with store := (commitSupersessionsById E B.toBeliefArith C s.store pairs).2 }
  | .refinements t ann =>
    let visited := visited E B.toBeliefArith C ann (refining B.toBeliefArith C) s.store
    match s.phase t with
    | .idle =>
      -- With a deferred commit a consolidation detects nothing.
      if flags.deferSupersessionCommit then s
      else s.pass t .refined visited (checkRefinements E B.toBeliefArith C ann s.store)
    | .asked upTo =>
      s.pass t (.halfway upTo) visited (proposeRefinements E B.toBeliefArith C ann s.store)
    | _ => s
  | .contradictions t ann =>
    let visited := visited E B.toBeliefArith C ann (contradicting B.toBeliefArith C) s.store
    match s.phase t with
    | .refined => s.pass t .detected visited (checkContradictions E B.toBeliefArith C ann s.store)
    | .halfway upTo =>
      s.pass t (.proposed upTo) visited (proposeContradictions E B.toBeliefArith C ann s.store)
    | _ => s
  | .ask t =>
    match s.phase t with
    | .idle => s.enter t (.asked s.store.engine.metadata.nextSeq)
    | _ => s
  | .query t q =>
    match s.phase t with
    | .idle =>
      if q.perRecord = 0 ∨ C.refinementMaxPairsPerCycle = 0 then s
      else s.enter t (.queried q (s.store.start C) s.store.engine.metadata.nextSeq)
    | _ => s
  | .offer t search =>
    match s.phase t with
    | .queried q watermark upTo =>
      let r := offerLoop E B C s.store.engine q search watermark
      s.pass t (.offered upTo) r.2 (r.1, s.store)
    | _ => s
  | .finish t =>
    match s.phase t with
    | .detected => { s with store := s.store.advanceWatermark }.enter t .idle
    | .proposed upTo | .offered upTo =>
      { s with store := if flags.deferSupersessionCommit then { s.store with watermark := upTo }
          else s.store }.enter t .idle
    | _ => s

/-- Every live record of an allowed role from a number on that is behind the watermark has been
examined. -/
def Examined (C : BeliefConfig) (first : ℕ) (s : Cursor T) : Prop :=
  ∀ (o : PointOffset) (r : MetaRecord), s.store.engine.metadata.get o = some r →
    roleAllowed r.sourceRole C.beliefSourceRoles = true → first ≤ r.insertSeq →
    r.insertSeq < s.store.watermark → (o, r.insertSeq) ∈ s.taken

/-! ## Detections that are not interrupted -/

/-- The moves of a thread that is not interrupted leave the store as the source's functions do. A
pass that fails ends the detection in both. -/
theorem run_uninterrupted (E : Env) (B : CandidateArith) (C : BeliefConfig)
    (flags : ConsolidationFlags) (s : Cursor T) (t : T) (annR annC : Ann) (q : CandidateQuery)
    (search : AnyBeliefSearch) :
    let run := fun moves => (moves.foldl (step E B C flags) (s.enter t .idle)).store
    run [.refinements t annR, .contradictions t annC, .finish t] =
        triggerDetection E B.toBeliefArith C flags annR annC s.store ∧
      run [.ask t, .refinements t annR, .contradictions t annC, .finish t] =
        (proposeSupersessions E B.toBeliefArith C flags annR annC s.store).2 ∧
      run [.query t q, .offer t search, .finish t] =
        (proposeSupersessionCandidates E B C flags q search s.store).2 := by
  refine ⟨?_, ?_, ?_⟩
  · unfold triggerDetection
    cases hdefer : flags.deferSupersessionCommit with
    | true => simp [step, enter, hdefer]
    | false =>
      rcases hr : checkRefinements E B.toBeliefArith C annR s.store with ⟨_ | _, st⟩
      · simp [step, hdefer, hr, pass, enter, Except.isOk, Except.toBool]
      · rcases hc : checkContradictions E B.toBeliefArith C annC st with ⟨_ | _, st'⟩ <;>
          simp [step, hdefer, hr, hc, pass, enter, Except.isOk, Except.toBool]
  · unfold proposeSupersessions
    rcases hr : proposeRefinements E B.toBeliefArith C annR s.store with ⟨_ | _, st⟩
    · simp [step, hr, pass, enter, Except.isOk, Except.toBool]
    · rcases hc : proposeContradictions E B.toBeliefArith C annC st with ⟨_ | _, st'⟩ <;>
        simp [step, hr, hc, pass, enter, Except.isOk, Except.toBool]
  · unfold proposeSupersessionCandidates
    split
    · next hnone => simp [step, enter, hnone]
    · next hsome =>
      rcases hr : offerLoop E B C s.store.engine q search (s.store.start C) with ⟨_ | _, looked⟩ <;>
        simp [step, hsome, hr, pass, enter, Except.isOk, Except.toBool]

/-! ## Careful moves -/

/-- The records that a write has numbers for and has yet to enter. -/
def unentered (writer : List Action) : List (PointOffset × Record) :=
  writer.flatMap fun
    | .applyBatch records => records
    | _ => []

/-- A detection of pairs is on. -/
def Detects (B : BeliefArith) (C : BeliefConfig) : Prop :=
  (refining B C).isSome = true ∨ (contradicting B C).isSome = true

/-- A pass of a detection that is on finds fewer pairs than its limit before it comes to the oldest
new record. -/
def HasRoom (E : Env) (B : BeliefArith) (C : BeliefConfig) (ann : Ann) (D : Option Detection)
    (s : Cursor T) : Prop :=
  ∀ d ∈ D, Roomy E B C ann d s.store

/-- The same for the candidates of a verifier. -/
def OffersRoom (E : Env) (B : CandidateArith) (C : BeliefConfig) (q : CandidateQuery)
    (search : AnyBeliefSearch) (watermark : ℕ) (s : Cursor T) : Prop :=
  ((offerable E C s.store.engine watermark).dropLast.map
    (Loop.yield (offersFor B C s.store.engine q search))).sum < C.refinementMaxPairsPerCycle

end Cursor

/-- The requests that give out sequence numbers. -/
def Request.allocates : Request → Bool
  | .insert .. | .insertBatch .. | .update .. => true
  | .deleteById _ | .flush => false

namespace Cursor

variable {T : Type} [DecidableEq T]

/-- The moves that leave no record behind: no number is given out between the detection of a
consolidation and the move of its watermark, no record is on its way where a detection fixes its
end, some detection is on, and each pass has room for all new records. -/
def Careful (E : Env) (B : CandidateArith) (C : BeliefConfig) (flags : ConsolidationFlags)
    (s : Cursor T) : CursorMove T → Prop
  | .request r => r.allocates = true → ∀ t, (s.phase t).automatic = false
  | .refinements t ann =>
    match s.phase t with
    | .idle => flags.deferSupersessionCommit = false → unentered s.writer = [] ∧
        Detects B.toBeliefArith C ∧ HasRoom E B.toBeliefArith C ann (refining B.toBeliefArith C) s
    | .asked _ => flags.deferSupersessionCommit = true →
        HasRoom E B.toBeliefArith C ann (refining B.toBeliefArith C) s
    | _ => True
  | .contradictions t ann =>
    match s.phase t with
    | .refined => unentered s.writer = [] ∧
        HasRoom E B.toBeliefArith C ann (contradicting B.toBeliefArith C) s
    | .halfway _ => flags.deferSupersessionCommit = true →
        HasRoom E B.toBeliefArith C ann (contradicting B.toBeliefArith C) s
    | _ => True
  | .ask _ => flags.deferSupersessionCommit = true →
      unentered s.writer = [] ∧ Detects B.toBeliefArith C
  | .query _ _ => flags.deferSupersessionCommit = true → unentered s.writer = []
  | .offer t search =>
    match s.phase t with
    | .queried q watermark _ => flags.deferSupersessionCommit = true →
        OffersRoom E B C q search watermark s
    | _ => True
  | _ => True

end Cursor

/-! ## What a move can do -/

namespace BeliefEngine

variable {E : Env} {B : BeliefArith} {C : BeliefConfig} {s s' s'' : BeliefEngine}

/-- What the cursor depends on is as it was. -/
structure Kept (s s' : BeliefEngine) : Prop where
  provenance : s'.engine.metadata.records.provenance = s.engine.metadata.records.provenance
  nextSeq : s'.engine.metadata.nextSeq = s.engine.metadata.nextSeq
  watermark : s'.watermark = s.watermark

/-- Nothing is done. -/
lemma Kept.refl (s : BeliefEngine) : Kept s s := ⟨rfl, rfl, rfl⟩

/-- One after the other. -/
lemma Kept.trans (h : Kept s s') (h' : Kept s' s'') : Kept s s'' :=
  ⟨h'.provenance.trans h.provenance, h'.nextSeq.trans h.nextSeq, h'.watermark.trans h.watermark⟩

/-- The access counters are drained. -/
lemma kept_drain (s : BeliefEngine) : Kept s s.drain :=
  ⟨(drainInto_spec _ _).2.1, (drainInto_files _ _).2.2, rfl⟩

/-- A pair is committed. -/
lemma kept_commitOne (n : ℕ) (s : BeliefEngine) (p : ProposedSupersession) :
    Kept s (commitOne E B C (n, s) p).2 := by
  have h := transferred_commitOne (E := E) B C n s p
  refine ⟨provenance_of_enriches h.records, h.nextSeq, ?_⟩
  unfold commitOne
  dsimp only
  split <;> rfl

/-- Several are. -/
lemma kept_commitSupersessions (s : BeliefEngine) (ps : List ProposedSupersession) :
    Kept s (commitSupersessions E B C s ps).2 :=
  commitSupersessions_induction (P := fun _ s' => Kept s s') B C (.refl s)
    (fun _ p n s' _ hs' => hs'.trans (kept_commitOne n s' p))
    fun _ hs' => { hs' with }

/-- A detection. -/
lemma kept_detect (ann : Ann) (D : Option Detection) (s : BeliefEngine) :
    Kept s (detect E B C ann D s).2 := by
  cases D with
  | none => exact .refl s
  | some D => exact kept_drain s

/-- What it proposed is committed. -/
lemma kept_commitProposed (r : Except StorageError (List ProposedSupersession) × BeliefEngine) :
    Kept r.2 (commitProposed E B C r).2 := by
  obtain ⟨_ | proposed, s⟩ := r
  · exact .refl s
  · exact kept_commitSupersessions s proposed

end BeliefEngine

namespace Engine

/-- A batch enters no other records than its own. -/
lemma seq_of_applyBatch {E : Env} {io : Io} {e : Engine} {records : List (PointOffset × Record)}
    {o : PointOffset} {a : Provenance}
    (h : (e.applyBatch E io records).2.metadata.records.provenance o = some a) :
    e.metadata.records.provenance o = some a ∨ ∃ p ∈ records, a.insertSeq = p.2.insertSeq := by
  rw [metadata_applyBatch] at h
  refine Loop.foldl_induction (P := fun m : MetadataStore => m.records.provenance o = some a →
    e.metadata.records.provenance o = some a ∨ ∃ p ∈ records, a.insertSeq = p.2.insertSeq)
    records .inl (fun p hp m ih hm => ?_) h
  rw [Records.provenance, MetadataStore.put, MetadataStore.getElem?_records_putMeta] at hm
  split at hm
  · cases hm
    exact .inr ⟨p, hp, rfl⟩
  · exact ih hm

end Engine

namespace Cursor

variable {T : Type} {E : Env} {B : CandidateArith} {C : BeliefConfig}
  {flags : ConsolidationFlags} {s s' : Cursor T} {first b : ℕ} {plan : List Action}

/-- The next sequence number. -/
def nextSeq (s : Cursor T) : ℕ := s.store.engine.metadata.nextSeq

/-- The provenance of the record at an offset. -/
def provenance (s : Cursor T) (o : PointOffset) : Option Provenance :=
  s.store.engine.metadata.records.provenance o

/-- What one move can do: numbers are given out from the next one on, only the write that has a
number enters it, and no examined record is forgotten. -/
structure Flows (s s' : Cursor T) : Prop where
  nextSeq : s.nextSeq ≤ s'.nextSeq
  unentered : ∀ p ∈ unentered s'.writer, p ∈ unentered s.writer ∨ s.nextSeq ≤ p.2.insertSeq
  records : ∀ o a, s'.provenance o = some a →
    s.provenance o = some a ∨ ∃ p ∈ Cursor.unentered s.writer, a.insertSeq = p.2.insertSeq
  taken : s.taken ⊆ s'.taken

/-- Nothing is done. -/
lemma Flows.refl (s : Cursor T) : Flows s s :=
  ⟨le_rfl, fun _ hp => .inl hp, fun _ _ h => .inl h, .refl _⟩

/-- A move that only notes examined records. -/
lemma Flows.of_kept (hkept : BeliefEngine.Kept s.store s'.store) (hwriter : s'.writer = s.writer)
    (htaken : s.taken ⊆ s'.taken) : Flows s s' := by
  refine ⟨hkept.nextSeq.ge, fun p hp => .inl (hwriter ▸ hp), fun o a h => .inl ?_, htaken⟩
  rw [provenance, hkept.provenance] at h
  exact h

/-- Nothing is left to do. -/
@[simp] lemma unentered_nil : unentered [] = [] := rfl

/-- A step that enters nothing. -/
lemma unentered_cons_of_plain {a : Action} (ha : a.plain = true) (plan : List Action) :
    unentered (a :: plan) = unentered plan := by
  cases a with
  | applyBatch records => cases ha
  | _ => rfl

/-- Steps that enter nothing. -/
lemma unentered_of_plain (hplain : ∀ a ∈ plan, a.plain = true) : unentered plan = [] := by
  induction plan with
  | nil => rfl
  | cons a plan ih =>
    rw [unentered_cons_of_plain (hplain a mem_cons_self)]
    exact ih fun a' ha' => hplain a' (mem_cons_of_mem _ ha')

/-- A plan of two parts. -/
lemma unentered_append (plan rest : List Action) :
    unentered (plan ++ rest) = unentered plan ++ unentered rest :=
  flatMap_append

/-- The records of a write. -/
lemma unentered_writePlan (records : List (PointOffset × Record)) (entries : List Entry)
    {removed : List Action} (hremoved : unentered removed = []) :
    unentered (writePlan records entries removed) = records := by
  have hbefore := unentered_of_plain (plain_writePlan records entries)
  rw [writePlan, unentered_append, unentered_append, hbefore, hremoved]
  simp [unentered]

/-- The plan of a request has only numbers that were given out for it. -/
lemma seq_of_begun {e e' : Engine} {r : Request} (h : e.Begun E r e' plan) :
    e.metadata.nextSeq ≤ e'.metadata.nextSeq ∧
    e'.metadata.records.provenance = e.metadata.records.provenance ∧
    ∀ p ∈ unentered plan, e.metadata.nextSeq ≤ p.2.insertSeq := by
  cases h with
  | inserts clock ps =>
    rw [unentered_writePlan _ _ unentered_nil, allocateAll_snd]
    exact ⟨Nat.le_add_right _ _, rfl, fun p hp => (mem_allocateAll clock 0 ps _ hp).2.1.1⟩
  | replace now p oldOffset =>
    rw [unentered_writePlan _ _ rfl, allocateAll_snd]
    refine ⟨Nat.le_add_right _ _, rfl, fun q hq => ?_⟩
    obtain rfl := mem_singleton.mp hq
    exact le_rfl
  | delete id offset | flush => exact ⟨le_rfl, rfl, by simp [unentered]⟩

/-- A step of a write. -/
lemma flows_write (io : Io) (a : Action) (rest : List Action) (hwriter : s.writer = a :: rest)
    (hstore : s'.store = (s.store.exec E io a).2) (hrest : s'.writer = rest ∨ s'.writer = [])
    (htaken : s'.taken = s.taken) : Flows s s' ∧ s'.nextSeq = s.nextSeq := by
  have hleft : ∀ p ∈ unentered s'.writer, p ∈ unentered s.writer := by
    intro p hp
    rcases hrest with heq | heq
    · rw [hwriter, unentered, flatMap_cons]
      exact mem_append_right _ (heq ▸ hp)
    · rw [heq] at hp
      cases hp
  have hseq : s'.nextSeq = s.nextSeq := by
    rw [nextSeq, hstore]
    exact (counters_exec E io s.store.engine a).2
  refine ⟨⟨hseq.ge, fun p hp => .inl (hleft p hp), fun o a' ho => ?_, htaken ▸ .refl _⟩, hseq⟩
  rw [provenance, hstore] at ho
  cases hplain : a.plain with
  | true =>
    left
    rwa [show (s.store.exec E io a).2.engine.metadata.records.provenance = _ from
      (still_exec E io s.store.engine hplain).provenance] at ho
  | false =>
    cases a with
    | removeFromIndexes id offset =>
      change (s.store.engine.removeFromIndexes E id offset).metadata.records.provenance o = _ at ho
      rw [provenance_removeFromIndexes] at ho
      split at ho
      · cases ho
      · exact .inl ho
    | applyBatch records =>
      rcases seq_of_applyBatch ho with ho | ⟨p, hp, hseq⟩
      · exact .inl ho
      · refine .inr ⟨p, ?_, hseq⟩
        rw [hwriter, unentered, flatMap_cons]
        exact mem_append_left _ hp
    | _ => cases hplain

/-- A request. -/
lemma flows_request (r : Request) {e : Engine} {reply : Reply}
    (h : s.store.engine.begin E s.store.engine.graph.graph.vocab r = .run e plan reply) :
    Flows s { s with store := { s.store with engine := e }, writer := plan } ∧
      (r.allocates = false → e.metadata.nextSeq = s.nextSeq) := by
  obtain ⟨hseq, hprov, hplan⟩ := seq_of_begun (begun_of_begin h)
  refine ⟨⟨hseq, fun p hp => .inr (hplan p hp), fun o a ho => .inl ?_, .refl _⟩,
    fun hidle => ?_⟩
  · rwa [provenance, hprov] at ho
  · cases r with
    | deleteById id =>
      simp only [begin, deleteById, deleteWhere] at h
      split at h <;> cases h
      rfl
    | flush =>
      cases h
      rfl
    | _ => cases hidle

end Cursor

/-- The moves that give out sequence numbers. -/
def CursorMove.allocates {T : Type} : CursorMove T → Bool
  | .request r => r.allocates
  | _ => false

namespace Cursor

variable {T : Type} [DecidableEq T] {E : Env} {B : CandidateArith} {C : BeliefConfig}
  {flags : ConsolidationFlags} {s s' : Cursor T} {first b : ℕ} {α : Type}
  {proposed : List ProposedSupersession} {t : T} {ann : Ann} {search : AnyBeliefSearch}
  {phase : CursorPhase} {q : CandidateQuery} {m : CursorMove T} {watermark : ℕ}

/-- The first pass. -/
lemma kept_checkRefinements (ann : Ann) (st : BeliefEngine) :
    BeliefEngine.Kept st (checkRefinements E B.toBeliefArith C ann st).2 := by
  rw [checkRefinements, proposeRefinements]
  exact (kept_detect ann _ st).trans (kept_commitProposed _)

/-- The second pass. -/
lemma kept_checkContradictions (ann : Ann) (st : BeliefEngine) :
    BeliefEngine.Kept st (checkContradictions E B.toBeliefArith C ann st).2 := by
  rw [checkContradictions, proposeContradictions]
  exact (kept_detect ann _ st).trans (kept_commitProposed _)

/-- A pass takes no number. -/
lemma flows_pass (t : T) (next : CursorPhase)
    (visited : List (PointOffset × MetaRecord)) {r : Except StorageError α × BeliefEngine}
    (hkept : BeliefEngine.Kept s.store r.2) :
    Flows s (s.pass t next visited r) ∧ (s.pass t next visited r).nextSeq = s.nextSeq :=
  ⟨.of_kept hkept rfl (subset_append_left _ _), hkept.nextSeq⟩

/-- A phase begins. -/
lemma flows_enter (watermark : ℕ) (t : T) (phase : CursorPhase) :
    let s' := { s with store := { s.store with watermark := watermark } }.enter t phase
    Flows s s' ∧ s'.nextSeq = s.nextSeq :=
  ⟨⟨le_rfl, fun _ hp => .inl hp, fun _ _ h => .inl h, .refl _⟩, rfl⟩

/-- A move that gives out no number. -/
lemma flows_step_of_not_allocates (hm : m.allocates = false) :
    Flows s (step E B C flags s m) ∧ (step E B C flags s m).nextSeq = s.nextSeq := by
  have hsame : Flows s s ∧ s.nextSeq = s.nextSeq := ⟨.refl s, rfl⟩
  cases m with
  | request r =>
    simp only [step]
    split
    · split
      · exact hsame
      · next hbegin =>
        obtain ⟨hflows, hseq⟩ := flows_request r hbegin
        exact ⟨hflows, hseq hm⟩
    · exact hsame
  | write io =>
    simp only [step]
    split
    · exact hsame
    · next a rest hwriter =>
      refine flows_write io a rest hwriter rfl ?_ rfl
      dsimp only
      split
      · exact .inl rfl
      · exact .inr rfl
  | commit pairs =>
    have hkept := kept_commitSupersessions (E := E) (B := B.toBeliefArith) (C := C) s.store
      (pairs.filterMap (resolvePair s.store.engine))
    exact ⟨.of_kept hkept rfl (.refl _), hkept.nextSeq⟩
  | refinements t ann =>
    simp only [step]
    split
    · split
      · exact hsame
      · exact flows_pass t _ _ (kept_checkRefinements ann s.store)
    · rw [proposeRefinements]
      exact flows_pass t _ _ (kept_detect ann _ s.store)
    · exact hsame
  | contradictions t ann =>
    simp only [step]
    split
    · exact flows_pass t _ _ (kept_checkContradictions ann s.store)
    · rw [proposeContradictions]
      exact flows_pass t _ _ (kept_detect ann _ s.store)
    · exact hsame
  | ask t =>
    simp only [step]
    split
    · exact flows_enter s.store.watermark t _
    · exact hsame
  | query t q =>
    simp only [step]
    split
    · split
      · exact hsame
      · exact flows_enter s.store.watermark t _
    · exact hsame
  | offer t search =>
    simp only [step]
    split
    · exact flows_pass t _ _ (.refl s.store)
    · exact hsame
  | finish t =>
    simp only [step]
    split
    · exact flows_enter s.store.engine.metadata.nextSeq t _
    · split
      · exact flows_enter _ t _
      · exact flows_enter s.store.watermark t _
    · split
      · exact flows_enter _ t _
      · exact flows_enter s.store.watermark t _
    · exact hsame

/-- **What one move can do.** -/
lemma flows_step (m : CursorMove T) : Flows s (step E B C flags s m) := by
  cases m with
  | request r =>
    simp only [step]
    split
    · split
      · exact .refl s
      · next hbegin => exact (flows_request r hbegin).1
    · exact .refl s
  | _ => exact (flows_step_of_not_allocates rfl).1

/-! ## The invariant -/

/-- Whatever is entered from now on has at least this number. -/
structure Ahead (s : Cursor T) (b : ℕ) : Prop where
  bound : b ≤ s.nextSeq
  unentered : ∀ p ∈ unentered s.writer, b ≤ p.2.insertSeq

/-- The live records of an allowed role below a number have been examined. -/
def Covered (C : BeliefConfig) (first : ℕ) (s : Cursor T) (b : ℕ) : Prop :=
  ∀ o a, s.provenance o = some a → roleAllowed a.sourceRole C.beliefSourceRoles = true →
    first ≤ a.insertSeq → a.insertSeq < b → (o, a.insertSeq) ∈ s.taken

/-- All records below a number have been examined, and no more will come. -/
structure Done (C : BeliefConfig) (first : ℕ) (s : Cursor T) (b : ℕ) : Prop where
  ahead : s.Ahead b
  covered : Covered C first s b

/-- What a thread knows in a phase. -/
def Knows (B : BeliefArith) (C : BeliefConfig) (flags : ConsolidationFlags) (first : ℕ)
    (s : Cursor T) : CursorPhase → Prop
  | .idle => True
  | .refined => Detects B C ∧ ((refining B C).isSome = true → Done C first s s.nextSeq)
  | .detected => Done C first s s.nextSeq
  | .asked upTo => flags.deferSupersessionCommit = true → Detects B C ∧ s.Ahead upTo
  | .halfway upTo => flags.deferSupersessionCommit = true → Detects B C ∧ s.Ahead upTo ∧
      ((refining B C).isSome = true → Covered C first s upTo)
  | .queried _ watermark upTo => flags.deferSupersessionCommit = true →
      Done C first s watermark ∧ s.Ahead upTo
  | .proposed upTo | .offered upTo => flags.deferSupersessionCommit = true → Done C first s upTo

/-- The invariant of careful moves. -/
structure Inv (B : BeliefArith) (C : BeliefConfig) (flags : ConsolidationFlags) (first : ℕ)
    (s : Cursor T) : Prop where
  done : Done C first s s.store.watermark
  knows : ∀ t, Knows B C flags first s (s.phase t)

section

omit [DecidableEq T]

/-- Records to come stay ahead. -/
lemma Ahead.flows (h : s.Ahead b) (hflows : Flows s s') : s'.Ahead b := by
  refine ⟨h.bound.trans hflows.nextSeq, fun p hp => ?_⟩
  rcases hflows.unentered p hp with hp | hseq
  · exact h.unentered p hp
  · exact h.bound.trans hseq

/-- All records to come are ahead of the next number. -/
lemma ahead_nextSeq (h : unentered s.writer = []) : s.Ahead s.nextSeq :=
  ⟨le_rfl, fun p hp => by rw [h] at hp; cases hp⟩

/-- A record that is entered later does not come below the number. -/
lemma Covered.flows (h : Covered C first s b) (hahead : s.Ahead b) (hflows : Flows s s') :
    Covered C first s' b := by
  intro o a ho hrole hfirst hlt
  rcases hflows.records o a ho with ho | ⟨p, hp, hseq⟩
  · exact hflows.taken (h o a ho hrole hfirst hlt)
  · exact absurd hlt (Nat.not_lt.mpr (hseq ▸ hahead.unentered p hp))

/-- What was examined stays so. -/
lemma Done.flows (h : Done C first s b) (hflows : Flows s s') : Done C first s' b :=
  ⟨h.ahead.flows hflows, h.covered.flows h.ahead hflows⟩

/-- What a thread knows stays true. -/
lemma Knows.flows {B : BeliefArith} (h : Knows B C flags first s phase)
    (hflows : Flows s s') (hseq : phase.automatic = true → s'.nextSeq = s.nextSeq) :
    Knows B C flags first s' phase := by
  cases phase with
  | idle => trivial
  | refined =>
    refine ⟨h.1, fun hon => ?_⟩
    rw [hseq rfl]
    exact (h.2 hon).flows hflows
  | detected =>
    change Done C first s' s'.nextSeq
    rw [hseq rfl]
    exact Done.flows h hflows
  | asked upTo => exact fun hdefer => ⟨(h hdefer).1, (h hdefer).2.flows hflows⟩
  | halfway upTo =>
    intro hdefer
    obtain ⟨hon, hahead, hcovered⟩ := h hdefer
    exact ⟨hon, hahead.flows hflows, fun hon => (hcovered hon).flows hahead hflows⟩
  | proposed upTo | offered upTo => exact fun hdefer => (h hdefer).flows hflows
  | queried q watermark upTo =>
    exact fun hdefer => ⟨(h hdefer).1.flows hflows, (h hdefer).2.flows hflows⟩

end

/-- A move of one thread, by which it comes to know what belongs to its new phase. -/
lemma Inv.enter {B : BeliefArith} (h : Inv B C flags first s)
    (hflows : Flows s s') (hseq : s'.nextSeq = s.nextSeq)
    (hphase : s'.phase = Function.update s.phase t phase)
    (hdone : Done C first s' s'.store.watermark) (hknows : Knows B C flags first s' phase) :
    Inv B C flags first s' := by
  refine ⟨hdone, fun t' => ?_⟩
  rw [hphase]
  by_cases heq : t' = t
  · rw [heq, Function.update_self]
    exact hknows
  · rw [Function.update_of_ne heq]
    exact (h.knows t').flows hflows fun _ => hseq

/-- A pass after which a thread knows what belongs to its next phase. -/
lemma Inv.pass {B : BeliefArith} (h : Inv B C flags first s) (t : T)
    (next : CursorPhase) (visited : List (PointOffset × MetaRecord))
    {r : Except StorageError α × BeliefEngine} (hkept : BeliefEngine.Kept s.store r.2)
    (hknows : r.1.isOk = true → Knows B C flags first (s.pass t next visited r) next) :
    Inv B C flags first (s.pass t next visited r) := by
  obtain ⟨hflows, hseq⟩ := flows_pass t next visited hkept
  refine h.enter hflows hseq rfl ?_ ?_
  · rw [show (s.pass t next visited r).store.watermark = _ from hkept.watermark]
    exact h.done.flows hflows
  · split
    · next hok => exact hknows hok
    · trivial

/-! ## Passes -/

/-- The watermark that a pass reads is not ahead of the one that the store has. -/
lemma lt_watermark {st : BeliefEngine} {n : ℕ} (h : ¬ st.start C ≤ n) : n < st.watermark := by
  unfold start at h
  split at h
  · exact Nat.lt_of_not_le h
  · exact absurd (Nat.zero_le n) h

/-- **After a pass with room every live record of an allowed role has been examined.** -/
lemma covered_pass {B : BeliefArith} {D : Detection} (hdone : Done C first s s.store.watermark)
    (hroom : Roomy E B C ann D s.store) (hok : (propose E B C ann D s.store).1 = .ok proposed)
    (t : T) (next : CursorPhase) {r : Except StorageError α × BeliefEngine}
    (hkept : BeliefEngine.Kept s.store r.2) (b : ℕ) :
    Covered C first (s.pass t next (visited E B C ann (some D) s.store) r) b := by
  intro o a ho hrole hfirst _
  have hprov : s.provenance o = some a := by
    rw [provenance, ← hkept.provenance]
    exact ho
  by_cases hstart : s.store.start C ≤ a.insertSeq
  · have hdrained : s.store.drain.engine.metadata.records.provenance o = some a := by
      rw [(kept_drain s.store).provenance]
      exact hprov
    obtain ⟨record, hrecord, rfl⟩ := Option.map_eq_some_iff.mp hdrained
    exact mem_append_right _
      (mem_map_of_mem (mem_visited hroom hok hrecord hstart hrole))
  · exact mem_append_left _ (hdone.covered o a hprov hrole hfirst (lt_watermark hstart))

/-- A fresh record of an allowed role is offered. -/
lemma mem_offerable {e : Engine} {o : PointOffset} {r : MetaRecord}
    (hr : e.metadata.records[o]? = some r) (hseq : watermark ≤ r.insertSeq)
    (hrole : roleAllowed r.sourceRole C.beliefSourceRoles = true) :
    (o, r) ∈ offerable E C e watermark := by
  rw [offerable, mem_insertionSort, mem_filter, (E.iterate_perm _).mem_iff,
    Std.ExtTreeMap.mem_toList_iff_getElem?_eq_some]
  simp [hr, hseq, hrole]

/-- The same for the candidates of a verifier. -/
lemma covered_offer (hdone : Done C first s watermark)
    (hroom : OffersRoom E B C q search watermark s)
    (hok : (offerLoop E B C s.store.engine q search watermark).1 = .ok proposed) (t : T)
    (next : CursorPhase) (b : ℕ) : let r := offerLoop E B C s.store.engine q search watermark
    Covered C first (s.pass t next r.2 (r.1, s.store)) b := by
  intro r o a ho hrole hfirst _
  by_cases hstart : watermark ≤ a.insertSeq
  · obtain ⟨record, hrecord, rfl⟩ := Option.map_eq_some_iff.mp ho
    have hmem := Loop.mem_limited (fun _ => true) rfl _ _ hok
      (mem_offerable hrecord hstart hrole) (by simp)
      (by rw [filter_true, length_nil, Nat.zero_add]; exact hroom)
    exact mem_append_right _ (mem_map_of_mem hmem)
  · exact mem_append_left _
      (hdone.covered o a ho hrole hfirst (Nat.lt_of_not_le hstart))

/-- A call that succeeds has a result. -/
lemma exists_ok {r : Except StorageError α} (h : r.isOk = true) : ∃ x, r = .ok x := by
  cases r with
  | error err => cases h
  | ok x => exact ⟨x, rfl⟩

/-- So has the detection before it. -/
lemma ok_of_commitProposed {B : BeliefArith}
    {r : Except StorageError (List ProposedSupersession) × BeliefEngine}
    (h : (commitProposed E B C r).1.isOk = true) : ∃ proposed, r.1 = .ok proposed := by
  obtain ⟨err | proposed, st⟩ := r
  · cases h
  · exact ⟨proposed, rfl⟩

/-- A pass of a detection, on or off: if it is on, every live record of an allowed role has been
examined. -/
lemma covered_detect {B : BeliefArith} {D : Option Detection}
    (hdone : Done C first s s.store.watermark) (hroom : HasRoom E B C ann D s)
    (hok : ∃ proposed, (detect E B C ann D s.store).1 = .ok proposed) (t : T) (next : CursorPhase)
    {r : Except StorageError α × BeliefEngine} (hkept : BeliefEngine.Kept s.store r.2) (b : ℕ)
    (hon : D.isSome = true) :
    Covered C first (s.pass t next (visited E B C ann D s.store) r) b := by
  obtain ⟨d, rfl⟩ := Option.isSome_iff_exists.mp hon
  obtain ⟨proposed, hok⟩ := hok
  exact covered_pass hdone (hroom d rfl) hok t next hkept b

/-! ## Runs -/

section Moves

variable (h : Inv B.toBeliefArith C flags first s)
include h

/-- The first pass of a consolidation. -/
lemma Inv.refinements (hcareful : Careful E B C flags s (.refinements t ann)) :
    Inv B.toBeliefArith C flags first (step E B C flags s (.refinements t ann)) := by
  have hthread := h.knows t
  simp only [step]
  simp only [Careful] at hcareful
  split
  · next hphase =>
    simp only [hphase] at hcareful
    split
    · exact h
    · next hdefer =>
      obtain ⟨hunentered, hon, hroom⟩ := hcareful (by simpa using hdefer)
      have hkept := kept_checkRefinements (E := E) (B := B) (C := C) ann s.store
      refine h.pass t _ _ hkept fun hok => ⟨hon, fun hrefining => ⟨ahead_nextSeq hunentered, ?_⟩⟩
      rw [checkRefinements, proposeRefinements] at hok
      exact covered_detect h.done hroom (ok_of_commitProposed hok) t _ hkept _ hrefining
  · next upTo hphase =>
    simp only [hphase] at hcareful hthread
    rw [proposeRefinements]
    have hkept := kept_detect (E := E) (B := B.toBeliefArith) (C := C) ann
      (refining B.toBeliefArith C) s.store
    refine h.pass t _ _ hkept fun hok hdefer => ?_
    obtain ⟨hon, hahead⟩ := hthread hdefer
    exact ⟨hon, hahead.flows (flows_pass t _ _ hkept).1,
      covered_detect h.done (hcareful hdefer) (exists_ok hok) t _ hkept _⟩
  · exact h

/-- Its second pass. -/
lemma Inv.contradictions (hcareful : Careful E B C flags s (.contradictions t ann)) :
    Inv B.toBeliefArith C flags first (step E B C flags s (.contradictions t ann)) := by
  have hthread := h.knows t
  simp only [step]
  simp only [Careful] at hcareful
  split
  · next hphase =>
    simp only [hphase] at hcareful hthread
    obtain ⟨hunentered, hroom⟩ := hcareful
    have hkept := kept_checkContradictions (E := E) (B := B) (C := C) ann s.store
    refine h.pass t _ _ hkept fun hok => ⟨ahead_nextSeq hunentered, ?_⟩
    rw [checkContradictions, proposeContradictions] at hok
    -- If this detection is off, the one before has examined everything.
    rcases hthread.1 with hon | hon
    · obtain ⟨hflows, hseq⟩ := flows_pass t .detected
        (visited E B.toBeliefArith C ann (contradicting B.toBeliefArith C) s.store) hkept
      rw [hseq]
      exact ((hthread.2 hon).flows hflows).covered
    · exact covered_detect h.done hroom (ok_of_commitProposed hok) t _ hkept _ hon
  · next upTo hphase =>
    simp only [hphase] at hcareful hthread
    rw [proposeContradictions]
    have hkept := kept_detect (E := E) (B := B.toBeliefArith) (C := C) ann
      (contradicting B.toBeliefArith C) s.store
    refine h.pass t _ _ hkept fun hok hdefer => ?_
    obtain ⟨hdetects, hahead, hcovered⟩ := hthread hdefer
    have hflows := (flows_pass t (.proposed upTo)
      (visited E B.toBeliefArith C ann (contradicting B.toBeliefArith C) s.store) hkept).1
    refine ⟨hahead.flows hflows, ?_⟩
    rcases hdetects with hon | hon
    · exact (hcovered hon).flows hahead hflows
    · exact covered_detect h.done (hcareful hdefer) (exists_ok hok) t _ hkept _ hon
  · exact h

/-- A deferred detection begins. -/
lemma Inv.ask (hcareful : Careful E B C flags s (.ask t)) :
    Inv B.toBeliefArith C flags first (step E B C flags s (.ask t)) := by
  simp only [step]
  split
  · obtain ⟨hflows, hseq⟩ := flows_enter s.store.watermark t (.asked s.nextSeq)
    refine h.enter hflows hseq rfl (h.done.flows hflows) fun hdefer => ?_
    obtain ⟨hunentered, hon⟩ := hcareful hdefer
    exact ⟨hon, (ahead_nextSeq hunentered).flows hflows⟩
  · exact h

omit [DecidableEq T] in
/-- The watermark that a detection reads. -/
lemma Inv.done_start : Done C first s (s.store.start C) := by
  unfold start
  split
  · exact h.done
  · exact ⟨⟨Nat.zero_le _, fun _ _ => Nat.zero_le _⟩, fun _ _ _ _ _ hlt => absurd hlt (by simp)⟩

/-- It asks for proposals. -/
lemma Inv.query (hcareful : Careful E B C flags s (.query t q)) :
    Inv B.toBeliefArith C flags first (step E B C flags s (.query t q)) := by
  simp only [step]
  split
  · split
    · exact h
    · obtain ⟨hflows, hseq⟩ := flows_enter s.store.watermark t
        (.queried q (s.store.start C) s.nextSeq)
      exact h.enter hflows hseq rfl (h.done.flows hflows) fun hdefer =>
        ⟨h.done_start.flows hflows, (ahead_nextSeq (hcareful hdefer)).flows hflows⟩
  · exact h

/-- It asks for candidates. -/
lemma Inv.offer (hcareful : Careful E B C flags s (.offer t search)) :
    Inv B.toBeliefArith C flags first (step E B C flags s (.offer t search)) := by
  have hthread := h.knows t
  simp only [step]
  simp only [Careful] at hcareful
  split
  · next q watermark upTo hphase =>
    simp only [hphase] at hcareful hthread
    refine h.pass t _ _ (.refl s.store) fun hok hdefer => ?_
    obtain ⟨hdone, hahead⟩ := hthread hdefer
    obtain ⟨proposed, hok⟩ := exists_ok hok
    exact ⟨hahead.flows (flows_pass t _ _ (.refl s.store)).1,
      covered_offer hdone (hcareful hdefer) hok t _ _⟩
  · exact h

/-- The watermark moves. -/
lemma Inv.finish (t : T) : Inv B.toBeliefArith C flags first (step E B C flags s (.finish t)) := by
  have hthread := h.knows t
  -- The watermark goes to a number up to which all is done, or stays.
  have hmove : ∀ watermark, Done C first s watermark → Inv B.toBeliefArith C flags first
      ({ s with store := { s.store with watermark := watermark } }.enter t .idle) := by
    intro watermark hdone
    obtain ⟨hflows, hseq⟩ := flows_enter watermark t .idle
    exact h.enter hflows hseq rfl (hdone.flows hflows) trivial
  simp only [step]
  split
  · next hphase =>
    rw [hphase] at hthread
    exact hmove _ hthread
  · next upTo hphase =>
    rw [hphase] at hthread
    split
    · next hdefer => exact hmove _ (hthread hdefer)
    · exact hmove _ h.done
  · next upTo hphase =>
    rw [hphase] at hthread
    split
    · next hdefer => exact hmove _ (hthread hdefer)
    · exact hmove _ h.done
  · exact h

end Moves

/-- **A careful move keeps the invariant.** -/
lemma Inv.step (h : Inv B.toBeliefArith C flags first s) (hcareful : Careful E B C flags s m) :
    Inv B.toBeliefArith C flags first (step E B C flags s m) := by
  -- A move of the writer or a commit leaves the threads and the watermark where they are.
  have hothers : (Cursor.step E B C flags s m).phase = s.phase →
      (Cursor.step E B C flags s m).store.watermark = s.store.watermark →
      (∀ t, (s.phase t).automatic = true → (Cursor.step E B C flags s m).nextSeq = s.nextSeq) →
      Inv B.toBeliefArith C flags first (Cursor.step E B C flags s m) := by
    intro hphase hwatermark hseq
    refine ⟨hwatermark ▸ h.done.flows (flows_step m), fun t => ?_⟩
    rw [hphase]
    exact (h.knows t).flows (flows_step m) (hseq t)
  cases m with
  | request r =>
    refine hothers ?_ ?_ fun t ht => ?_
    · simp only [step]
      split
      · split <;> rfl
      · rfl
    · simp only [step]
      split
      · split <;> rfl
      · rfl
    · refine (flows_step_of_not_allocates ?_).2
      by_contra hallocates
      have := hcareful (by simpa [CursorMove.allocates] using hallocates) t
      rw [ht] at this
      cases this
  | write io =>
    refine hothers ?_ ?_ fun t _ => (flows_step_of_not_allocates rfl).2
    · simp only [step]
      split <;> rfl
    · simp only [step]
      split <;> rfl
  | commit pairs =>
    exact hothers rfl (kept_commitSupersessions s.store _).watermark
      fun t _ => (flows_step_of_not_allocates rfl).2
  | refinements t ann => exact h.refinements hcareful
  | contradictions t ann => exact h.contradictions hcareful
  | ask t => exact h.ask hcareful
  | query t q => exact h.query hcareful
  | offer t search => exact h.offer hcareful
  | finish t => exact h.finish t

omit [DecidableEq T] in
/-- Nothing behind the watermark was passed over. -/
lemma Inv.examined {B : BeliefArith} (h : Inv B C flags first s) : Examined C first s := by
  intro o r hr hrole hfirst hlt
  refine h.done.covered o r.provenance ?_ hrole hfirst hlt
  rw [provenance, Records.provenance, show s.store.engine.metadata.records[o]? = some r from hr]
  rfl

/-- **Every record is examined before the watermark moves past it**, in every run of careful moves
of any number of threads from an open store. **Proof sketch.** Each thread knows up to where
everything is examined, or that the end of its detection lies before all that is still to be entered
(`Knows`). Other threads only enter records with later numbers (`flows_step`). -/
theorem examined_throughout {config : StoreConfig} {d : Disk}
    {saved : Std.ExtTreeMap PointOffset F32} {s₀ : BeliefEngine}
    (hopen : BeliefEngine.open E config d saved = .ok s₀) (moves : List (CursorMove T))
    (hcareful : Traces.Along (Cursor.step E B C flags) (Careful E B C flags) moves
      { store := s₀ }) :
    Traces.Throughout (Cursor.step E B C flags) (Examined C s₀.watermark) moves
      { store := s₀ } := by
  refine Traces.throughout_of_along (I := Inv B.toBeliefArith C flags s₀.watermark)
    (fun s m h hm => h.step hm) (fun s h => h.examined) ?_ hcareful
  have hwatermark : s₀.watermark = s₀.engine.metadata.nextSeq := by
    have he := open_eq_ok hopen
    rw [BeliefEngine.open, he] at hopen
    rw [← Except.ok.inj hopen]
  exact ⟨⟨⟨hwatermark.le, by simp⟩, fun _ _ _ _ hfirst hlt => absurd hlt (Nat.not_lt.mpr hfirst)⟩,
    fun t => trivial⟩

/-! ## Two short runs -/

omit [DecidableEq T] in
/-- The same, by the list of the records. -/
lemma examined_iff : Examined C first s ↔ ∀ p ∈ s.store.engine.metadata.records.toList,
      roleAllowed p.2.sourceRole C.beliefSourceRoles = true → first ≤ p.2.insertSeq →
      p.2.insertSeq < s.store.watermark → (p.1, p.2.insertSeq) ∈ s.taken := by
  refine ⟨fun h p hp => h p.1 p.2 ?_, fun h o r hr => h (o, r) ?_⟩
  · exact Std.ExtTreeMap.mem_toList_iff_getElem?_eq_some.mp hp
  · exact Std.ExtTreeMap.mem_toList_iff_getElem?_eq_some.mpr hr

instance : DecidablePred (Examined C first : Cursor T → Prop) :=
  fun _ => decidable_of_iff _ examined_iff.symm

instance (ann : Ann) (D : Option Detection) (B : BeliefArith) (s : Cursor T) :
    Decidable (HasRoom E B C ann D s) :=
  match D with
  | none => .isTrue fun _ hd => by cases hd
  | some d => decidable_of_iff (Roomy E B C ann d s.store)
      ⟨fun h d' hd' => by cases hd'; exact h, fun h => h d rfl⟩

instance (B : BeliefArith) : Decidable (Detects B C) := inferInstanceAs (Decidable (_ ∨ _))

instance (q : CandidateQuery) (search : AnyBeliefSearch) (watermark : ℕ) (s : Cursor T) :
    Decidable (OffersRoom E B C q search watermark s) := inferInstanceAs (Decidable (_ < _))

instance [Fintype T] (s : Cursor T) (m : CursorMove T) : Decidable (Careful E B C flags s m) := by
  cases m <;> unfold Careful <;> dsimp only <;> try split
  all_goals infer_instance

/-- Arithmetic for runs without a query of candidates. -/
def sampleCandidate : CandidateArith := { sampleBelief with sub := fun x _ => x }

/-- Incremental detection with a limit on the pairs of a pass. -/
def sampleCursorConfig (maxPairs : ℕ) : BeliefConfig :=
  { sampleBeliefConfig with
    incrementalSupersessionDetection := true
    refinementMaxPairsPerCycle := maxPairs }

/-- The insert of a memory, with its four steps. -/
def sampleInsert (id : String) : List (CursorMove Unit) :=
  .request (.insert 5 { sampleInput id "text" none with concepts := ["topic"] }) ::
    replicate 4 (.write Io.ok)

/-- Detection in a consolidation; of like memories the second is the nearest one. -/
def sampleDetection : List (CursorMove Unit) :=
  [.refinements () fun _ _ _ _ => .ok ["b", "c", "a"],
    .contradictions () fun _ _ _ _ => .ok ["b", "c", "a"]]

/-- A run of a consolidation. -/
abbrev sampleCursor (maxPairs : ℕ) : Cursor Unit → CursorMove Unit → Cursor Unit :=
  step beliefEnv sampleCandidate (sampleCursorConfig maxPairs) sampleFlags

set_option maxRecDepth 10000

/-- Three inserts and a consolidation with room for three pairs: the watermark moves past all
three. -/
theorem examined_throughout_three : ∃ s₀, BeliefEngine.open beliefEnv sampleConfig {} ∅ = .ok s₀ ∧
    let moves := sampleInsert "a" ++ sampleInsert "b" ++ sampleInsert "c" ++ sampleDetection ++
      [.finish ()]
    (moves.foldl (sampleCursor 3) { store := s₀ }).store.watermark = 4 ∧
    Traces.Throughout (sampleCursor 3) (Examined (sampleCursorConfig 3) s₀.watermark) moves
      { store := s₀ } := by
  obtain ⟨s₀, hopen, hwatermark, hcareful⟩ := exists_opened_belief (P := fun s₀ =>
    let moves := sampleInsert "a" ++ sampleInsert "b" ++ sampleInsert "c" ++ sampleDetection ++
      [.finish ()]
    (moves.foldl (sampleCursor 3) { store := s₀ }).store.watermark = 4 ∧
      Traces.Along (sampleCursor 3) (Careful beliefEnv sampleCandidate (sampleCursorConfig 3)
        sampleFlags) moves { store := s₀ }) (by decide +kernel)
  exact ⟨s₀, hopen, hwatermark, examined_throughout hopen _ hcareful⟩

/-- With room for one pair a consolidation does not come to the second memory; with room for all, it
passes over a memory inserted between its detection and the move of the watermark. -/
theorem passed_over : ∃ s₀, BeliefEngine.open beliefEnv sampleConfig {} ∅ = .ok s₀ ∧
    ¬ Traces.Throughout (sampleCursor 1) (Examined (sampleCursorConfig 1) s₀.watermark)
      (sampleInsert "a" ++ sampleInsert "b" ++ sampleInsert "c" ++ sampleDetection ++ [.finish ()])
      { store := s₀ } ∧
    ¬ Traces.Throughout (sampleCursor 10) (Examined (sampleCursorConfig 10) s₀.watermark)
      (sampleInsert "a" ++ sampleDetection ++ sampleInsert "b" ++ [.finish ()])
      { store := s₀ } :=
  exists_opened_belief (by decide +kernel)

end Cursor

end TurboMemory
