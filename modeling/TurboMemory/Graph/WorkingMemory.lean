import Mathlib
import TurboMemory.Lib.Traces

/-!
# Working memory

A session has a state of bounded size that is carried from turn to turn. Each turn a compressor
makes the next state from the last one and the texts of the turn: a deterministic one, or a language
model with the deterministic one to fall back on. The texts of states are a type of their own, since
their parser is not part of the repository.

## Main results

* `LlmCompressor.bounded_throughout_iff` — the state stays bounded just if every state that the
  model returns is bounded.
* `Session.linearizable` — calls that do not overlap between their read and their write apply the
  compressor to one turn after the other.
-/

set_option autoImplicit false

namespace TurboMemory

open List

/-- The most facts of a state. -/
def maxFacts : ℕ := 8

/-- The most topics of a state. -/
def maxTopics : ℕ := 6

/-- The state that is carried from turn to turn. -/
structure CompressedCognitiveState where
  turnCount : ℕ := 0
  lastUserInput : String := ""
  lastAssistantResponse : String := ""
  facts : List String := []
  topics : List String := []
deriving DecidableEq

/-- A state within the limits. -/
def CompressedCognitiveState.Bounded (ccs : CompressedCognitiveState) : Prop :=
  ccs.facts.length ≤ maxFacts ∧ ccs.topics.length ≤ maxTopics

instance : DecidablePred CompressedCognitiveState.Bounded :=
  fun _ => inferInstanceAs (Decidable (_ ∧ _))

/-- Text functions, and the texts of states. -/
structure CcsOps (J : Type) where
  lower : String → String
  isAlphanumeric : Char → Bool
  toJson : CompressedCognitiveState → J
  fromJson : J → Option CompressedCognitiveState

/-- The texts of a turn. -/
structure Turn where
  userInput : String
  assistantResponse : String
deriving DecidableEq

/-- The first characters of a text. -/
def truncate (s : String) (maxLen : ℕ) : String :=
  if s.length ≤ maxLen then s else String.ofList (s.toList.take maxLen) ++ "..."

variable {J : Type} (O : CcsOps J)

/-- The topics in a text. -/
def topicsOf (userInput : String) : List String :=
  (((O.lower userInput).toList.splitOnP fun c => !O.isAlphanumeric c).map String.ofList).filter
    fun s => 2 < s.utf8ByteSize

/-- Enter the topics and a fact about the turn, and drop the oldest ones. -/
def DeterministicCompressor.compress (ccs : CompressedCognitiveState) (turn : Turn) :
    CompressedCognitiveState :=
  let turnCount := ccs.turnCount + 1
  let topics := (topicsOf O turn.userInput).foldl
    (fun topics t => if t ∈ topics then topics else topics ++ [t]) ccs.topics
  let fact := "Turn " ++ toString turnCount ++ ": user asked about '" ++
    truncate turn.userInput 40 ++ "'; assistant responded about '" ++
    truncate turn.assistantResponse 40 ++ "'."
  let facts := ccs.facts ++ [fact]
  { turnCount := turnCount
    lastUserInput := turn.userInput
    lastAssistantResponse := turn.assistantResponse
    facts := if maxFacts < facts.length then facts.eraseIdx 0 else facts
    topics := if maxTopics < topics.length then topics.drop (topics.length - maxTopics)
      else topics }

/-- Ask the model for the next state, and fall back if what it returns is none. -/
def LlmCompressor.compress (caller : J → Turn → J) (ccs : CompressedCognitiveState) (turn : Turn) :
    CompressedCognitiveState :=
  match O.fromJson (caller (O.toJson ccs) turn) with
  | some parsed => parsed
  | none => DeterministicCompressor.compress O ccs turn

/-- One turn, with the model that answers in it. -/
def LlmCompressor.next (ccs : CompressedCognitiveState) (t : (J → Turn → J) × Turn) :
    CompressedCognitiveState :=
  LlmCompressor.compress O t.1 ccs t.2

/-- One turn with a compressor; a text that cannot be read is taken as the empty state. -/
def stepSessionWithCompressor
    (compress : CompressedCognitiveState → Turn → CompressedCognitiveState) (ccsJson : Option J)
    (turn : Turn) : J :=
  O.toJson (compress ((ccsJson.bind O.fromJson).getD {}) turn)

/-! ## The size of the state -/

variable {O}

/-- The fall-back drops one fact at most, so it keeps within the limits a state that is. -/
lemma DeterministicCompressor.bounded_compress {ccs : CompressedCognitiveState} (h : ccs.Bounded)
    (turn : Turn) : (compress O ccs turn).Bounded := by
  have hfacts := h.1
  constructor
  · simp only [compress]
    split <;> simp only [length_eraseIdx, length_append, length_singleton] at * <;>
      grind
  · simp only [compress]
    split
    · rw [length_drop]
      omega
    · omega

/-- Turns are counted. -/
lemma DeterministicCompressor.turnCount_foldl (turns : List Turn) (ccs : CompressedCognitiveState) :
    (turns.foldl (compress O) ccs).turnCount = ccs.turnCount + turns.length := by
  induction turns generalizing ccs with
  | nil => rfl
  | cons turn turns ih =>
    rw [foldl_cons, ih, length_cons, Nat.add_comm turns.length, ← Nat.add_assoc]
    rfl

/-- **The working memory is bounded** just if the model returns bounded states only. **Proof
sketch.** A state that is returned is taken as it is; the fall-back keeps the bounds of the state
before. -/
theorem LlmCompressor.bounded_throughout_iff (turns : List ((J → Turn → J) × Turn)) :
    Traces.Throughout (LlmCompressor.next O) CompressedCognitiveState.Bounded turns {} ↔
      Traces.Along (LlmCompressor.next O) (fun ccs t => ∀ parsed,
        O.fromJson (t.1 (O.toJson ccs) t.2) = some parsed → parsed.Bounded) turns {} := by
  have hempty : CompressedCognitiveState.Bounded {} := by decide
  refine Traces.throughout_iff_along (I := fun _ => True) (A := fun _ _ => True)
    (fun _ _ _ _ => trivial) ?_ turns _ trivial hempty (Traces.along_of_forall (by simp) _ _)
  intro ccs t _ _ hccs
  unfold LlmCompressor.next LlmCompressor.compress
  cases hparsed : O.fromJson (t.1 (O.toJson ccs) t.2) with
  | none =>
    refine iff_of_true (DeterministicCompressor.bounded_compress hccs t.2) ?_
    rintro parsed ⟨⟩
  | some parsed => simp

/-- Text functions for runs; a text is a state or cannot be read. -/
def sampleCcsOps : CcsOps (Option CompressedCognitiveState) :=
  ⟨id, Char.isAlphanum, some, id⟩

/-- A model that returns nine facts, in the first turn. -/
theorem LlmCompressor.nine_facts_kept :
    ¬ (LlmCompressor.next sampleCcsOps {}
      (fun _ _ => some { facts := replicate 9 "" }, ⟨"", ""⟩)).Bounded := by
  decide

/-! ## Concurrent turns -/

/-- The working memory of a store, and the calls that have read it and not written yet. -/
structure Session (J : Type) where
  ccs : Option CompressedCognitiveState := none
  /-- The text in the metadata. -/
  saved : Option J := none
  pending : List (Turn × Option J) := []
  /-- Turns in the order in which calls began. -/
  begun : List Turn := []
  /-- Turns in the order in which calls wrote. -/
  applied : List Turn := []

/-- The sections of `step_session`. -/
inductive SessionStep
  /-- A new call reads the state. -/
  | read (turn : Turn)
  /-- The call that is `i`-th among the pending ones compresses and writes. -/
  | write (i : ℕ)
  /-- A call saves the state; that may fail. -/
  | save (ok : Bool)

namespace Session

variable (O) (compress : CompressedCognitiveState → Turn → CompressedCognitiveState)

/-- One section. -/
def step (s : Session J) : SessionStep → Session J
  | .read turn =>
    { s with
      pending := s.pending ++ [(turn, s.ccs.map O.toJson)]
      begun := s.begun ++ [turn] }
  | .write i =>
    match s.pending[i]? with
    | none => s
    | some (turn, ccsJson) =>
      { s with
        ccs := O.fromJson (stepSessionWithCompressor O compress ccsJson turn)
        pending := s.pending.eraseIdx i
        applied := s.applied ++ [turn] }
  | .save ok =>
    match s.ccs with
    | some ccs => if ok then { s with saved := some (O.toJson ccs) } else s
    | none => s

/-- No other call has written since the call that writes has read. -/
def Undisturbed (s : Session J) : SessionStep → Prop
  | .write i => ∀ p, s.pending[i]? = some p → p.2 = s.ccs.map O.toJson
  | _ => True

/-- The state is that of the turns written so far, and no turn that began is lost. -/
structure Sequential (init : CompressedCognitiveState) (s : Session J) : Prop where
  state : s.ccs.getD {} = s.applied.foldl compress init
  turns : s.begun.Perm (s.applied ++ s.pending.map Prod.fst)

variable {O compress}

/-- A section that nothing disturbs. -/
lemma Sequential.step (hjson : ∀ ccs, O.fromJson (O.toJson ccs) = some ccs) {s : Session J}
    {init : CompressedCognitiveState} (h : s.Sequential compress init) {i : SessionStep}
    (hi : s.Undisturbed O i) : (s.step O compress i).Sequential compress init := by
  cases i with
  | read turn =>
    refine ⟨h.state, ?_⟩
    simp only [Session.step, map_append, map_cons, map_nil, ← append_assoc]
    exact h.turns.append_right [turn]
  | write i =>
    simp only [Session.step]
    split
    · exact h
    · next turn ccsJson hp =>
      have hread : (ccsJson.bind O.fromJson).getD {} = s.ccs.getD {} := by
        obtain rfl : ccsJson = s.ccs.map O.toJson := hi _ hp
        cases s.ccs <;> simp [hjson]
      refine ⟨?_, h.turns.trans ?_⟩
      · simp [stepSessionWithCompressor, hjson, hread, h.state]
      · obtain ⟨hlt, hget⟩ := List.getElem?_eq_some_iff.mp hp
        rw [append_assoc, singleton_append]
        refine Perm.append_left _ ?_
        have hperm := (getElem_cons_eraseIdx_perm hlt).map Prod.fst
        rw [hget] at hperm
        exact hperm.symm
  | save ok =>
    simp only [Session.step]
    split
    · split
      · exact ⟨h.state, h.turns⟩
      · exact h
    · exact h

/-- **Turns are taken one after the other** if no call writes between the read and the write of
another: the state is that of the turns in the order of the writes, in the end of all turns. **Proof
sketch.** Such a call reads what it replaces, so its write is one more turn. -/
theorem linearizable (hjson : ∀ ccs, O.fromJson (O.toJson ccs) = some ccs)
    (init : Option CompressedCognitiveState) (saved : Option J) (run : List SessionStep)
    (hrun : Traces.Along (step O compress) (Undisturbed O) run { ccs := init, saved := saved }) :
    Traces.Throughout (step O compress) (fun s => s.pending = [] →
      ∃ order : List Turn, order.Perm s.begun ∧
        s.ccs.getD {} = order.foldl compress (init.getD {})) run
      { ccs := init, saved := saved } := by
  refine Traces.throughout_of_along (I := Sequential compress (init.getD {}))
    (fun s i hs hi => hs.step hjson hi) (fun s hs hnone => ⟨s.applied, ?_, hs.state⟩)
    ⟨rfl, .refl _⟩ hrun
  simpa [hnone] using hs.turns.symm

/-- Two turns, one after the other. -/
def sampleTurns : List SessionStep :=
  [.read ⟨"a", "b"⟩, .write 0, .save true, .read ⟨"c", "d"⟩, .write 0, .save true]

/-- Two turns, one after the other. -/
theorem linearizable_two_turns :
    Traces.Throughout (step sampleCcsOps (DeterministicCompressor.compress sampleCcsOps))
      (fun s => s.pending = [] → ∃ order : List Turn, order.Perm s.begun ∧
        s.ccs.getD {} = order.foldl (DeterministicCompressor.compress sampleCcsOps) {})
      sampleTurns {} :=
  linearizable (fun _ => rfl) none none sampleTurns
    ⟨trivial, by rintro p ⟨⟩; rfl, trivial, trivial, by rintro p ⟨⟩; rfl, trivial, trivial⟩

/-- Two calls that read the empty state before either writes. -/
def sampleOverlap : Session (Option CompressedCognitiveState) :=
  ([.read ⟨"a", "b"⟩, .read ⟨"c", "d"⟩, .write 0, .write 0, .save true, .save true] :
    List SessionStep).foldl (step sampleCcsOps (DeterministicCompressor.compress sampleCcsOps)) {}

/-- **A lost turn.** No order of the two turns gives the state at the end. -/
theorem turn_lost : sampleOverlap.pending = [] ∧ sampleOverlap.begun.length = 2 ∧
    ∀ order : List Turn, order.Perm sampleOverlap.begun → sampleOverlap.ccs.getD {} ≠
      order.foldl (DeterministicCompressor.compress sampleCcsOps) {} := by
  refine ⟨rfl, rfl, fun order horder heq => ?_⟩
  have hcount := congrArg CompressedCognitiveState.turnCount heq
  rw [DeterministicCompressor.turnCount_foldl, horder.length_eq] at hcount
  exact absurd hcount (by decide +kernel)

end Session

end TurboMemory
