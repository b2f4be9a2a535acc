import TurboMemory.Lib.Traces
import TurboMemory.Storage.Record

/-!
# The full-text index under concurrency

Writes are buffered, and a counter of pending ones tells a query whether it has to commit them
before it searches. A commit resets the counter after it has released the writer; it publishes
every write before it, and a reload shows the last commit, or they fail. `TextIndex.step` is a
section under the writer lock, a reload, or an access of the counter.

## Main results

* `TextIndex.reflects_throughout` — queries reflect finished writes, if nothing is written between
  a commit and the reset that belongs to it.
-/

set_option autoImplicit false

namespace TurboMemory

open List

/-- A buffered write. -/
inductive TextWrite
  | add (offset : PointOffset) (text : String)
  | remove (offset : PointOffset)
deriving DecidableEq

/-- What a thread is doing, and the writes that had returned when its call began. -/
inductive TextPhase
  | idle
  /-- There are pending writes, and it is to commit them. -/
  | committing (before : List TextWrite)
  /-- It has committed and released the writer, and is to reload the reader. -/
  | reloading (before : List TextWrite)
  /-- It is to reset the counter. -/
  | resetting (before : List TextWrite)
  /-- Its call has returned, and it searches. -/
  | searching (before : List TextWrite)

/-- The index: all writes, those up to the last one that returned, those of the last commit, those
the reader shows, and the counter. -/
structure TextIndex (T : Type) where
  written : List TextWrite := []
  returned : List TextWrite := []
  committed : List TextWrite := []
  visible : List TextWrite := []
  pending : ℕ := 0
  phase : T → TextPhase := fun _ => .idle

/-- A step of a thread in a commit and the search after it. -/
inductive TextStep
  | commit
  | commitIfPending
  | commitWriter
  | reload
  | reset
  /-- An error of the commit or of the reload, or the end of the search. -/
  | leave

/-- What a thread does next. -/
inductive TextMove (T : Type)
  | addBatch (docs : List (PointOffset × String))
  /-- An error after some documents of a batch. -/
  | addFails (docs : List (PointOffset × String))
  | remove (offset : PointOffset)
  | call (t : T) (c : TextStep)

namespace TextIndex

variable {T : Type} [DecidableEq T]

variable (s : TextIndex T)

/-- A thread goes on. -/
def enter (t : T) (phase : TextPhase) : TextIndex T :=
  { s with phase := Function.update s.phase t phase }

/-- A section that writes, and counts what it has written. -/
def write (ws : List TextWrite) : TextIndex T :=
  { s with
    written := s.written ++ ws
    returned := s.written ++ ws
    pending := s.pending + ws.length }

/-- One step. A step that a thread is not at changes nothing. -/
def step : TextMove T → TextIndex T
  | .addBatch docs => if docs = [] then s else s.write (docs.map fun d => .add d.1 d.2)
  | .addFails docs => { s with written := s.written ++ docs.map fun d => .add d.1 d.2 }
  | .remove offset => s.write [.remove offset]
  | .call t c =>
    match s.phase t, c with
    | .idle, .commit => s.enter t (.committing s.returned)
    | .idle, .commitIfPending =>
      s.enter t (if 0 < s.pending then .committing s.returned else .searching s.returned)
    | .committing before, .commitWriter =>
      { s with committed := s.written }.enter t (.reloading before)
    | .reloading before, .reload => { s with visible := s.committed }.enter t (.resetting before)
    | .resetting before, .reset => { s with pending := 0 }.enter t (.searching before)
    | .resetting _, .leave => s
    | _, .leave => s.enter t .idle
    | _, _ => s

/-- A search reads everything that was written when its call began. -/
def Reflects : Prop :=
  ∀ t before, s.phase t = .searching before → before <+: s.visible

/-- No commit is between its section and its reset. -/
def Settled : Prop :=
  ∀ t before, s.phase t ≠ .reloading before ∧ s.phase t ≠ .resetting before

/-- The condition on a step: nothing is written then. -/
def Undisturbed : TextMove T → Prop
  | .addBatch _ | .remove _ => s.Settled
  | _ => True

/-! ## The invariant -/

/-- What is known of a thread in a phase. -/
def Knows : TextPhase → Prop
  | .idle => True
  | .committing before => before <+: s.returned
  | .reloading before => before <+: s.returned ∧ s.returned <+: s.committed
  | .resetting before => before <+: s.returned ∧ s.returned <+: s.visible
  | .searching before => before <+: s.visible

/-- The invariant of runs without interference. -/
structure Inv (s : TextIndex T) : Prop where
  visible : s.visible <+: s.committed
  committed : s.committed <+: s.written
  returned : s.returned <+: s.written
  /-- A query that finds the counter at zero has nothing to wait for. -/
  pending : s.pending = 0 → s.returned <+: s.visible
  knows : ∀ t, s.Knows (s.phase t)

variable {s s' : TextIndex T} {phase : TextPhase}

omit [DecidableEq T] in
/-- What is known stays known while nothing returns and the rest grows. -/
lemma Knows.mono (h : s.Knows phase) (hreturned : s'.returned = s.returned)
    (hcommitted : s.committed <+: s'.committed) (hvisible : s.visible <+: s'.visible) :
    s'.Knows phase := by
  cases phase <;> simp only [Knows, hreturned] at h ⊢
  case committing => exact h
  case reloading => exact ⟨h.1, h.2.trans hcommitted⟩
  case resetting => exact ⟨h.1, h.2.trans hvisible⟩
  case searching => exact h.trans hvisible

/-- A step of one thread. -/
lemma Inv.enter (h : s.Inv) {t : T} (hphase : s'.phase = s.phase)
    (hreturned : s'.returned = s.returned) (hwritten : s'.written = s.written)
    (hcommitted : s.committed <+: s'.committed) (hvisible : s.visible <+: s'.visible)
    (hchain : s'.visible <+: s'.committed ∧ s'.committed <+: s'.written)
    (hpending : s'.pending = 0 → s'.returned <+: s'.visible) (hknows : s'.Knows phase) :
    (s'.enter t phase).Inv := by
  refine ⟨hchain.1, hchain.2, hreturned ▸ hwritten ▸ h.returned, hpending, ?_⟩
  refine (Function.forall_update_iff _ fun _ p => s'.Knows p).mpr ⟨hknows, fun t' _ => ?_⟩
  exact hphase ▸ (h.knows t').mono hreturned hcommitted hvisible

/-- A step that only changes what its thread is doing. -/
lemma Inv.enter_self (h : s.Inv) {t : T} (hknows : s.Knows phase) : (s.enter t phase).Inv :=
  h.enter rfl rfl rfl prefix_rfl prefix_rfl ⟨h.visible, h.committed⟩ h.pending hknows

omit [DecidableEq T] in
/-- A write when no reset is due. -/
lemma Inv.write (h : s.Inv) (hsettled : s.Settled) {ws : List TextWrite} (hne : ws ≠ []) :
    (s.write ws).Inv := by
  have hgrows : s.written <+: s.written ++ ws := prefix_append _ _
  refine ⟨h.visible, h.committed.trans hgrows, prefix_rfl, ?_, fun t => ?_⟩
  · intro hzero
    have := length_pos_iff.mpr hne
    simp only [TextIndex.write] at hzero
    omega
  · have ht := h.knows t
    change Knows _ (s.phase t)
    cases hphase : s.phase t <;> rw [hphase] at ht
    case idle => trivial
    case committing before => exact (IsPrefix.trans ht h.returned).trans hgrows
    case reloading before => exact absurd hphase (hsettled t before).1
    case resetting before => exact absurd hphase (hsettled t before).2
    case searching before => exact ht

/-- A step under the condition keeps the invariant. -/
lemma Inv.step (h : s.Inv) {m : TextMove T} (hm : s.Undisturbed m) : (s.step m).Inv := by
  cases m with
  | addBatch docs =>
    simp only [TextIndex.step]
    split
    · exact h
    · next hne => exact h.write hm (by simpa using hne)
  | addFails docs =>
    exact ⟨h.visible, h.committed.trans (prefix_append _ _),
      h.returned.trans (prefix_append _ _), h.pending, fun t =>
        (h.knows t).mono rfl prefix_rfl prefix_rfl⟩
  | remove offset => exact h.write hm (by simp)
  | call t c =>
    have ht := h.knows t
    simp only [TextIndex.step]
    split
    · exact h.enter_self prefix_rfl
    · split
      · exact h.enter_self prefix_rfl
      · next hzero => exact h.enter_self (h.pending (Nat.eq_zero_of_not_pos hzero))
    · next hphase =>
      rw [hphase] at ht
      exact h.enter rfl rfl rfl h.committed prefix_rfl
        ⟨h.visible.trans h.committed, prefix_rfl⟩ h.pending ⟨ht, h.returned⟩
    · next hphase =>
      rw [hphase] at ht
      exact h.enter rfl rfl rfl prefix_rfl h.visible ⟨prefix_rfl, h.committed⟩
        (fun hzero => (h.pending hzero).trans h.visible) ht
    · next hphase =>
      rw [hphase] at ht
      exact h.enter rfl rfl rfl prefix_rfl prefix_rfl ⟨h.visible, h.committed⟩
        (fun _ => ht.2) (ht.1.trans ht.2)
    · exact h
    · exact h.enter_self trivial
    · exact h

omit [DecidableEq T] in
/-- A query reads what was written before it. -/
lemma Inv.reflects (h : s.Inv) : s.Reflects := by
  intro t before hphase
  have ht := h.knows t
  rwa [hphase] at ht

/-- **Queries reflect finished writes**, in every run of any number of threads from an empty index
in which nothing is written between the writer section of a commit and the reset of the counter.
**Proof sketch.** While the counter is zero, and from a commit's section to its reset, the reader or
the last commit has every returned write (`Inv`). -/
theorem reflects_throughout {moves : List (TextMove T)}
    (hmoves : Traces.Along step Undisturbed moves {}) : Traces.Throughout step Reflects moves {} :=
  Traces.throughout_of_along (I := Inv) (fun _ _ h hm => h.step hm) (fun _ h => h.reflects)
    ⟨prefix_rfl, prefix_rfl, prefix_rfl, fun _ => prefix_rfl, fun _ => trivial⟩
    hmoves

/-- A write, a query and another query. -/
def sampleQueries : List (TextMove Bool) :=
  [.addBatch [(0, "a")], .call true .commitIfPending, .call true .commitWriter,
    .call true .reload, .call true .reset, .call true .leave, .call false .commitIfPending]

/-- Writes and queries without interference. -/
theorem reflects_throughout_sample : Traces.Throughout step Reflects sampleQueries {} := by
  refine reflects_throughout ⟨fun t before => ?_, trivial, trivial, trivial, trivial, trivial,
    trivial, trivial⟩
  exact ⟨nofun, nofun⟩

/-- **A finished write that a query does not see**: it was counted before the reset of a commit that
did not have it. -/
theorem write_not_reflected :
    let s : TextIndex Bool := [.addBatch [(0, "a")], .call true .commitIfPending,
      .call true .commitWriter, .addBatch [(1, "b")], .call true .reload, .call true .reset,
      .call false .commitIfPending].foldl step {}
    s.phase false = .searching [.add 0 "a", .add 1 "b"] ∧ s.visible = [.add 0 "a"] :=
  ⟨rfl, rfl⟩

end TextIndex

end TurboMemory
