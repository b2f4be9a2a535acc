import Mathlib
import TurboMemory.Lib.Traces

/-!
# The build budget

Threads that seal and merge build segments, and take slots from a shared counter. A merge keeps
its slot until it is done; a seal drops the guard of its slot before it builds. The end of a build
and the release of its slot are one step. A seal that gets no slot writes a plain segment, which is
not a build.

## Main results

* `BuildBudget.builds_bounded` — not more builds run at the same time than the budget allows, if a
  slot is only granted while the slots and the builds of seals leave room.
-/

set_option autoImplicit false

namespace TurboMemory

open Finset

/-- What needs a build. -/
inductive BuildJob
  | seal
  | merge
deriving DecidableEq

/-- What a thread is doing. -/
inductive BuildPhase
  | idle
  /-- It has loaded the counter. -/
  | loaded (job : BuildJob) (current : ℕ)
  /-- It has a slot. -/
  | granted (job : BuildJob)
  | building (job : BuildJob)
deriving DecidableEq

namespace BuildPhase

/-- The slots that a thread holds. -/
@[simp]
def slots : BuildPhase → ℕ
  | granted _ | building .merge => 1
  | _ => 0

/-- The builds without a slot. -/
@[simp]
def uncounted : BuildPhase → ℕ
  | building .seal => 1
  | _ => 0

/-- A build is running. -/
def builds : BuildPhase → ℕ
  | building _ => 1
  | _ => 0

/-- A build has a slot or is a seal's. -/
lemma builds_le (p : BuildPhase) : p.builds ≤ p.slots + p.uncounted := by
  rcases p with _ | _ | _ | (_ | _) <;> simp [builds]

end BuildPhase

/-- The setting. -/
structure OptimizerBudget where
  maxConcurrentBuilds : ℕ
  maxBuildMemoryBytes : Option ℕ := none

/-- At least one build. -/
def OptimizerBudget.maxConcurrent (B : OptimizerBudget) : ℕ := max B.maxConcurrentBuilds 1

/-- An operation on `usize` saturates. -/
def saturate (n : ℕ) : ℕ := min n (2 ^ 64 - 1)

/-- The estimated footprint of a build. -/
def buildBytes (n dim maxEdges : ℕ) : ℕ :=
  let vectorBytes := saturate (saturate (n * dim) * 4)
  let graphBytes := saturate (saturate (n * maxEdges) * 8)
  saturate (saturate (vectorBytes + graphBytes) * 13) / 10

/-- The counter, and the phase of each thread. -/
structure BuildBudget (T : Type) where
  inflight : ℕ := 0
  phase : T → BuildPhase := fun _ => .idle

/-- What a thread does next. -/
inductive BuildMove
  | tryAcquire (job : BuildJob) (n dim maxEdges : ℕ)
  | compareExchange
  | build
  /-- The build is over, or there were no vectors to build from. -/
  | finish

namespace BuildBudget

open BuildPhase

variable {T : Type} [DecidableEq T] (B : OptimizerBudget)

/-- A thread goes on. -/
def enter (s : BuildBudget T) (t : T) (phase : BuildPhase) : BuildBudget T :=
  { s with phase := Function.update s.phase t phase }

/-- One step of a thread. A step that it is not at changes nothing. -/
def step (s : BuildBudget T) (m : T × BuildMove) : BuildBudget T :=
  match s.phase m.1, m.2 with
  | .idle, .tryAcquire job n dim maxEdges =>
    if s.inflight < B.maxConcurrent ∧
        ∀ bytes ∈ B.maxBuildMemoryBytes, buildBytes n dim maxEdges ≤ bytes then
      s.enter m.1 (.loaded job s.inflight)
    else s
  | .loaded job current, .compareExchange =>
    if s.inflight = current then { s with inflight := current + 1 }.enter m.1 (.granted job)
    else s.enter m.1 .idle
  -- The guard is a temporary of the statement that decides whether to build.
  | .granted .seal, .build => { s with inflight := s.inflight - 1 }.enter m.1 (.building .seal)
  | .granted .seal, .finish => { s with inflight := s.inflight - 1 }.enter m.1 .idle
  | .granted .merge, .build => s.enter m.1 (.building .merge)
  | .building .seal, .finish => s.enter m.1 .idle
  | .building .merge, .finish => { s with inflight := s.inflight - 1 }.enter m.1 .idle
  | _, _ => s

variable [Fintype T]

/-- The sum of a number over the threads. -/
def total (s : BuildBudget T) (f : BuildPhase → ℕ) : ℕ := ∑ t, f (s.phase t)

/-- Not more builds are running than the budget allows. -/
abbrev Bounded (s : BuildBudget T) : Prop := s.total builds ≤ B.maxConcurrent

/-- The condition on a step: if it grants a slot, the slots and the builds without one leave
room. -/
abbrev Counted (s : BuildBudget T) (m : T × BuildMove) : Prop :=
  s.inflight < (s.step B m).inflight → s.inflight + s.total uncounted < B.maxConcurrent

/-! ## The invariant -/

/-- The counter counts the slots. -/
structure Inv (s : BuildBudget T) : Prop where
  held : s.inflight = s.total slots
  room : s.inflight + s.total uncounted ≤ B.maxConcurrent

variable {B} {s s' : BuildBudget T} {t : T} {p : BuildPhase}

/-- A thread goes from one phase to another. -/
lemma total_enter (f : BuildPhase → ℕ) :
    (s.enter t p).total f + f (s.phase t) = s.total f + f p := by
  simp only [total, enter, ← add_sum_erase _ _ (mem_univ t), Function.update_self]
  rw [sum_congr rfl fun u hu => by rw [Function.update_of_ne (ne_of_mem_erase hu)]]
  omega

/-- A step of one thread. -/
lemma Inv.enter (h : s.Inv B) {old : BuildPhase} (hold : s.phase t = old)
    (hphase : s'.phase = s.phase) (hslots : s'.inflight + old.slots = s.inflight + p.slots)
    (hroom : s'.inflight + s.total uncounted + p.uncounted ≤ B.maxConcurrent + old.uncounted) :
    (s'.enter t p).Inv B := by
  have htotal (f : BuildPhase → ℕ) : (s'.enter t p).total f + f old = s.total f + f p := by
    simpa only [total, hphase, hold] using total_enter (s := s') (t := t) (p := p) f
  have hone := htotal slots
  have htwo := htotal uncounted
  have hheld := h.held
  constructor <;> simp only [BuildBudget.enter] at * <;> omega

/-- A step that meets the condition keeps the invariant. -/
lemma Inv.step (h : s.Inv B) {m : T × BuildMove} (hm : s.Counted B m) : (s.step B m).Inv B := by
  have hroom := h.room
  have hheld : (s.phase m.1).slots ≤ s.inflight :=
    h.held ▸ single_le_sum (f := fun t => (s.phase t).slots) (by simp) (mem_univ m.1)
  unfold BuildBudget.step
  split
  · next hphase _ =>
    split
    · exact h.enter hphase rfl rfl hroom
    · exact h
  · next job current hphase hmove =>
    split
    · next heq =>
      have hgrant := hm (by simp [BuildBudget.step, hphase, hmove, heq, BuildBudget.enter])
      exact h.enter hphase rfl (by simp [heq]) (by simp; omega)
    · exact h.enter hphase rfl rfl hroom
  · next hphase _ =>
    rw [hphase] at hheld
    exact h.enter hphase rfl (Nat.sub_add_cancel hheld) (by simp at *; omega)
  · next hphase _ =>
    rw [hphase] at hheld
    exact h.enter hphase rfl (Nat.sub_add_cancel hheld) (by simp; omega)
  · next hphase _ => exact h.enter hphase rfl rfl hroom
  · next hphase _ => exact h.enter hphase rfl rfl (by simp; omega)
  · next hphase _ =>
    rw [hphase] at hheld
    exact h.enter hphase rfl (Nat.sub_add_cancel hheld) (by simp; omega)
  · exact h

omit [DecidableEq T] in
/-- The invariant bounds the builds. -/
lemma Inv.bounded (h : s.Inv B) : s.Bounded B := by
  have hle : s.total builds ≤ s.total slots + s.total uncounted := by
    rw [total, total, total, ← sum_add_distrib]
    exact sum_le_sum fun t _ => (s.phase t).builds_le
  have hheld := h.held
  have hroom := h.room
  omega

/-- **The build budget is kept** in every run of any number of threads in which slots are only
granted while slots and builds without one leave room. **Proof sketch.** A build has a slot or
belongs to a seal, and both together only grow when a slot is granted (`Inv`). -/
theorem builds_bounded {moves : List (T × BuildMove)}
    (hmoves : Traces.Along (step B) (Counted B) moves {}) :
    Traces.Throughout (step B) (Bounded B) moves {} :=
  Traces.throughout_of_along (I := Inv B) (fun _ _ h hm => h.step hm) (fun _ h => h.bounded)
    ⟨by simp [total], by simp [total]⟩ hmoves

/-- A job up to its build. -/
def sampleBuild (t : Bool) (job : BuildJob) : List (Bool × BuildMove) :=
  [(t, .tryAcquire job 100 8 8), (t, .compareExchange), (t, .build)]

/-- A seal and then a merge, with room for one build. -/
theorem builds_bounded_in_turn : Traces.Throughout (step ⟨1, none⟩) (Bounded ⟨1, none⟩)
    (sampleBuild true .seal ++ [(true, .finish)] ++ sampleBuild false .merge) {} :=
  builds_bounded (by decide +kernel)

/-- **Two builds at once**, where one is allowed: a seal does not keep its slot. -/
theorem two_builds_at_once : ¬ Traces.Throughout (step ⟨1, none⟩) (Bounded ⟨1, none⟩)
    (sampleBuild true .seal ++ sampleBuild false .merge) {} := by
  decide +kernel

end BuildBudget

end TurboMemory
