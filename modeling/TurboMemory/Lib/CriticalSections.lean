import Mathlib.Tactic.Common

/-!
# Critical sections over a crashable store

Threads run requests against a shared store. A request waits for its locks, looks at the store
and decides on a plan of actions, which it then executes one by one. Requests that take the
barrier shared also take a mutex; requests that take the barrier exclusively run alone. At any
moment the process can be killed, between two actions or inside one; what is left is an image
of the store, from which a new process starts (`Service`, `Step`, `Reachable`).

## Main results

* `CriticalSections.Reachable.inv` — if every plan is `Safe` from a good store, then at most one
  plan is being executed, what is left of it is safe, and the store is good when none is.
* `CriticalSections.Inv.image` — every image of such a state is good.
-/

set_option autoImplicit false

namespace CriticalSections

open Function

variable {α T σ Req Act ε κ : Type}

/-! ## Running steps -/

/-- Run steps until one fails; the state is kept either way. -/
def runAll (f : α → σ → Except ε Unit × σ) : List α → σ → Except ε Unit × σ
  | [], s => (.ok (), s)
  | a :: as, s =>
    match f a s with
    | (.ok _, s) => runAll f as s
    | (.error e, s) => (.error e, s)

variable {f : α → σ → Except ε Unit × σ} {as : List α}

/-- A run of two parts. -/
lemma runAll_append (f : α → σ → Except ε Unit × σ) (as bs : List α) (s : σ) :
    runAll f (as ++ bs) s = match runAll f as s with
      | (.ok _, s) => runAll f bs s
      | (.error e, s) => (.error e, s) := by
  induction as generalizing s with
  | nil => rfl
  | cons a as ih =>
    rw [List.cons_append, runAll, runAll]
    split
    · exact ih _
    · rfl

/-- A completed run and one more step. -/
lemma runAll_append_singleton {s s' s'' : σ}
    {a : α} (h : runAll f as s = (.ok (), s')) (ha : f a s' = (.ok (), s'')) :
    runAll f (as ++ [a]) s = (.ok (), s'') := by
  simp only [runAll_append, h, runAll, ha]

/-- A run of two parts that completes. -/
lemma runAll_append_ok {bs : List α} {s s'' : σ} (h : runAll f (as ++ bs) s = (.ok (), s'')) :
    ∃ s', runAll f as s = (.ok (), s') ∧ runAll f bs s' = (.ok (), s'') := by
  rw [runAll_append] at h
  split at h
  · next hfirst => exact ⟨_, hfirst, h⟩
  · cases h

variable {s : σ}

/-- What every step keeps, a run keeps. -/
lemma runAll_preserves {P : σ → Prop}
    (h : ∀ a ∈ as, ∀ s, P s → P (f a s).2) (hs : P s) : P (runAll f as s).2 := by
  induction as generalizing s with
  | nil => exact hs
  | cons a as ih =>
    have hstep := h a List.mem_cons_self s hs
    rw [runAll]
    split
    · next hok =>
      rw [hok] at hstep
      exact ih (fun b hb => h b (List.mem_cons_of_mem _ hb)) hstep
    · next herr =>
      rw [herr] at hstep
      exact hstep

/-- Runs whose steps agree one by one agree. -/
lemma runAll_cons_congr {β : Type} {g : β → σ → Except ε Unit × σ}
    {a : α} {b : β} {bs : List β} (h : ∀ s, f a s = g b s)
    (hrest : ∀ s, runAll f as s = runAll g bs s) (s : σ) :
    runAll f (a :: as) s = runAll g (b :: bs) s := by
  rw [runAll, runAll, h s]
  split
  · exact hrest _
  · rfl

/-- A run seen through a projection of its states. -/
lemma runAll_project {β τ : Type} {g : β → τ → Except ε Unit × τ}
    {π : σ → τ} {l : β → α} (h : ∀ b s, g b (π s) = ((f (l b) s).1, π (f (l b) s).2))
    (bs : List β) (s : σ) :
    runAll g bs (π s) = ((runAll f (bs.map l) s).1, π (runAll f (bs.map l) s).2) := by
  induction bs generalizing s with
  | nil => rfl
  | cons b bs ih =>
    rw [List.map_cons, runAll, runAll, h b s]
    rcases f (l b) s with ⟨_ | _, s'⟩
    · rfl
    · exact ih s'

/-! ## Services -/

/-- A store with its requests. `begin` looks at the store with the locks held: a request returns at
once, or prepares the store and has a plan. `Image s a` are the images a kill can leave of `s` while
`a` is executed, or at rest. -/
structure Service (σ Req Act ε κ : Type) where
  begin : Req → σ → Option (σ × List Act)
  exec : Act → σ → Except ε Unit × σ
  exclusive : Req → Bool
  Image : σ → Option Act → κ → Prop
  reopen : κ → σ → Prop

/-- Where a thread is: outside, waiting for the barrier, holding it shared and waiting for the
mutex, or executing a plan, kept with the store it started from. -/
inductive Pc (σ Req Act : Type)
  | idle
  | waiting (r : Req)
  | shared (r : Req)
  | running (exclusive : Bool) (start : σ) (plan rest : List Act)

variable {p : Pc σ Req Act}

namespace Pc

/-- Executing a plan. -/
@[simp] def Runs : Pc σ Req Act → Prop
  | .running .. => True
  | _ => False

/-- Holding the barrier exclusively. -/
@[simp] def Exclusive : Pc σ Req Act → Prop
  | .running true .. => True
  | _ => False

/-- Holding the barrier shared. -/
def Shared : Pc σ Req Act → Prop
  | .shared _ => True
  | .running false .. => True
  | _ => False

/-- A request that runs alone runs. -/
lemma Exclusive.runs (h : p.Exclusive) : p.Runs := by
  cases p with
  | running => trivial
  | _ => exact absurd h (by simp [Exclusive])

/-- It does not share the barrier. -/
lemma Exclusive.not_shared (h : p.Exclusive) : ¬ p.Shared := by
  cases p with
  | running x => cases x <;> simp_all [Exclusive, Shared]
  | _ => exact absurd h (by simp [Exclusive])

/-- Whoever executes a plan holds the barrier. -/
lemma not_runs (hx : ¬ p.Exclusive) (hs : ¬ p.Shared) : ¬ p.Runs := by
  cases p with
  | running x => cases x <;> simp_all [Exclusive, Shared]
  | _ => simp [Runs]

end Pc

/-- The store and the threads. -/
structure State (T σ Req Act : Type) where
  store : σ
  pc : T → Pc σ Req Act

variable (S : Service σ Req Act ε κ) (Allowed : Req → Prop)

/-- The images a kill can leave of a state. -/
inductive Crash (s : State T σ Req Act) : κ → Prop
  | rest {k : κ} : (∀ t, ¬ (s.pc t).Runs) → S.Image s.store none k → Crash s k
  | acting {k : κ} {t : T} {x : Bool} {start : σ} {plan rest : List Act} {a : Act} :
      s.pc t = .running x start plan (a :: rest) → S.Image s.store (some a) k → Crash s k
  | done {k : κ} {t : T} {x : Bool} {start : σ} {plan : List Act} :
      s.pc t = .running x start plan [] → S.Image s.store none k → Crash s k

/-- One step of one thread, or a kill and a new process. -/
inductive Step [DecidableEq T] (s : State T σ Req Act) : State T σ Req Act → Prop
  /-- A thread issues a request. -/
  | request {t : T} {r : Req} : s.pc t = .idle → Allowed r →
      Step s { s with pc := update s.pc t (.waiting r) }
  /-- It takes the barrier shared: nobody holds it exclusively. -/
  | share {t : T} {r : Req} : s.pc t = .waiting r → S.exclusive r = false →
      (∀ u, ¬ (s.pc u).Exclusive) → Step s { s with pc := update s.pc t (.shared r) }
  /-- It takes the mutex, and returns at once. -/
  | lockReturn {t : T} {r : Req} : s.pc t = .shared r → (∀ u, ¬ (s.pc u).Runs) →
      S.begin r s.store = none → Step s { s with pc := update s.pc t .idle }
  /-- It takes the mutex, and starts its plan. -/
  | lockRun {t : T} {r : Req} {start : σ} {plan : List Act} : s.pc t = .shared r →
      (∀ u, ¬ (s.pc u).Runs) → S.begin r s.store = some (start, plan) →
      Step s ⟨start, update s.pc t (.running false start plan plan)⟩
  /-- It takes the barrier exclusively: nobody holds it in any way. -/
  | excludeReturn {t : T} {r : Req} : s.pc t = .waiting r → S.exclusive r = true →
      (∀ u, ¬ (s.pc u).Exclusive ∧ ¬ (s.pc u).Shared) → S.begin r s.store = none →
      Step s { s with pc := update s.pc t .idle }
  | excludeRun {t : T} {r : Req} {start : σ} {plan : List Act} : s.pc t = .waiting r →
      S.exclusive r = true → (∀ u, ¬ (s.pc u).Exclusive ∧ ¬ (s.pc u).Shared) →
      S.begin r s.store = some (start, plan) →
      Step s ⟨start, update s.pc t (.running true start plan plan)⟩
  /-- It executes an action. -/
  | act {t : T} {x : Bool} {start store : σ} {plan rest : List Act} {a : Act} :
      s.pc t = .running x start plan (a :: rest) → S.exec a s.store = (.ok (), store) →
      Step s ⟨store, update s.pc t (.running x start plan rest)⟩
  /-- An action fails, and the call returns. -/
  | fail {t : T} {x : Bool} {start store : σ} {plan rest : List Act} {a : Act} {e : ε} :
      s.pc t = .running x start plan (a :: rest) → S.exec a s.store = (.error e, store) →
      Step s ⟨store, update s.pc t .idle⟩
  /-- The plan is finished, and the call returns. -/
  | finish {t : T} {x : Bool} {start : σ} {plan : List Act} :
      s.pc t = .running x start plan [] → Step s { s with pc := update s.pc t .idle }
  /-- The process is killed and a new one opens what is left. -/
  | restart {k : κ} {store : σ} : Crash S s k → S.reopen k store → Step s ⟨store, fun _ => .idle⟩

/-- The states a store can get into. -/
inductive Reachable [DecidableEq T] (init : σ) : State T σ Req Act → Prop
  | init : Reachable init ⟨init, fun _ => .idle⟩
  | step {s s' : State T σ Req Act} : Reachable init s → Step S Allowed s s' → Reachable init s'

/-! ## Safe plans -/

/-- Every image of the plan satisfies `K`. It leaves a store that satisfies `R` when it is finished,
and `Q` when one of its actions fails. -/
def Safe (Q : σ → Prop) (K : κ → Prop) (R : σ → Prop) : List Act → σ → Prop
  | [], s => R s
  | a :: rest, s => (∀ k, S.Image s (some a) k → K k) ∧
    (∀ s', S.exec a s = (.ok (), s') → Safe Q K R rest s') ∧
    ∀ e s', S.exec a s = (.error e, s') → Q s'

variable {plan : List Act}

section Plans

variable {S} {Q : σ → Prop} {K : κ → Prop} {R R' : σ → Prop}

/-- Safe plans compose. -/
lemma Safe.append {plan plan' : List Act} (h : Safe S Q K R plan s)
    (h' : ∀ s, R s → Safe S Q K R' plan' s) : Safe S Q K R' (plan ++ plan') s := by
  induction plan generalizing s with
  | nil => exact h' s h
  | cons a plan ih => exact ⟨h.1, fun s' hs' => ih (h.2.1 s' hs'), h.2.2⟩

/-- A first action, then the rest. -/
lemma Safe.cons {a : Act} (h : Safe S Q K R [a] s)
    (h' : ∀ s, R s → Safe S Q K R' plan s) : Safe S Q K R' (a :: plan) s :=
  h.append h'

/-- A plan with one action for each item of a list is safe if each action is, where `R done todo`
holds between them. -/
lemma Safe.map {α : Type} {f : α → Act} {R : List α → List α → σ → Prop} (items : List α)
    (hstep : ∀ done a todo s, done ++ a :: todo = items → R done (a :: todo) s →
      Safe S Q K (R (done ++ [a]) todo) [f a] s)
    (hs : R [] items s) : Safe S Q K (R items []) (items.map f) s := by
  suffices h : ∀ todo done s, done ++ todo = items → R done todo s →
      Safe S Q K (R items []) (todo.map f) s from h items [] s rfl hs
  intro todo
  induction todo with
  | nil =>
    intro done s hitems hs
    rw [List.append_nil] at hitems
    exact hitems ▸ hs
  | cons a todo ih =>
    intro done s hitems hs
    have hone := hstep done a todo s hitems hs
    exact ⟨hone.1, fun s' hs' => ih (done ++ [a]) s' (by simpa using hitems) (hone.2.1 s' hs'),
      hone.2.2⟩

/-- What a safe plan leaves, finished or not. -/
lemma Safe.runAll (h : Safe S Q K Q plan s) : Q (runAll S.exec plan s).2 := by
  induction plan generalizing s with
  | nil => exact h
  | cons a plan ih =>
    rw [runAll]
    split
    · next hok => exact ih (h.2.1 _ hok)
    · next herr => exact h.2.2 _ _ herr

end Plans

/-- A plan in progress: it was decided on in a good store, its first part has been executed, and
what is left is safe. -/
structure Running (Q : σ → Prop) (K : κ → Prop) (store start : σ) (plan rest : List Act) : Prop
    where
  safe : Safe S Q K Q rest store
  begun : ∃ r s, Allowed r ∧ Q s ∧ S.begin r s = some (start, plan)
  executed : ∃ done, plan = done ++ rest ∧ runAll S.exec done start = (.ok (), store)

/-- What holds in every reachable state. -/
structure Inv (Q : σ → Prop) (K : κ → Prop) (store : σ) (pc : T → Pc σ Req Act) : Prop where
  /-- At most one plan is being executed. -/
  alone : ∀ t u, (pc t).Runs → (pc u).Runs → t = u
  /-- While the barrier is held exclusively nobody holds it shared. -/
  barrier : ∀ t, (pc t).Exclusive → ∀ u, ¬ (pc u).Shared
  /-- The store is good when no plan is being executed. -/
  rest : (∀ t, ¬ (pc t).Runs) → Q store
  /-- Plans are executed in order, and what is left of one is safe. -/
  running : ∀ t x start plan rest, pc t = .running x start plan rest →
    Running S Allowed Q K store start plan rest
  /-- Only allowed requests are waiting. -/
  waiting : ∀ t r, pc t = .waiting r ∨ pc t = .shared r → Allowed r

variable {S Allowed} {Q : σ → Prop} {K : κ → Prop} {store : σ}

/-- A good store with no thread at work. -/
lemma Inv.idle (h : Q store) : Inv (T := T) S Allowed Q K store (fun _ => .idle) where
  alone t u ht := absurd ht (by simp)
  barrier t ht := absurd ht (by simp)
  rest _ := h
  running t x start plan rest h := by cases h
  waiting t r h := by rcases h with h | h <;> cases h

variable {t : T} {x : Bool} {s : State T σ Req Act} {init : σ} {start : σ} {k : κ}

section Threads

variable [DecidableEq T] {store : σ} {pc : T → Pc σ Req Act}

/-- A thread moves without the store changing, neither starting nor ending a plan. -/
lemma Inv.move (h : Inv S Allowed Q K store pc) (hold : ¬ (pc t).Runs) (hnew : ¬ p.Runs)
    (hshared : p.Shared → ∀ u, ¬ (pc u).Exclusive)
    (hallowed : ∀ r, p = .waiting r ∨ p = .shared r → Allowed r) :
    Inv S Allowed Q K store (update pc t p) := by
  have hruns : ∀ u, (update pc t p u).Runs → u ≠ t ∧ (pc u).Runs := by
    intro u hu
    by_cases hut : u = t
    · subst hut
      rw [update_self] at hu
      exact absurd hu hnew
    · rw [update_of_ne hut] at hu
      exact ⟨hut, hu⟩
  refine ⟨?_, ?_, ?_, ?_, ?_⟩
  · intro u v hu hv
    exact h.alone u v (hruns u hu).2 (hruns v hv).2
  · intro u hu v hv
    have hu' : (pc u).Exclusive := by
      rwa [update_of_ne (hruns u hu.runs).1] at hu
    by_cases hvt : v = t
    · subst hvt
      rw [update_self] at hv
      exact hshared hv u hu'
    · rw [update_of_ne hvt] at hv
      exact h.barrier u hu' v hv
  · intro hnone
    refine h.rest fun u hu => ?_
    by_cases hut : u = t
    · exact hold (hut ▸ hu)
    · exact hnone u (by rwa [update_of_ne hut])
  · intro u x start plan rest hu
    have hrun := hruns u (by rw [hu]; trivial)
    rw [update_of_ne hrun.1] at hu
    exact h.running u x start plan rest hu
  · intro u r hu
    by_cases hut : u = t
    · subst hut
      rw [update_self] at hu
      exact hallowed r hu
    · rw [update_of_ne hut] at hu
      exact h.waiting u r hu

/-- The only thread with a plan, if any, moves and changes the store. -/
lemma Inv.advance (h : Inv S Allowed Q K store pc) {store' : σ} (honly : ∀ u, u ≠ t → ¬ (pc u).Runs)
    (hexclusive : p.Exclusive → ∀ u, u ≠ t → ¬ (pc u).Shared)
    (hp : p = .idle ∧ Q store' ∨ ∃ x start plan rest, p = .running x start plan rest ∧
      Running S Allowed Q K store' start plan rest) : Inv S Allowed Q K store' (update pc t p) := by
  have hrunner : ∀ u, (update pc t p u).Runs → u = t := fun u hu => by
    by_contra hut
    rw [update_of_ne hut] at hu
    exact honly u hut hu
  refine ⟨?_, ?_, ?_, ?_, ?_⟩
  · intro u v hu hv
    rw [hrunner u hu, hrunner v hv]
  · intro u hu v hv
    obtain rfl := hrunner u hu.runs
    rw [update_self] at hu
    by_cases hvu : v = u
    · subst hvu
      rw [update_self] at hv
      exact hu.not_shared hv
    · rw [update_of_ne hvu] at hv
      exact hexclusive hu v hvu hv
  · intro hnone
    rcases hp with ⟨rfl, hQ⟩ | ⟨x, start, plan, rest, rfl, -⟩
    · exact hQ
    · exact absurd trivial (by simpa using hnone t)
  · intro u x start plan rest hu
    obtain rfl := hrunner u (by rw [hu]; trivial)
    rw [update_self] at hu
    rcases hp with ⟨rfl, -⟩ | ⟨x', start', plan', rest', rfl, hsafe⟩
    · cases hu
    · cases hu
      exact hsafe
  · intro u r hu
    by_cases hut : u = t
    · subst hut
      rw [update_self] at hu
      rcases hp with ⟨rfl, -⟩ | ⟨_, _, _, _, rfl, -⟩ <;> rcases hu with hu | hu <;> cases hu
    · rw [update_of_ne hut] at hu
      exact h.waiting u r hu

omit [DecidableEq T] in
/-- The thread with a plan is the only one. -/
lemma Inv.only (h : Inv S Allowed Q K store pc) (ht : (pc t).Runs) : ∀ u, u ≠ t → ¬ (pc u).Runs :=
  fun u hut hu => hut (h.alone u t hu ht)

/-! ## What holds in every reachable state -/

variable (hbegin : ∀ r s s' plan, Allowed r → Q s → S.begin r s = some (s', plan) →
    Safe S Q K Q plan s')
  (hrest : ∀ s k, Q s → S.Image s none k → K k)
  (hreopen : ∀ k s, K k → S.reopen k s → Q s)

include hrest in
omit [DecidableEq T] in
/-- Every image of a state that keeps the invariant is good. -/
lemma Inv.image {s : State T σ Req Act} (h : Inv S Allowed Q K s.store s.pc) {k : κ}
    (hk : Crash S s k) : K k := by
  cases hk with
  | rest hnone himage => exact hrest _ _ (h.rest hnone) himage
  | acting hpc himage => exact (h.running _ _ _ _ _ hpc).safe.1 _ himage
  | done hpc himage => exact hrest _ _ (h.running _ _ _ _ _ hpc).safe himage

omit [DecidableEq T] in
/-- A kill while a plan is being executed falls into its next action, or behind the last one. -/
lemma Inv.killed (h : Inv S Allowed Q K s.store s.pc) (hk : Crash S s k) {plan rest : List Act}
    (ht : s.pc t = .running x start plan rest) : S.Image s.store rest.head? k := by
  have hruns : (s.pc t).Runs := by
    rw [ht]
    trivial
  cases hk with
  | rest hnone _ => exact absurd hruns (hnone t)
  | @acting t' x' start' plan' rest' a hpc himage | @done t' x' start' plan' hpc himage =>
    obtain rfl : t' = t := h.alone t' t (by rw [hpc]; trivial) hruns
    rw [hpc] at ht
    cases ht
    exact himage

include hbegin hrest hreopen in
/-- One step keeps the invariant. -/
lemma Inv.step {s' : State T σ Req Act} (h : Inv S Allowed Q K s.store s.pc)
    (hstep : Step S Allowed s s') : Inv S Allowed Q K s'.store s'.pc := by
  cases hstep with
  | @request t r hpc hr =>
    refine h.move (by simp [hpc]) (by simp) (by simp [Pc.Shared]) ?_
    rintro r' (heq | heq) <;> cases heq
    exact hr
  | @share t r hpc hshared hfree =>
    refine h.move (by simp [hpc]) (by simp) (fun _ => hfree) ?_
    rintro r' (heq | heq) <;> cases heq
    exact h.waiting t r (.inl hpc)
  | @lockReturn t r hpc hfree hnone =>
    exact h.advance (fun u _ => hfree u) (by simp) (.inl ⟨rfl, h.rest hfree⟩)
  | @lockRun t r start plan hpc hfree hsome =>
    refine h.advance (fun u _ => hfree u) (by simp)
      (.inr ⟨false, start, plan, plan, rfl, ?_⟩)
    have hr := h.waiting t r (.inr hpc)
    have hQ := h.rest hfree
    exact ⟨hbegin r s.store start plan hr hQ hsome, ⟨r, s.store, hr, hQ, hsome⟩, [], rfl, rfl⟩
  | @excludeReturn t r hpc hexcl hfree hnone =>
    have hidle : ∀ u, ¬ (s.pc u).Runs := fun u => Pc.not_runs (hfree u).1 (hfree u).2
    exact h.advance (fun u _ => hidle u) (by simp) (.inl ⟨rfl, h.rest hidle⟩)
  | @excludeRun t r start plan hpc hexcl hfree hsome =>
    have hidle : ∀ u, ¬ (s.pc u).Runs := fun u => Pc.not_runs (hfree u).1 (hfree u).2
    refine h.advance (fun u _ => hidle u) (fun _ u _ => (hfree u).2)
      (.inr ⟨true, start, plan, plan, rfl, ?_⟩)
    have hr := h.waiting t r (.inl hpc)
    have hQ := h.rest hidle
    exact ⟨hbegin r s.store start plan hr hQ hsome, ⟨r, s.store, hr, hQ, hsome⟩, [], rfl, rfl⟩
  | @act t x start store' plan rest a hpc hexec =>
    obtain ⟨hsafe, hbegun, done, hplan, hdone⟩ := h.running t x start plan (a :: rest) hpc
    refine h.advance (h.only (by rw [hpc]; trivial)) ?_
      (.inr ⟨x, start, plan, rest, rfl, hsafe.2.1 _ hexec, hbegun, done ++ [a], by simp [hplan],
        runAll_append_singleton hdone hexec⟩)
    intro hx u _
    refine h.barrier t ?_ u
    rw [hpc]
    cases x <;> [exact absurd hx (by simp); trivial]
  | @fail t x start store' plan rest a e hpc hexec =>
    have hsafe := (h.running t x start plan (a :: rest) hpc).safe
    exact h.advance (h.only (by rw [hpc]; trivial)) (by simp)
      (.inl ⟨rfl, hsafe.2.2 _ _ hexec⟩)
  | @finish t x start plan hpc =>
    have hsafe := (h.running t x start plan [] hpc).safe
    exact h.advance (h.only (by rw [hpc]; trivial)) (by simp)
      (.inl ⟨rfl, hsafe⟩)
  | @restart k store' hcrash hopen =>
    exact .idle (hreopen k store' (h.image hrest hcrash) hopen)

include hbegin hrest hreopen in
/-- **The invariant of critical sections.** If the plans of allowed requests are safe from good
stores, and opening a good image gives a good store, the invariant holds in every reachable state.
-/
theorem Reachable.inv (hinit : Q init)
    (h : Reachable S Allowed init s) : Inv S Allowed Q K s.store s.pc := by
  induction h with
  | init => exact .idle hinit
  | step _ hstep ih => exact ih.step hbegin hrest hreopen hstep

end Threads

/-! ## Requests one after the other -/

section Sequential

variable [DecidableEq T]

/-- Only one thread is not idle. -/
def only (t : T) (p : Pc σ Req Act) : T → Pc σ Req Act := update (fun _ => .idle) t p

/-- The thread at work. -/
lemma only_self (t : T) (p : Pc σ Req Act) : only t p t = p := update_self ..

/-- It goes on. -/
lemma update_only (t : T) (p q : Pc σ Req Act) : update (only t p) t q = only t q :=
  update_idem ..

/-- It comes to rest. -/
lemma only_idle (t : T) : only t (.idle : Pc σ Req Act) = fun _ => .idle :=
  update_eq_self t fun _ => (.idle : Pc σ Req Act)

/-- What no idle thread is, only that thread can be. -/
lemma not_only (P : Pc σ Req Act → Prop) (hidle : ¬ P .idle)
    (hp : ¬ P p) (u : T) : ¬ P (only t p u) := by
  by_cases hu : u = t
  · rwa [hu, only_self]
  · rwa [only, update_of_ne hu]

/-- A plan that is executed without interruption. -/
lemma Reachable.runAll (rest : List Act)
    (h : Reachable S Allowed init ⟨store, only t (.running x start plan rest)⟩) :
    Reachable S Allowed init ⟨(runAll S.exec rest store).2,
      fun _ : T => .idle⟩ := by
  induction rest generalizing store with
  | nil =>
    have hdone := h.step (.finish (only_self ..))
    rwa [update_only, only_idle] at hdone
  | cons a rest ih =>
    rw [runAll]
    split
    · next store' hexec =>
      have hstep := h.step (.act (only_self ..) hexec)
      rw [update_only] at hstep
      exact ih hstep
    · next e store' hexec =>
      have hfail := h.step (.fail (only_self ..) hexec)
      rwa [update_only, only_idle] at hfail

/-- A request that nothing interrupts. -/
def Service.call (S : Service σ Req Act ε κ) (s : σ) (r : Req) : σ :=
  match S.begin r s with
  | none => s
  | some (start, plan) => (CriticalSections.runAll S.exec plan start).2

/-- A request that is alone gets its locks and starts its plan. -/
lemma Reachable.begin {s : σ} {r : Req} (t : T)
    (h : Reachable S Allowed init ⟨s, fun _ : T => .idle⟩) (hr : Allowed r)
    (hbegin : S.begin r s = some (start, plan)) :
    Reachable S Allowed init ⟨start, only t (.running (S.exclusive r) start plan plan)⟩ := by
  have hwait : Reachable S Allowed init ⟨s, only t (.waiting r)⟩ := h.step (.request rfl hr)
  cases hx : S.exclusive r with
  | true =>
    have hrun := hwait.step (.excludeRun (only_self ..) hx (fun u =>
      ⟨not_only Pc.Exclusive (by simp) (by simp) u,
        not_only Pc.Shared (by simp [Pc.Shared]) (by simp [Pc.Shared]) u⟩) hbegin)
    rwa [update_only] at hrun
  | false =>
    have hshared := hwait.step (.share (only_self ..) hx
      (not_only Pc.Exclusive (by simp) (by simp)))
    rw [update_only] at hshared
    have hrun := hshared.step (.lockRun (only_self ..)
      (not_only Pc.Runs (by simp) (by simp)) hbegin)
    rwa [update_only] at hrun

/-- A first part of a plan is executed. -/
lemma Reachable.execute {store' : σ} {plan rest : List Act} (done : List Act)
    (h : Reachable S Allowed init ⟨store, only t (.running x start plan (done ++ rest))⟩)
    (hdone : CriticalSections.runAll S.exec done store = (.ok (), store')) :
    Reachable S Allowed init ⟨store', only t (.running x start plan rest)⟩ := by
  induction done generalizing store with
  | nil =>
    cases hdone
    exact h
  | cons a done ih =>
    rw [CriticalSections.runAll] at hdone
    split at hdone
    · next store₁ hexec =>
      have hstep := h.step (.act (only_self ..) hexec)
      rw [update_only] at hstep
      exact ih hstep hdone
    · cases hdone

/-- A kill while the only plan is being executed. -/
lemma crash_only {plan rest : List Act} {a : Act} (t : T) (h : S.Image store (some a) k) :
    Crash S ⟨store, only t (.running x start plan (a :: rest))⟩ k := by
  have hpc : only t (.running x start plan (a :: rest) : Pc σ Req Act) t = _ := only_self ..
  exact .acting hpc h

/-- **A sequential call** is one of the things that can happen. -/
lemma Reachable.call {s : σ} (t : T)
    (h : Reachable S Allowed init ⟨s, fun _ : T => .idle⟩) {r : Req} (hr : Allowed r) :
    Reachable S Allowed init ⟨S.call s r, fun _ : T => .idle⟩ := by
  rw [Service.call]
  split
  · exact h
  · next start plan hbegin => exact (h.begin t hr hbegin).runAll plan

/-- Several calls, one after the other. -/
lemma Reachable.calls {s : σ} (t : T) (h : Reachable S Allowed init ⟨s, fun _ : T => .idle⟩)
    (rs : List Req) (hrs : ∀ r ∈ rs, Allowed r) :
    Reachable S Allowed init ⟨rs.foldl S.call s, fun _ : T => .idle⟩ := by
  induction rs generalizing s with
  | nil => exact h
  | cons r rs ih =>
    exact ih (h.call t (hrs r (by simp))) fun r' hr' => hrs r' (by simp [hr'])

end Sequential

end CriticalSections
