import Mathlib.Algebra.Order.Ring.Nat

/-!
# Loops

A loop is a step that either goes on to a next state or stops, run with a bound on the number of
rounds. A scan goes through a list until a step breaks off; the search for the best element of a
list is a loop of its own kind.

## Main results

* `Loop.run_induction`, `Loop.foldl_induction` — what every step preserves holds at the end.
* `Loop.step_run` — enough rounds reach the end, if a measure decreases.
* `Loop.scan_guarded`, `Loop.exists_followed` — what holds when a scan breaks off, and how far it
  goes.
* `Loop.scan_filterMap`, `Loop.scan_flatMap` — scans without idle elements, and inside a scan.
* `Loop.mem_limited` — an element is looked at if less than enough is found before it.
* `Loop.best_mem`, `Loop.not_of_best_eq_none` — what is found passes the test, and nothing is
  found only if no element above the bound does.
-/

set_option autoImplicit false

namespace Loop

open List

variable {σ : Type} {step : σ → Option σ}

/-- Run a step until it stops, for at most a number of rounds. -/
def run (step : σ → Option σ) : ℕ → σ → σ
  | 0, s => s
  | n + 1, s =>
    match step s with
    | none => s
    | some s' => run step n s'

variable {P : σ → Prop}

/-- What holds at first and is preserved by every step taken holds at the end. Steps are taken from
states that the run reaches. -/
lemma run_induction (n : ℕ) (s : σ) (hinit : P s)
    (hstep : ∀ k s', P (run step k s) → step (run step k s) = some s' → P s') :
    P (run step n s) := by
  induction n generalizing s with
  | zero => exact hinit
  | succ n ih =>
    rw [run]
    cases hs : step s with
    | none => exact hinit
    | some s' =>
      apply ih s' (hstep 0 s' hinit hs)
      intro k s'' hk hks
      have hrun : run step (k + 1) s = run step k s' := by rw [run, hs]
      exact hstep (k + 1) s'' (hrun ▸ hk) (hrun ▸ hks)

/-- Enough rounds reach the end of the loop. -/
lemma step_run (measure : σ → ℕ) (hdecreases : ∀ s s', step s = some s' → measure s' < measure s)
    (n : ℕ) (s : σ) (hn : measure s ≤ n) : step (run step n s) = none := by
  induction n generalizing s with
  | zero =>
    rw [run]
    cases hs : step s with
    | none => rfl
    | some s' =>
      have := hdecreases s s' hs
      omega
  | succ n ih =>
    rw [run]
    cases hs : step s with
    | none => exact hs
    | some s' =>
      apply ih s'
      have := hdecreases s s' hs
      omega

variable {ι : Type}

/-- Go through a list until a step breaks off; tells whether one did. -/
def scan (step : ι → σ → Bool × σ) : List ι → σ → Bool × σ
  | [], s => (false, s)
  | i :: l, s =>
    match step i s with
    | (true, s) => (true, s)
    | (false, s) => scan step l s

variable {s : σ} {step : ι → σ → Bool × σ}

/-- A scan depends only on what its steps see: elements that do nothing, as long as the scan goes
on, can be left out. -/
lemma scan_filterMap {κ : Type}
    {step' : κ → σ → Bool × σ} (view : ι → Option κ) (l : List ι) (hinit : P s)
    (hskip : ∀ i ∈ l, view i = none → ∀ s, P s → step i s = (false, s))
    (hsame : ∀ i ∈ l, ∀ v, view i = some v → ∀ s, P s → step i s = step' v s)
    (hkeep : ∀ i ∈ l, ∀ s, P s → (step i s).1 = false → P (step i s).2) :
    scan step l s = scan step' (l.filterMap view) s := by
  induction l generalizing s with
  | nil => simp [scan]
  | cons i l ih =>
    have hrest : ∀ {s}, P s → scan step l s = scan step' (l.filterMap view) s := fun hs =>
      ih hs (fun j hj => hskip j (mem_cons_of_mem i hj))
        (fun j hj => hsame j (mem_cons_of_mem i hj))
        fun j hj => hkeep j (mem_cons_of_mem i hj)
    have hnext := hkeep i mem_cons_self s hinit
    cases hview : view i with
    | none =>
      rw [filterMap_cons_none hview, scan, hskip i mem_cons_self hview s hinit]
      exact hrest hinit
    | some v =>
      rw [filterMap_cons_some hview, scan, scan, ← hsame i mem_cons_self v hview s hinit]
      rcases hone : step i s with ⟨_ | _, s'⟩
      · rw [hone] at hnext
        exact hrest (hnext rfl)
      · rfl

/-- A scan of two lists goes on to the second if it does not break off in the first. -/
lemma scan_append (l l' : List ι) (s : σ) : scan step (l ++ l') s =
    match scan step l s with
    | (true, s) => (true, s)
    | (false, s) => scan step l' s := by
  induction l generalizing s with
  | nil => rfl
  | cons i l ih =>
    rw [cons_append, scan, scan]
    rcases step i s with ⟨_ | _, s'⟩
    · exact ih s'
    · rfl

/-- Scans inside a scan are one scan. -/
lemma scan_flatMap {κ : Type} (f : κ → List ι) (l : List κ) (s : σ) :
    scan (fun k => scan step (f k)) l s = scan step (l.flatMap f) s := by
  induction l generalizing s with
  | nil => rfl
  | cons k l ih =>
    rw [scan, flatMap_cons, scan_append]
    rcases scan step (f k) s with ⟨_ | _, s'⟩
    · exact ih s'
    · rfl

/-- A start of the list that a scan goes through: no test before its end, but after at least one
step, breaks off. -/
def Followed (add : σ → ι → σ) (full : σ → Bool) (s : σ) (l taken : List ι) : Prop :=
  taken <+: l ∧ ∀ first, first <+: taken → first ≠ [] → first ≠ taken →
    full (first.foldl add s) = false

/-- **How far a scan goes** that tests the state each step leaves: to the longest start that it
goes through. -/
lemma exists_followed {add : σ → ι → σ} {full : σ → Bool} (l : List ι) (s : σ) :
    ∃ taken, Followed add full s l taken ∧
      (∀ other, Followed add full s l other → other <+: taken) ∧
      (scan (fun i s => (full (add s i), add s i)) l s).2 = taken.foldl add s := by
  induction l generalizing s with
  | nil => exact ⟨[], ⟨prefix_rfl, by simp⟩, fun other h => h.1, rfl⟩
  | cons i l ih =>
    rw [scan]
    cases hfull : full (add s i) with
    | true =>
      refine ⟨[i], ⟨by simp, ?_⟩, ?_, rfl⟩
      · intro first hfirst hne hne'
        rcases prefix_cons_iff.mp hfirst with rfl | ⟨rest, rfl, hrest⟩
        · exact absurd rfl hne
        · exact absurd (by rw [prefix_nil.mp hrest]) hne'
      · rintro other ⟨hother, htests⟩
        rcases prefix_cons_iff.mp hother with rfl | ⟨rest, rfl, -⟩
        · exact nil_prefix
        · by_contra hlong
          have := htests [i] (by simp) (by simp) fun heq => hlong (heq ▸ prefix_rfl)
          simp [hfull] at this
    | false =>
      obtain ⟨taken, ⟨htaken, htests⟩, hmax, heq⟩ := ih (add s i)
      refine ⟨i :: taken, ⟨cons_prefix_cons.mpr ⟨rfl, htaken⟩, ?_⟩, ?_, heq⟩
      · intro first hfirst hne hne'
        rcases prefix_cons_iff.mp hfirst with rfl | ⟨rest, rfl, hrest⟩
        · exact absurd rfl hne
        · by_cases hnil : rest = []
          · simpa [hnil] using hfull
          · exact htests rest hrest hnil fun heq => hne' (heq ▸ rfl)
      · rintro other ⟨hother, htests'⟩
        rcases prefix_cons_iff.mp hother with rfl | ⟨rest, rfl, hrest⟩
        · exact nil_prefix
        · refine cons_prefix_cons.mpr ⟨rfl, hmax rest ⟨hrest, fun first hfirst hne hne' => ?_⟩⟩
          exact htests' (i :: first) (cons_prefix_cons.mpr ⟨rfl, hfirst⟩) (by simp) (by simpa)

/-- What every step preserves holds at the end of a fold. -/
lemma foldl_induction {step : σ → ι → σ} (l : List ι) (hinit : P s)
    (hstep : ∀ i ∈ l, ∀ s, P s → P (step s i)) : P (l.foldl step s) := by
  induction l generalizing s with
  | nil => exact hinit
  | cons i l ih =>
    exact ih (hstep i mem_cons_self s hinit) fun j hj => hstep j (mem_cons_of_mem i hj)

/-! ## Loops with a limit -/

variable {ε β : Type}

/-- Go through a list until enough was found or a step fails; tells which elements were looked
at. -/
def limited (limit : ℕ) (body : ι → Except ε (List β)) : List ι → List β →
    Except ε (List β) × List ι
  | [], acc => (.ok acc, [])
  | i :: l, acc =>
    if limit ≤ acc.length then (.ok acc, [])
    else
      match body i with
      | .error err => (.error err, [i])
      | .ok found =>
        let r := limited limit body l (acc ++ found)
        (r.1, i :: r.2)

/-- The number of results for an element. -/
def yield (body : ι → Except ε (List β)) (i : ι) : ℕ :=
  match body i with
  | .error _ => 0
  | .ok found => found.length

variable {i : ι}

/-- **When a loop with a limit comes to an element.** It does if less than enough is found for the
elements that count, the last one apart. **Proof sketch.** By induction on the list. While the
element is to come, the head is not the last one that counts, so its results are part of the sum. -/
lemma mem_limited {limit : ℕ} {body : ι → Except ε (List β)} (counts : ι → Bool)
    (hi : counts i = true) (l : List ι) (acc : List β) {found : List β}
    (hok : (limited limit body l acc).1 = .ok found) (hmem : i ∈ l)
    (hidle : ∀ j ∈ l, counts j = false → yield body j = 0)
    (hroom : acc.length + ((l.filter counts).dropLast.map (yield body)).sum < limit) :
    i ∈ (limited limit body l acc).2 := by
  induction l generalizing acc with
  | nil => cases hmem
  | cons j l ih =>
    have hopen : ¬ limit ≤ acc.length := by omega
    rw [limited, if_neg hopen] at hok ⊢
    cases hbody : body j with
    | error err =>
      rw [hbody] at hok
      cases hok
    | ok here =>
      rw [hbody] at hok
      rcases mem_cons.mp hmem with rfl | hmem
      · exact mem_cons_self
      refine mem_cons_of_mem _ (ih _ hok hmem (fun k hk => hidle k (mem_cons_of_mem _ hk)) ?_)
      have hyield : yield body j = here.length := by rw [yield, hbody]
      have hne : l.filter counts ≠ [] :=
        ne_nil_of_mem (mem_filter.mpr ⟨hmem, hi⟩)
      rw [length_append]
      cases hj : counts j with
      | true =>
        rw [filter_cons_of_pos hj, dropLast_cons_of_ne_nil hne, map_cons, sum_cons] at hroom
        omega
      | false =>
        rw [filter_cons_of_neg (by simp [hj])] at hroom
        have := hidle j mem_cons_self hj
        omega

variable {R : Type} [LinearOrder R]

/-- Keep the better one of the best element so far and the next element. -/
def better (value : ι → R) (admits : ι → Bool) (best : Option ι × R) (i : ι) : Option ι × R :=
  if admits i = true ∧ best.2 < value i then (some i, value i) else best

/-- The first element with the highest value, among those that pass a test and lie above a
bound. -/
def best (value : ι → R) (admits : ι → Bool) (bound : R) (l : List ι) : Option ι :=
  (l.foldl (better value admits) (none, bound)).1

variable {value : ι → R} {admits : ι → Bool}

/-- What a search ends with was there or passes the test. -/
lemma mem_foldl_better (l : List ι) (start : Option ι × R)
    (h : (l.foldl (better value admits) start).1 = some i) :
    start.1 = some i ∨ i ∈ l ∧ admits i = true := by
  induction l generalizing start with
  | nil => exact .inl h
  | cons a l ih =>
    rcases ih _ h with h | ⟨hi, hadmits⟩
    · unfold better at h
      split at h
      case isTrue ha =>
        obtain rfl : a = i := Option.some.inj h
        exact .inr ⟨mem_cons_self, ha.1⟩
      case isFalse => exact .inl h
    · exact .inr ⟨mem_cons_of_mem a hi, hadmits⟩

/-- What is found passes the test. -/
lemma best_mem {bound : R} {l : List ι} (h : best value admits bound l = some i) :
    i ∈ l ∧ admits i = true := by
  rcases mem_foldl_better l (none, bound) h with h | h
  · cases h
  · exact h

/-- A search that ends with nothing found nothing better on the way. -/
lemma isSome_foldl_better (l : List ι) (start : Option ι × R)
    (h : (l.foldl (better value admits) start).1 = none) :
    start.1 = none ∧ ∀ i ∈ l, admits i = true → value i ≤ start.2 := by
  induction l generalizing start with
  | nil => exact ⟨h, by simp⟩
  | cons a l ih =>
    obtain ⟨hnone, hall⟩ := ih _ h
    unfold better at hnone hall
    split at hnone
    case isTrue => cases hnone
    case isFalse hnot =>
      rw [if_neg hnot] at hall
      refine ⟨hnone, fun i hi hadmits => ?_⟩
      rcases mem_cons.mp hi with rfl | hi
      · exact not_lt.mp fun hlt => hnot ⟨hadmits, hlt⟩
      · exact hall i hi hadmits

/-- Nothing is found only if no element above the bound passes the test. -/
lemma not_of_best_eq_none {bound : R} {l : List ι} (h : best value admits bound l = none)
    (hi : i ∈ l) (hvalue : bound < value i) : admits i = false := by
  obtain ⟨-, hall⟩ := isSome_foldl_better l (none, bound) h
  cases hadmits : admits i with
  | false => rfl
  | true => exact absurd hvalue (not_lt.mpr (hall i hi hadmits))

end Loop
