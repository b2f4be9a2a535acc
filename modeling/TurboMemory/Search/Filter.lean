import TurboMemory.Storage.PayloadIndex

/-!
# Evaluation of filters

A filter tree is evaluated against the payload index, and its full-text leaves against the text
index (`TextSearch` says what its commit and its search return). A conjunction stops at an empty
intermediate result, and an error of the text index stops everything. No result stands for a panic.

## Main results

* `evaluateFilterRecursive_spec` — the evaluation gives the meaning of the filter if no bounds
  are crossed (`Filter.Uncrossed`), and panics otherwise.
-/

set_option autoImplicit false

namespace TurboMemory

open Filter

/-- The text index as a filter sees it. -/
structure TextSearch where
  /-- Making deferred writes visible. -/
  commitIfPending : Except StorageError Unit
  search : String → Except StorageError Bitmap

mutual

/-- Whether a filter contains a full-text query. -/
def Filter.usesFullText : Filter → Bool
  | .fullText _ _ => true
  | .and parts => anyUsesFullText parts
  | .or parts => anyUsesFullText parts
  | .not inner => inner.usesFullText
  | _ => false

/-- Whether one of some filters does. -/
def anyUsesFullText : List Filter → Bool
  | [] => false
  | part :: parts => part.usesFullText || anyUsesFullText parts

end

section Evaluation

variable (render : Json → String) (text : TextSearch) (idx : PayloadIndex)

mutual

/-- Evaluate a filter. -/
def evaluateFilterRecursive : Filter → Option (Except StorageError Bitmap)
  | .fullText _ query => some (text.search query)
  | .eq field value => some (.ok (idx.queryEq render field value))
  | .range field low high => (idx.queryRange field low high).map .ok
  | .and [] => some (.ok ∅)
  | .and (first :: parts) =>
    match evaluateFilterRecursive first with
    | some (.ok acc) => evaluateAnd parts acc
    | r => r
  | .or parts => evaluateOr parts ∅
  | .not inner =>
    match evaluateFilterRecursive inner with
    | some (.ok positives) => some (.ok (idx.allOffsets \ positives))
    | r => r

/-- The loop over the further parts of a conjunction. -/
def evaluateAnd : List Filter → Bitmap → Option (Except StorageError Bitmap)
  | [], acc => some (.ok acc)
  | part :: parts, acc =>
    if acc = ∅ then some (.ok acc)
    else
      match evaluateFilterRecursive part with
      | some (.ok s) => evaluateAnd parts (acc ∩ s)
      | r => r

/-- The loop over the parts of a disjunction. -/
def evaluateOr : List Filter → Bitmap → Option (Except StorageError Bitmap)
  | [], acc => some (.ok acc)
  | part :: parts, acc =>
    match evaluateFilterRecursive part with
    | some (.ok s) => evaluateOr parts (acc ∪ s)
    | r => r

end

/-- Evaluate a filter against the payload and full-text indexes. -/
def evaluateFilter (filter : Filter) : Option (Except StorageError Bitmap) :=
  if filter.usesFullText then
    match text.commitIfPending with
    | .ok _ => evaluateFilterRecursive render text idx filter
    | .error e => some (.error e)
  else evaluateFilterRecursive render text idx filter

/-! ## Meaning -/

mutual

/-- What a filter selects. -/
def Filter.meaning : Filter → Except StorageError Bitmap
  | .fullText _ query => text.search query
  | .eq field value => .ok (idx.queryEq render field value)
  | .range field low high => .ok (idx.numbersIn field low high)
  | .and [] => .ok ∅
  | .and (first :: parts) => do meaningAnd parts (← first.meaning)
  | .or parts => meaningOr parts ∅
  | .not inner => do .ok (idx.allOffsets \ (← inner.meaning))

/-- What an intermediate result and the further parts of a conjunction select. -/
def meaningAnd : List Filter → Bitmap → Except StorageError Bitmap
  | [], acc => .ok acc
  | part :: parts, acc =>
    if acc = ∅ then .ok acc else do meaningAnd parts (acc ∩ (← part.meaning))

/-- What an intermediate result and the further parts of a disjunction select. -/
def meaningOr : List Filter → Bitmap → Except StorageError Bitmap
  | [], acc => .ok acc
  | part :: parts, acc => do meaningOr parts (acc ∪ (← part.meaning))

end

mutual

/-- No range that is looked up has crossed bounds. What is looked up depends on what was selected
before: a conjunction stops at an empty result, everything at an error. -/
def Filter.Uncrossed : Filter → Prop
  | .range field low high => ¬(field ∈ idx.numeric ∧ low.mapBound.panics high.mapBound)
  | .and [] => True
  | .and (first :: parts) =>
    first.Uncrossed ∧ ∀ acc, first.meaning render text idx = .ok acc → AndUncrossed parts acc
  | .or parts => OrUncrossed parts
  | .not inner => inner.Uncrossed
  | _ => True

/-- The same for the further parts of a conjunction. -/
def AndUncrossed : List Filter → Bitmap → Prop
  | [], _ => True
  | part :: parts, acc =>
    acc ≠ ∅ → part.Uncrossed ∧
      ∀ s, part.meaning render text idx = .ok s → AndUncrossed parts (acc ∩ s)

/-- The same for the parts of a disjunction. -/
def OrUncrossed : List Filter → Prop
  | [] => True
  | part :: parts =>
    part.Uncrossed ∧ ∀ s, part.meaning render text idx = .ok s → OrUncrossed parts

end

variable {render text idx}

mutual

/-- The evaluation gives the meaning of the filter if no bounds are crossed, and panics otherwise.
**Proof sketch.** By recursion over the tree. A leaf is looked up as it is meant, a range by
`PayloadIndex.queryRange_eq`. The first part of a conjunction or disjunction panics, returns an
error that ends evaluation and meaning, or what it means, and the loop goes on from the same result.
-/
theorem evaluateFilterRecursive_spec : ∀ f, (f.Uncrossed render text idx →
      evaluateFilterRecursive render text idx f = some (f.meaning render text idx)) ∧
    (¬ f.Uncrossed render text idx → evaluateFilterRecursive render text idx f = none)
  | .fullText _ _ => by simp [Uncrossed, evaluateFilterRecursive, meaning]
  | .eq _ _ => by simp [Uncrossed, evaluateFilterRecursive, meaning]
  | .range field low high => by
    simp only [Uncrossed, evaluateFilterRecursive, meaning, PayloadIndex.queryRange_eq]
    split <;> simp_all
  | .and [] => by simp [Uncrossed, evaluateFilterRecursive, meaning]
  | .and (first :: parts) => by
    have ih := evaluateFilterRecursive_spec first
    simp only [Uncrossed, evaluateFilterRecursive, meaning]
    by_cases h : first.Uncrossed render text idx
    · rw [ih.1 h]
      cases hm : first.meaning render text idx with
      | error e => simp [h, bind, Except.bind]
      | ok acc => simpa [h, bind, Except.bind] using evaluateAnd_spec parts acc
    · simp [ih.2 h, h]
  | .or parts => by
    simpa only [Uncrossed, evaluateFilterRecursive, meaning] using
      evaluateOr_spec parts ∅
  | .not inner => by
    have ih := evaluateFilterRecursive_spec inner
    simp only [Uncrossed, evaluateFilterRecursive, meaning]
    refine ⟨fun h => ?_, fun h => by rw [ih.2 h]⟩
    rw [ih.1 h]
    cases inner.meaning render text idx <;> rfl

/-- The loop of a conjunction. -/
theorem evaluateAnd_spec : ∀ parts acc, (AndUncrossed render text idx parts acc →
      evaluateAnd render text idx parts acc = some (meaningAnd render text idx parts acc)) ∧
    (¬ AndUncrossed render text idx parts acc → evaluateAnd render text idx parts acc = none)
  | [], _ => by simp [AndUncrossed, evaluateAnd, meaningAnd]
  | part :: parts, acc => by
    have ih := evaluateFilterRecursive_spec part
    simp only [AndUncrossed, evaluateAnd, meaningAnd]
    by_cases hacc : acc = ∅
    · simp [hacc]
    · by_cases h : part.Uncrossed render text idx
      · rw [ih.1 h]
        cases hm : part.meaning render text idx with
        | error e => simp [h, hacc, bind, Except.bind]
        | ok s => simpa [h, hacc, bind, Except.bind] using evaluateAnd_spec parts (acc ∩ s)
      · simp [ih.2 h, h, hacc]

/-- The loop of a disjunction. -/
theorem evaluateOr_spec : ∀ parts acc, (OrUncrossed render text idx parts →
      evaluateOr render text idx parts acc = some (meaningOr render text idx parts acc)) ∧
    (¬ OrUncrossed render text idx parts → evaluateOr render text idx parts acc = none)
  | [], _ => by simp [OrUncrossed, evaluateOr, meaningOr]
  | part :: parts, acc => by
    have ih := evaluateFilterRecursive_spec part
    simp only [OrUncrossed, evaluateOr, meaningOr]
    by_cases h : part.Uncrossed render text idx
    · rw [ih.1 h]
      cases hm : part.meaning render text idx with
      | error e => simp [h, bind, Except.bind]
      | ok s => simpa [h, bind, Except.bind] using evaluateOr_spec parts (acc ∪ s)
    · simp [ih.2 h, h]

end

end Evaluation

end TurboMemory
