import TurboMemory.Search.Filter

/-!
# Filters of requests

A search request carries its filter as a protobuf message or as a JSON object. Both are
converted into the filter tree of the storage engine, which limits the nesting and checks the
shape, but not the bounds of a range. The converters count the depth upwards to `maxFilterDepth`;
here the recursion is on the levels that are left.

## Main results

* `evaluateFilter_total` — for every index, every request and every text index: evaluating the
  accepted filter does not panic and a range is answered exactly, just if no range that is
  looked up has crossed bounds on a field with a number.
-/

set_option autoImplicit false

namespace TurboMemory

/-- The errors of the converters. -/
inductive ApiError
  | invalidFilter (message : String)
deriving DecidableEq

/-- The maximum nesting of a filter. -/
def maxFilterDepth : ℕ := 32

/-- The error of a filter that is nested too deeply. -/
def tooDeep : ApiError :=
  .invalidFilter s!"filter nesting exceeds the maximum depth of {maxFilterDepth}"

/-- A bound given by a number, or none. -/
def boundOf (value : Option F64) (inclusive : Bool) : Bound :=
  match value with
  | some v => if inclusive then .included v else .excluded v
  | none => .unbounded

/-! ## Protobuf -/

/-- The `Filter` message; `empty` has no kind set. -/
inductive PbFilter
  | empty
  | eq (field valueJson : String)
  | range (field : String) (low high : Option F64) (lowInclusive highInclusive : Bool)
  | fullText (field query : String)
  | and (filters : List PbFilter)
  | or (filters : List PbFilter)
  | not (inner : PbFilter)

/-- Convert a message with `n` levels left. -/
def convertPbFilter (parse : JsonParser) : ℕ → PbFilter → Except ApiError Filter
  | 0, _ => .error tooDeep
  | _ + 1, .empty => .error (.invalidFilter "empty filter")
  | _ + 1, .eq field valueJson =>
    match parse valueJson with
    | .ok value => .ok (.eq field value)
    | .error e => .error (.invalidFilter s!"eq value_json: {e}")
  | _ + 1, .range field low high lowInclusive highInclusive =>
    .ok (.range field (boundOf low lowInclusive) (boundOf high highInclusive))
  | _ + 1, .fullText field query => .ok (.fullText field query)
  | n + 1, .and filters => (filters.mapM (convertPbFilter parse n)).map .and
  | n + 1, .or filters => (filters.mapM (convertPbFilter parse n)).map .or
  | n + 1, .not inner => (convertPbFilter parse n inner).map .not

/-- Convert a gRPC filter. -/
def pbFilterToStorage (parse : JsonParser) :
    Option PbFilter → Except ApiError (Option Filter)
  | none => .ok none
  | some f => (convertPbFilter parse maxFilterDepth f).map some

/-! ## JSON -/

namespace Json

/-- The value of a key. -/
def get? (fields : List (String × Json)) (key : String) : Option Json := fields.lookup key

/-- The string this value is. -/
def asStr : Json → Option String
  | .str s => some s
  | _ => none

/-- The number this value is. -/
def asF64 : Json → Option F64
  | .num n => some (.finite n.value)
  | _ => none

/-- The boolean this value is. -/
def asBool : Json → Option Bool
  | .bool b => some b
  | _ => none

/-- The elements of an array. -/
def asArray : Json → Option (List Json)
  | .arr items => some items
  | _ => none

end Json

/-- A part of a filter object, or the error that it is missing. -/
def require {α : Type} (message : String) : Option α → Except ApiError α
  | some a => .ok a
  | none => .error (.invalidFilter message)

/-- Convert an object with `n` levels left. -/
def convertJsonFilter : ℕ → Json → Except ApiError Filter
  | 0, _ => .error tooDeep
  | n + 1, .obj fields => do
    let op ← require "filter missing op" ((Json.get? fields "op").bind Json.asStr)
    let field? := (Json.get? fields "field").bind Json.asStr
    match op with
    | "eq" =>
      let field ← require "eq missing field" field?
      .ok (.eq field ((Json.get? fields "value").getD .null))
    | "range" =>
      let field ← require "range missing field" field?
      let low := (Json.get? fields "low").bind Json.asF64
      let high := (Json.get? fields "high").bind Json.asF64
      let lowInclusive := ((Json.get? fields "low_inclusive").bind Json.asBool).getD true
      let highInclusive := ((Json.get? fields "high_inclusive").bind Json.asBool).getD true
      .ok (.range field (boundOf low lowInclusive) (boundOf high highInclusive))
    | "full_text" =>
      let field ← require "full_text missing field" field?
      let query ← require "full_text missing query" ((Json.get? fields "query").bind Json.asStr)
      .ok (.fullText field query)
    | "and" =>
      let filters ← require "and missing filters" ((Json.get? fields "filters").bind Json.asArray)
      (filters.mapM (convertJsonFilter n)).map .and
    | "or" =>
      let filters ← require "or missing filters" ((Json.get? fields "filters").bind Json.asArray)
      (filters.mapM (convertJsonFilter n)).map .or
    | "not" =>
      let inner ← require "not missing filter" (Json.get? fields "filter")
      (convertJsonFilter n inner).map .not
    | other => .error (.invalidFilter s!"unknown op: {other}")
  | _ + 1, _ => .error (.invalidFilter "filter must be a JSON object")

/-- Convert a JSON filter. -/
def jsonFilterToStorage : Json → Except ApiError (Option Filter)
  | .null => .ok none
  | value => (convertJsonFilter maxFilterDepth value).map some

/-! ## Requests -/

/-- The filter of a request. -/
inductive FilterRequest
  | pb (filter : Option PbFilter)
  | json (value : Json)

/-- The filter tree of a request. -/
def FilterRequest.toStorage (parse : JsonParser) :
    FilterRequest → Except ApiError (Option Filter)
  | .pb filter => pbFilterToStorage parse filter
  | .json value => jsonFilterToStorage value

/-- A filter is evaluated without a panic, and a range gives exactly the offsets with an indexed
number of its field inside the bounds. -/
def AnsweredExactly (parse : JsonParser) (render : Json → String) (text : TextSearch)
    (ops : List IndexOp) (f : Filter) : Prop :=
  (∃ r, evaluateFilter render text (.ofOps parse ops) f = some r) ∧
    ∀ field low high, f = .range field low high →
      ∃ s, evaluateFilter render text (.ofOps parse ops) f = some (.ok s) ∧
        ∀ d, d ∈ s ↔ ∃ q, IndexedNumber parse ops field q d ∧ low.isAbove q ∧ high.isBelow q

/-- The filter gets to be evaluated: if it has a full-text query, committing the text index
succeeds. -/
def Evaluated (text : TextSearch) (f : Filter) : Prop :=
  f.usesFullText → text.commitIfPending = .ok ()

section Total

variable {parse : JsonParser} {render : Json → String} {text : TextSearch} {idx : PayloadIndex}

/-- A filter is evaluated without a panic just if no range that is looked up has crossed
bounds. -/
lemma exists_evaluateFilter_iff {f : Filter} :
    (∃ r, evaluateFilter render text idx f = some r) ↔
      (Evaluated text f → f.Uncrossed render text idx) := by
  have hspec := @evaluateFilterRecursive_spec render text idx f
  rw [evaluateFilter, Evaluated]
  constructor
  · rintro ⟨r, hr⟩ hevaluated
    by_contra hcrossed
    by_cases hfull : f.usesFullText
    · simp [hfull, hevaluated hfull, hspec.2 hcrossed] at hr
    · simp [hfull, hspec.2 hcrossed] at hr
  · intro h
    by_cases hfull : f.usesFullText
    · cases hcommit : text.commitIfPending with
      | error e => exact ⟨.error e, by simp [hfull]⟩
      | ok u => exact ⟨_, by simpa [hfull] using hspec.1 (h fun _ => hcommit)⟩
    · exact ⟨_, by simpa [hfull] using hspec.1 (h fun hfull' => absurd hfull' hfull)⟩

/-- Filters are answered, and ranges exactly, just if no range that is looked up has crossed bounds
on a field that has had a number. **Proof sketch.** `exists_evaluateFilter_iff` says when there is
no panic. A range that does not panic returns `PayloadIndex.numbersIn`, the numbers that the
operations left (`PayloadIndex.mem_numeric_ofOps`). -/
theorem evaluateFilter_total (parse : JsonParser) (render : Json → String) (text : TextSearch)
    (ops : List IndexOp) (request : FilterRequest) : (∀ f, request.toStorage parse = .ok (some f) →
        AnsweredExactly parse render text ops f) ↔ ∀ f, request.toStorage parse = .ok (some f) →
        Evaluated text f → f.Uncrossed render text (.ofOps parse ops) := by
  refine forall_congr' fun f => imp_congr_right fun _ => ?_
  rw [AnsweredExactly, exists_evaluateFilter_iff]
  refine ⟨And.left, fun h => ⟨h, ?_⟩⟩
  rintro field low high rfl
  have hrange : Filter.Uncrossed render text (.ofOps parse ops) (.range field low high) :=
    h fun hfull => by simp [Filter.usesFullText] at hfull
  refine ⟨(PayloadIndex.ofOps parse ops).numbersIn field low high, ?_, fun d => ?_⟩
  · rw [evaluateFilter, if_neg (by simp [Filter.usesFullText]),
      (evaluateFilterRecursive_spec _).1 hrange, Filter.meaning]
  · simp only [PayloadIndex.mem_numbersIn, PayloadIndex.mem_numeric_ofOps]

/-- The parser on the payload of the example below. -/
def parseSample : JsonParser := fun s =>
  if s = "\x7b\"n\":1\x7d" then .ok (.obj [("n", .num ⟨1, "1"⟩)])
  else .error "expected value"

/-- A JSON request for the numbers of a field from 10 to 5 is accepted, and panics once the
field has a number. -/
theorem evaluateFilter_panics_low_above_high :
    let request : FilterRequest := .json (.obj [("op", .str "range"), ("field", .str "n"),
      ("low", .num ⟨10, "10"⟩), ("high", .num ⟨5, "5"⟩)])
    let filter : Filter := .range "n" (.included (.finite 10)) (.included (.finite 5))
    request.toStorage parseSample = .ok (some filter) ∧
      evaluateFilter (fun _ => "") ⟨.ok (), fun _ => .ok ∅⟩
        (.ofOps parseSample [.add 0 (some "\x7b\"n\":1\x7d")]) filter = none := by
  refine ⟨rfl, ?_⟩
  decide +kernel

end Total

end TurboMemory
