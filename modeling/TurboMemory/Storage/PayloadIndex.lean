import Mathlib.Algebra.Order.Ring.Unbundled.Rat
import TurboMemory.Lib.Postings
import TurboMemory.Storage.Record

/-!
# The payload index

Top-level fields of JSON payloads are indexed for filtered search: by keyword (strings,
booleans, numbers as strings) and by numeric value. Arrays are flattened. The JSON parser is
third-party code and a parameter. A number is finite, so its value is a rational number; zeros of
either sign are one value, as in the ordered index. A range whose start lies behind its end makes
the range lookup panic: `queryRange` has no result then.

## Main results

* `PayloadIndex.mem_numeric_ofOps` — an index holds exactly the numbers its operations leave
  indexed (`IndexedNumber`).
* `PayloadIndex.queryRange_eq`, `PayloadIndex.mem_numbersIn` — when a range lookup panics, and
  that it is exact otherwise.
-/

set_option autoImplicit false

namespace TurboMemory

open List

/-! ## Payloads -/

/-- A JSON number: its value and its canonical text. -/
structure JsonNum where
  value : ℚ
  text : String
deriving DecidableEq

/-- A parsed JSON value. -/
inductive Json
  | null
  | bool (b : Bool)
  | num (n : JsonNum)
  | str (s : String)
  | arr (items : List Json)
  | obj (fields : List (String × Json))

/-- The payload parser: the value, or the text of the error. -/
abbrev JsonParser := String → Except String Json

/-- The keyword a scalar is indexed under. -/
def Json.keyword? : Json → Option String
  | .str s => some s
  | .num n => some n.text
  | .bool b => some (toString b)
  | _ => none

/-- The value a number is indexed under. -/
def Json.number? : Json → Option ℚ
  | .num n => some n.value
  | _ => none

/-- The scalars of a field: the elements of an array, or the value itself. -/
def Json.scalars : Json → List Json
  | .arr items => items
  | v => [v]

/-- The numbers of a payload, by field. Only an object has fields. -/
def Json.numbers : Json → List (String × ℚ)
  | .obj fields => fields.flatMap fun f => (f.2.scalars.filterMap Json.number?).map (f.1, ·)
  | _ => []

/-- The numbers a payload is indexed under; one that does not parse has none. -/
def payloadNumbers (parse : JsonParser) : Option String → List (String × ℚ)
  | none => []
  | some payload =>
    match parse payload with
    | .ok value => value.numbers
    | .error _ => []

/-! ## The index -/

/-- Inverted index over JSON payloads. -/
structure PayloadIndex where
  keyword : Fielded String String := ∅
  numeric : Fielded String ℚ := ∅
  allOffsets : Bitmap := ∅

variable {payload : Option String} {parse : JsonParser} {field : String}

namespace PayloadIndex

/-- Index one scalar of a field: its number, if it is one, and its keyword. -/
def indexScalar (field : String) (offset : ℕ) (idx : PayloadIndex) (value : Json) :
    PayloadIndex where
  keyword := value.keyword?.elim idx.keyword (idx.keyword.add field · offset)
  numeric := value.number?.elim idx.numeric (idx.numeric.add field · offset)
  allOffsets := idx.allOffsets

/-- Drop one scalar of a field. -/
def removeScalar (field : String) (offset : ℕ) (idx : PayloadIndex) (value : Json) :
    PayloadIndex where
  keyword := value.keyword?.elim idx.keyword (idx.keyword.remove field · offset)
  numeric := value.number?.elim idx.numeric (idx.numeric.remove field · offset)
  allOffsets := idx.allOffsets

/-- Index a field: every element of an array, or the value. -/
def indexFieldValue (offset : ℕ) (idx : PayloadIndex) (field : String × Json) : PayloadIndex :=
  field.2.scalars.foldl (indexScalar field.1 offset) idx

/-- Drop a field. -/
def removeFieldValue (offset : ℕ) (idx : PayloadIndex) (field : String × Json) : PayloadIndex :=
  field.2.scalars.foldl (removeScalar field.1 offset) idx

variable (parse : JsonParser) (idx : PayloadIndex) (offset : PointOffset)

/-- Index the payload attached to `offset`. The offset is recorded before the payload is
parsed. -/
def add (payload : Option String) : Except StorageError Unit × PayloadIndex :=
  let idx := { idx with allOffsets := insert (bmOffset offset) idx.allOffsets }
  match payload with
  | none => (.ok (), idx)
  | some payload =>
    match parse payload with
    | .error e => (.error (.invalidArgument s!"invalid payload JSON: {e}"), idx)
    | .ok (.obj fields) => (.ok (), fields.foldl (indexFieldValue (bmOffset offset)) idx)
    | .ok _ => (.ok (), idx)

/-- Indexing a payload that parses succeeds. -/
lemma fst_add_of_parses {parse : JsonParser} (idx : PayloadIndex) (offset : PointOffset)
    (h : ∀ s, payload = some s → ∃ v, parse s = .ok v) :
    (idx.add parse offset payload).1 = .ok () := by
  cases payload with
  | none => rfl
  | some s =>
    obtain ⟨v, hv⟩ := h s rfl
    simp only [add, hv]
    cases v <;> rfl

/-- Remove an offset from all indexes. -/
def remove (payload : Option String) : PayloadIndex :=
  let idx := { idx with allOffsets := idx.allOffsets.erase (bmOffset offset) }
  match payload with
  | none => idx
  | some payload =>
    match parse payload with
    | .ok (.obj fields) => fields.foldl (removeFieldValue (bmOffset offset)) idx
    | _ => idx

/-- Build an index from metadata records; malformed payloads are ignored. -/
def fromMetaRecordsIter (records : List (PointOffset × MetaRecord)) : PayloadIndex :=
  records.foldl (fun idx p => (idx.add parse p.1 p.2.payload).2) {}

/-! ### What is indexed -/

/-- One of the two inverted indexes, with the key it has for a scalar. -/
structure Component (K : Type) [Ord K] [Std.TransOrd K] [Std.LawfulEqOrd K] where
  key? : Json → Option K
  part : PayloadIndex → Fielded String K
  part_indexScalar : ∀ field d idx v,
    part (indexScalar field d idx v) = (key? v).elim (part idx) ((part idx).add field · d)
  part_removeScalar : ∀ field d idx v,
    part (removeScalar field d idx v) = (key? v).elim (part idx) ((part idx).remove field · d)
  part_offsets : ∀ idx s, part { idx with allOffsets := s } = part idx
  part_empty : part {} = ∅

/-- The keyword index. -/
def keywords : Component String :=
  ⟨Json.keyword?, keyword, fun _ _ _ _ => rfl, fun _ _ _ _ => rfl, fun _ _ => rfl, rfl⟩

/-- The numeric index. -/
def numbers : Component ℚ :=
  ⟨Json.number?, numeric, fun _ _ _ _ => rfl, fun _ _ _ _ => rfl, fun _ _ => rfl, rfl⟩

namespace Component

variable {K : Type} [Ord K] [Std.TransOrd K] [Std.LawfulEqOrd K] (c : Component K)

/-- The keys of the fields of an object. -/
def keysOf (fields : List (String × Json)) : List (String × K) :=
  fields.flatMap fun f => (f.2.scalars.filterMap c.key?).map (f.1, ·)

/-- The keys a payload is indexed under; one that does not parse has none. -/
def payloadKeys (parse : JsonParser) (payload : Option String) : List (String × K) :=
  match payload.map parse with
  | some (.ok (.obj fields)) => c.keysOf fields
  | _ => []

/-- A loop over the scalars of an object that makes a step for each key makes one for every key of
the object. -/
lemma part_foldl {step : String → ℕ → PayloadIndex → Json → PayloadIndex}
    {one : Fielded String K → String → K → ℕ → Fielded String K}
    (hstep : ∀ field d idx v, c.part (step field d idx v) =
      (c.key? v).elim (c.part idx) (one (c.part idx) field · d)) (d : ℕ)
    (fields : List (String × Json)) (idx : PayloadIndex) :
    c.part (fields.foldl (fun idx f => f.2.scalars.foldl (step f.1 d) idx) idx) =
      (c.keysOf fields).foldl (fun p k => one p k.1 k.2 d) (c.part idx) := by
  have hscalars : ∀ (field : String) (scalars : List Json) (idx : PayloadIndex),
      c.part (scalars.foldl (step field d) idx) = ((scalars.filterMap c.key?).map (field, ·)).foldl
        (fun p k => one p k.1 k.2 d) (c.part idx) := by
    intro field scalars
    induction scalars with
    | nil => exact fun _ => rfl
    | cons v scalars ih =>
      intro idx
      rw [foldl_cons, ih, hstep]
      cases h : c.key? v <;> simp [h]
  induction fields generalizing idx with
  | nil => rfl
  | cons f fields ih =>
    rw [foldl_cons, ih, hscalars, ← foldl_append]
    rfl

section

variable (parse : JsonParser) (idx : PayloadIndex) (offset : PointOffset) (payload : Option String)

/-- `add` enters the keys of its payload. -/
lemma part_add : c.part (idx.add parse offset payload).2 =
      (c.part idx).addAll (c.payloadKeys parse payload) (bmOffset offset) := by
  cases payload with
  | none => exact c.part_offsets idx _
  | some s =>
    rw [add, payloadKeys, Option.map_some]
    rcases parse s with e | v
    · exact c.part_offsets idx _
    · cases v with
      | obj fields =>
        exact (c.part_foldl c.part_indexScalar _ fields _).trans (by rw [c.part_offsets]; rfl)
      | _ => exact c.part_offsets idx _

/-- `remove` drops the keys of its payload. -/
lemma part_remove : c.part (idx.remove parse offset payload) =
      (c.part idx).removeAll (c.payloadKeys parse payload) (bmOffset offset) := by
  cases payload with
  | none => exact c.part_offsets idx _
  | some s =>
    rw [remove, payloadKeys, Option.map_some]
    rcases parse s with e | v
    · exact c.part_offsets idx _
    · cases v with
      | obj fields =>
        exact (c.part_foldl c.part_removeScalar _ fields _).trans (by rw [c.part_offsets]; rfl)
      | _ => exact c.part_offsets idx _

end

end Component

/-- Indexing the fields leaves the set of all offsets alone. -/
lemma allOffsets_foldl_scalar (step : String → ℕ → PayloadIndex → Json → PayloadIndex)
    (hstep : ∀ field d idx v, (step field d idx v).allOffsets = idx.allOffsets) (d : ℕ)
    (fields : List (String × Json)) (idx : PayloadIndex) :
    (fields.foldl (fun idx f => f.2.scalars.foldl (step f.1 d) idx) idx).allOffsets =
      idx.allOffsets := by
  induction fields generalizing idx with
  | nil => rfl
  | cons f fields ih =>
    rw [foldl_cons, ih]
    generalize f.2.scalars = scalars
    induction scalars generalizing idx with
    | nil => rfl
    | cons v scalars ihv => rw [foldl_cons, ihv, hstep]

section

variable (payload : Option String)

/-- `add` enters its offset. -/
lemma allOffsets_add :
    (idx.add parse offset payload).2.allOffsets = insert (bmOffset offset) idx.allOffsets := by
  cases payload with
  | none => rfl
  | some s =>
    rw [add]
    rcases parse s with e | v
    · rfl
    · cases v with
      | obj fields => exact allOffsets_foldl_scalar indexScalar (fun _ _ _ _ => rfl) _ fields _
      | _ => rfl

/-- `remove` drops its offset. -/
lemma allOffsets_remove :
    (idx.remove parse offset payload).allOffsets = idx.allOffsets.erase (bmOffset offset) := by
  cases payload with
  | none => rfl
  | some s =>
    rw [remove]
    rcases parse s with e | v
    · rfl
    · cases v with
      | obj fields => exact allOffsets_foldl_scalar removeScalar (fun _ _ _ _ => rfl) _ fields _
      | _ => rfl

/-- The keys of the numeric index are the numbers of a payload. -/
lemma payloadKeys_numbers :
    numbers.payloadKeys parse payload = payloadNumbers parse payload := by
  cases payload with
  | none => rfl
  | some s =>
    rw [Component.payloadKeys, payloadNumbers, Option.map_some]
    rcases parse s with e | v
    · rfl
    · cases v <;> rfl

/-- `add` enters the numbers of its payload. -/
lemma numeric_add : (idx.add parse offset payload).2.numeric =
      idx.numeric.addAll (payloadNumbers parse payload) (bmOffset offset) :=
  payloadKeys_numbers parse payload ▸ numbers.part_add parse idx offset payload

/-- `remove` drops the numbers of its payload. -/
lemma numeric_remove : (idx.remove parse offset payload).numeric =
      idx.numeric.removeAll (payloadNumbers parse payload) (bmOffset offset) :=
  payloadKeys_numbers parse payload ▸ numbers.part_remove parse idx offset payload

end

end PayloadIndex

/-! ## Sequences of operations -/

/-- An operation on the index. -/
inductive IndexOp
  | add (offset : PointOffset) (payload : Option String)
  | remove (offset : PointOffset) (payload : Option String)
deriving DecidableEq

/-- The index after an operation; an error of `add` is not acted on. -/
def IndexOp.apply (parse : JsonParser) (idx : PayloadIndex) : IndexOp → PayloadIndex
  | .add offset payload => (idx.add parse offset payload).2
  | .remove offset payload => idx.remove parse offset payload

/-- The index a sequence of operations builds. -/
def PayloadIndex.ofOps (parse : JsonParser) (ops : List IndexOp) : PayloadIndex :=
  ops.foldl (IndexOp.apply parse) {}

/-- An offset has a number of a field indexed: some `add` entered it and no `remove` behind
that dropped it. -/
def IndexedNumber (parse : JsonParser) (ops : List IndexOp) (field : String) (q : ℚ) (d : ℕ) :
    Prop :=
  ∃ before offset payload after, ops = before ++ .add offset payload :: after ∧
    (field, q) ∈ payloadNumbers parse payload ∧ d = bmOffset offset ∧
    ∀ offset' payload', .remove offset' payload' ∈ after →
      ¬((field, q) ∈ payloadNumbers parse payload' ∧ d = bmOffset offset')

section IndexedNumber

variable {parse : JsonParser} {ops : List IndexOp} {field : String} {q : ℚ} {d : ℕ}

/-- Nothing is indexed at first. -/
lemma not_indexedNumber_nil : ¬ IndexedNumber parse [] field q d := by
  rintro ⟨before, offset, payload, after, h, _⟩
  simp at h

/-- One more `add` indexes its numbers, one more `remove` drops its own; the others are left. -/
lemma indexedNumber_concat {op : IndexOp} : IndexedNumber parse (ops ++ [op]) field q d ↔
      (∃ o p, op = .add o p ∧ (field, q) ∈ payloadNumbers parse p ∧ d = bmOffset o) ∨
      (∀ o p, op = .remove o p → ¬((field, q) ∈ payloadNumbers parse p ∧ d = bmOffset o)) ∧
        IndexedNumber parse ops field q d := by
  constructor
  · rintro ⟨before, o, p, after, h, hmem, hd, hafter⟩
    rcases eq_nil_or_concat after with rfl | ⟨after, op', rfl⟩
    · obtain ⟨rfl, hop⟩ := append_inj' h rfl
      exact .inl ⟨o, p, by simpa using hop, hmem, hd⟩
    · rw [concat_eq_append, ← cons_append, ← append_assoc] at h
      obtain ⟨rfl, hop⟩ := append_inj' h rfl
      obtain rfl : op = op' := by simpa using hop
      exact .inr ⟨fun o' p' hop' => hafter o' p' (by simp [hop']), before, o, p, after, rfl, hmem,
        hd, fun o' p' hmem' => hafter o' p' (by simp [hmem'])⟩
  · rintro (⟨o, p, rfl, hmem, hd⟩ | ⟨hnot, before, o, p, after, rfl, hmem, hd, hafter⟩)
    · exact ⟨ops, o, p, [], rfl, hmem, hd, by simp⟩
    · refine ⟨before, o, p, after ++ [op], by simp, hmem, hd, fun o' p' hmem' => ?_⟩
      rcases mem_append.mp hmem' with hmem' | hmem'
      · exact hafter o' p' hmem'
      · exact hnot o' p' (mem_singleton.mp hmem').symm

end IndexedNumber

namespace PayloadIndex

/-- An index holds exactly the numbers its operations leave indexed. -/
theorem mem_numeric_ofOps {ops : List IndexOp} {q : ℚ}
    {d : ℕ} : d ∈ (ofOps parse ops).numeric.at field q ↔ IndexedNumber parse ops field q d := by
  induction ops using reverseRecOn with
  | nil => simp [ofOps, not_indexedNumber_nil]
  | append_singleton ops op ih =>
    rw [ofOps, foldl_append, foldl_cons, foldl_nil, ← ofOps]
    cases op with
    | add offset payload =>
      rw [IndexOp.apply, numeric_add, Fielded.mem_at_addAll, ih, indexedNumber_concat]
      simp
    | remove offset payload =>
      rw [IndexOp.apply, numeric_remove, Fielded.mem_at_removeAll, ih, indexedNumber_concat]
      simp

end PayloadIndex

/-! ## Filters -/

/-- A float as a range bound can hold it. -/
inductive F64
  | finite (q : ℚ)
  | infinite (negative : Bool)
  | nan
deriving DecidableEq

/-- A bound of a range. -/
inductive Bound
  | included (x : F64)
  | excluded (x : F64)
  | unbounded

/-- A filter predicate that can be evaluated against the payload index. -/
inductive Filter
  | eq (field : String) (value : Json)
  | range (field : String) (low high : Bound)
  | fullText (field query : String)
  | and (parts : List Filter)
  | or (parts : List Filter)
  | not (inner : Filter)

/-- The keyword an equality filter looks up. A compound value is looked up by its text, which
`text` renders. -/
def valueToKeyword (text : Json → String) : Json → String
  | .str s => s
  | .num n => n.text
  | .bool b => toString b
  | .null => "null"
  | other => text other

namespace Bound

/-- A bound that is not a number does not bound. -/
def mapBound : Bound → Bound
  | .included .nan => .unbounded
  | .excluded .nan => .unbounded
  | b => b

/-- Whether a value lies above a lower bound. -/
def isAbove (q : ℚ) : Bound → Bool
  | .included (.finite x) => x ≤ q
  | .excluded (.finite x) => x < q
  | .included (.infinite negative) => negative
  | .excluded (.infinite negative) => negative
  | _ => true

/-- Whether a value lies below an upper bound. -/
def isBelow (q : ℚ) : Bound → Bool
  | .included (.finite x) => q ≤ x
  | .excluded (.finite x) => q < x
  | .included (.infinite negative) => !negative
  | .excluded (.infinite negative) => !negative
  | _ => true

/-- Mapping a bound keeps what is above it. -/
@[simp] lemma isAbove_mapBound (q : ℚ) (b : Bound) : b.mapBound.isAbove q = b.isAbove q := by
  rcases b with (_ | _ | _) | (_ | _ | _) | _ <;> rfl

/-- And what is below it. -/
@[simp] lemma isBelow_mapBound (q : ℚ) (b : Bound) : b.mapBound.isBelow q = b.isBelow q := by
  rcases b with (_ | _ | _) | (_ | _ | _) | _ <;> rfl

/-- `x < y` on the extended line. -/
def f64Lt : F64 → F64 → Bool
  | .finite x, .finite y => x < y
  | .finite _, .infinite negative => !negative
  | .infinite negative, .finite _ => negative
  | .infinite a, .infinite b => a && !b
  | _, _ => false

/-- Bounds on which a range lookup panics: the start lies behind the end, or both exclude the
same value. -/
def panics : Bound → Bound → Bool
  | .included x, .included y => f64Lt y x
  | .included x, .excluded y => f64Lt y x
  | .excluded x, .included y => f64Lt y x
  | .excluded x, .excluded y => f64Lt y x || x == y
  | _, _ => false

end Bound

namespace PayloadIndex

/-- The offsets of a keyword. -/
def queryEq (text : Json → String) (idx : PayloadIndex) (field : String) (value : Json) : Bitmap :=
  idx.keyword.at field (valueToKeyword text value)

/-- The offsets whose number lies in a range. A field without numbers is not looked into, and
cannot panic. -/
def queryRange (idx : PayloadIndex) (field : String) (low high : Bound) : Option Bitmap :=
  match idx.numeric[field]? with
  | none => some ∅
  | some tree =>
    let low := low.mapBound
    let high := high.mapBound
    if low.panics high then none
    else some (tree.toList.foldl (fun result p =>
      if low.isAbove p.1 && high.isBelow p.1 then result ∪ p.2 else result) ∅)

mutual

/-- Evaluate a filter without the text index; no result stands for a panic. -/
def queryInner (text : Json → String) (idx : PayloadIndex) : Filter → Option Bitmap
  | .eq field value => some (idx.queryEq text field value)
  | .range field low high => idx.queryRange field low high
  | .fullText _ _ => some ∅
  | .and [] => some ∅
  | .and (first :: parts) =>
    match queryInner text idx first with
    | none => none
    | some acc => queryAnd text idx parts acc
  | .or parts => queryOr text idx parts ∅
  | .not inner =>
    match queryInner text idx inner with
    | none => none
    | some positives => some (idx.allOffsets \ positives)

/-- The loop over the further parts of a conjunction. -/
def queryAnd (text : Json → String) (idx : PayloadIndex) : List Filter → Bitmap → Option Bitmap
  | [], acc => some acc
  | part :: parts, acc =>
    if acc = ∅ then some acc
    else
      match queryInner text idx part with
      | none => none
      | some s => queryAnd text idx parts (acc ∩ s)

/-- The loop over the parts of a disjunction. -/
def queryOr (text : Json → String) (idx : PayloadIndex) : List Filter → Bitmap → Option Bitmap
  | [], acc => some acc
  | part :: parts, acc =>
    match queryInner text idx part with
    | none => none
    | some s => queryOr text idx parts (acc ∪ s)

end

/-- Evaluate a filter and return the matching offsets. -/
def query (text : Json → String) (idx : PayloadIndex) (filter : Filter) : Option Bitmap :=
  idx.queryInner text filter

/-- The offsets with a number inside two bounds, whichever these are. A bound that is not a
number does not bound. -/
def numbersIn (idx : PayloadIndex) (field : String) (low high : Bound) : Bitmap :=
  (idx.numeric[field]?.getD ∅).toList.foldl (fun result p =>
    if low.isAbove p.1 && high.isBelow p.1 then result ∪ p.2 else result) ∅

/-- The union of the sets of the entries that pass a test. -/
lemma mem_foldl_union {K : Type} (test : K → Bool) {entries : List (K × Bitmap)}
    {result : Bitmap} {d : ℕ} :
    d ∈ entries.foldl (fun result p => if test p.1 then result ∪ p.2 else result) result ↔
      d ∈ result ∨ ∃ p ∈ entries, test p.1 ∧ d ∈ p.2 := by
  induction entries generalizing result with
  | nil => simp
  | cons p entries ih =>
    rw [foldl_cons, ih]
    by_cases h : test p.1 <;> simp [h, or_assoc]

/-- Membership in the numbers inside two bounds. -/
lemma mem_numbersIn {idx : PayloadIndex} {low high : Bound} {d : ℕ} :
    d ∈ idx.numbersIn field low high ↔
      ∃ q, d ∈ idx.numeric.at field q ∧ low.isAbove q ∧ high.isBelow q := by
  refine (mem_foldl_union fun q => low.isAbove q && high.isBelow q).trans ?_
  simp only [Finset.notMem_empty, false_or, Prod.exists,
    Std.ExtTreeMap.mem_toList_iff_getElem?_eq_some, Bool.and_eq_true, Fielded.at, Postings.at]
  constructor
  · rintro ⟨q, t, hq, hin, hd⟩
    exact ⟨q, by simpa [hq] using hd, hin⟩
  · rintro ⟨q, hd, hin⟩
    cases hq : (idx.numeric[field]?.getD ∅)[q]? with
    | none => simp [hq] at hd
    | some t => exact ⟨q, t, hq, hin, by simpa [hq] using hd⟩

/-- A range lookup panics exactly on crossed bounds of a field that has a tree, and is exact
otherwise. -/
lemma queryRange_eq (idx : PayloadIndex) (field : String) (low high : Bound) :
    idx.queryRange field low high =
      if field ∈ idx.numeric ∧ low.mapBound.panics high.mapBound then none
      else some (idx.numbersIn field low high) := by
  simp only [queryRange, numbersIn, Std.ExtTreeMap.mem_iff_isSome_getElem?]
  cases idx.numeric[field]? with
  | none => rfl
  | some tree => simp

end PayloadIndex

end TurboMemory
