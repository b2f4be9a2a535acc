import TurboMemory.Search.Filter

/-!
# What a filter selects

A filter without a full-text query is a predicate on payloads (`Filter.Matches`). Both evaluations,
the index's own and the engine's, select exactly the indexed offsets whose payload satisfies it.
Nulls and compound elements are not indexed, so an equality filter compares its keyword with
strings, numbers and booleans only.

## Main results

* `IndexRun.holds` — after additions and removals, in which every removal names the payload the
  offset was added with, the index holds exactly what is indexed.
* `evaluateFilter_eq_query` — the two evaluations agree.
* `queryInner_exact`, `evaluateFilter_exact` — they select the offsets whose payload matches.
-/

set_option autoImplicit false

namespace TurboMemory

open PayloadIndex List Function

/-! ## The predicate -/

/-- The scalars of a top-level field of a payload; only an object has fields. -/
def fieldScalars (parse : JsonParser) (payload : Option String) (field : String) : List Json :=
  match payload.map parse with
  | some (.ok (.obj fields)) => (fields.filter (·.1 = field)).flatMap (·.2.scalars)
  | _ => []

section Matches

variable (render : Json → String) (parse : JsonParser) (payload : Option String)

mutual

/-- Whether a payload satisfies a filter. -/
def Filter.Matches : Filter → Prop
  | .eq field value => ∃ v ∈ fieldScalars parse payload field,
      v.keyword? = some (valueToKeyword render value)
  | .range field low high => ∃ v ∈ fieldScalars parse payload field, ∃ q, v.number? = some q ∧
      low.isAbove q ∧ high.isBelow q
  | .fullText _ _ => False
  | .and parts => AllMatch parts
  | .or parts => AnyMatches parts
  | .not inner => ¬ inner.Matches

/-- Whether a payload satisfies all of some filters. -/
def AllMatch : List Filter → Prop
  | [] => True
  | part :: parts => part.Matches ∧ AllMatch parts

/-- Whether a payload satisfies one of some filters. -/
def AnyMatches : List Filter → Prop
  | [] => False
  | part :: parts => part.Matches ∨ AnyMatches parts

end

end Matches

mutual

/-- A filter without a full-text query, empty conjunctions and crossed bounds. -/
def Filter.Valid : Filter → Prop
  | .eq _ _ => True
  | .range _ low high => low.mapBound.panics high.mapBound = false
  | .fullText _ _ => False
  | .and parts => parts ≠ [] ∧ AllValid parts
  | .or parts => AllValid parts
  | .not inner => inner.Valid

/-- The same for every one of some filters. -/
def AllValid : List Filter → Prop
  | [] => True
  | part :: parts => part.Valid ∧ AllValid parts

end

/-! ## The two evaluations agree -/

mutual

/-- A valid filter has no full-text query. -/
lemma usesFullText_of_valid : ∀ f : Filter, f.Valid → f.usesFullText = false
  | .eq _ _, _ => rfl
  | .range _ _ _, _ => rfl
  | .fullText _ _, h => nomatch h
  | .and parts, h => anyUsesFullText_of_valid parts h.2
  | .or parts, h => anyUsesFullText_of_valid parts h
  | .not inner, h => usesFullText_of_valid inner h

/-- Nor has any of several. -/
lemma anyUsesFullText_of_valid : ∀ parts : List Filter, AllValid parts →
    anyUsesFullText parts = false
  | [], _ => rfl
  | part :: parts, h => by
    rw [anyUsesFullText, usesFullText_of_valid part h.1, anyUsesFullText_of_valid parts h.2]
    rfl

end

section Agreement

variable {render : Json → String} {text : TextSearch} {idx : PayloadIndex}

mutual

/-- The two evaluations of a tree agree. -/
lemma evaluateFilterRecursive_eq_query : ∀ f, f.Valid →
    evaluateFilterRecursive render text idx f = (idx.queryInner render f).map .ok
  | .eq _ _, _ => rfl
  | .range _ _ _, _ => rfl
  | .fullText _ _, h => nomatch h
  | .and [], h => absurd rfl h.1
  | .and (first :: parts), h => by
    rw [evaluateFilterRecursive, queryInner, evaluateFilterRecursive_eq_query first h.2.1]
    cases idx.queryInner render first with
    | none => rfl
    | some acc => exact evaluateAnd_eq_query parts h.2.2 acc
  | .or parts, h => by
    rw [evaluateFilterRecursive, queryInner]
    exact evaluateOr_eq_query parts h ∅
  | .not inner, h => by
    rw [evaluateFilterRecursive, queryInner, evaluateFilterRecursive_eq_query inner h]
    cases idx.queryInner render inner <;> rfl

/-- Those of a conjunction. -/
lemma evaluateAnd_eq_query : ∀ parts, AllValid parts → ∀ acc,
    evaluateAnd render text idx parts acc = (idx.queryAnd render parts acc).map .ok
  | [], _, _ => rfl
  | part :: parts, h, acc => by
    rw [evaluateAnd, queryAnd, evaluateFilterRecursive_eq_query part h.1]
    split
    · rfl
    · cases idx.queryInner render part with
      | none => rfl
      | some s => exact evaluateAnd_eq_query parts h.2 (acc ∩ s)

/-- Those of a disjunction. -/
lemma evaluateOr_eq_query : ∀ parts, AllValid parts → ∀ acc,
    evaluateOr render text idx parts acc = (idx.queryOr render parts acc).map .ok
  | [], _, _ => rfl
  | part :: parts, h, acc => by
    rw [evaluateOr, queryOr, evaluateFilterRecursive_eq_query part h.1]
    cases idx.queryInner render part with
    | none => rfl
    | some s => exact evaluateOr_eq_query parts h.2 (acc ∪ s)

end

/-- The engine evaluates a filter without full-text queries as the index does. -/
lemma evaluateFilter_eq_query {f : Filter} (h : f.Valid) :
    evaluateFilter render text idx f = (idx.query render f).map .ok := by
  rw [evaluateFilter, usesFullText_of_valid f h]
  exact evaluateFilterRecursive_eq_query f h

end Agreement

/-! ## What is indexed -/

/-- A sequence of operations in which an offset is added only while it is not indexed, and removed
with the payload it was added with; and the payloads indexed. -/
inductive IndexRun (parse : JsonParser) :
    List IndexOp → (PointOffset → Option (Option String)) → Prop
  | empty : IndexRun parse [] fun _ => none
  | add {ops indexed} (run : IndexRun parse ops indexed) {offset : PointOffset}
      (fresh : indexed offset = none) (bound : offset < 2 ^ 32) {payload : Option String}
      (valid : ∀ s, payload = some s → ∃ v, parse s = .ok v) :
      IndexRun parse (ops ++ [.add offset payload])
        (update indexed offset (some payload))
  | remove {ops indexed} (run : IndexRun parse ops indexed) {offset : PointOffset}
      {payload : Option String} (added : indexed offset = some payload) :
      IndexRun parse (ops ++ [.remove offset payload]) (update indexed offset none)

section IndexRun

variable {parse : JsonParser} {ops : List IndexOp}
  {indexed : PointOffset → Option (Option String)} {payload : Option String}

/-- One more operation. -/
lemma ofOps_concat (ops : List IndexOp) (op : IndexOp) :
    ofOps parse (ops ++ [op]) = op.apply parse (ofOps parse ops) := by
  rw [ofOps, foldl_append, foldl_cons, foldl_nil, ← ofOps]

/-- What is indexed with a property after one more offset. -/
lemma exists_update_some {o d : PointOffset} (hfresh : indexed o = none) (payload : Option String)
    (Q : Option String → Prop) : (∃ p, update indexed o (some payload) d = some p ∧ Q p) ↔
      Q payload ∧ d = o ∨ ∃ p, indexed d = some p ∧ Q p := by
  by_cases hd : d = o
  · subst hd
    simp [hfresh]
  · simp [hd]

/-- What is indexed with a property after the removal of an offset. -/
lemma exists_update_none {o d : PointOffset}
    (hadded : ∀ p, indexed o = some p → p = payload) (Q : Option String → Prop) :
    (∃ p, update indexed o none d = some p ∧ Q p) ↔
      ¬(Q payload ∧ d = o) ∧ ∃ p, indexed d = some p ∧ Q p := by
  by_cases hd : d = o
  · subst hd
    simp only [update_self, reduceCtorEq, false_and, exists_false, and_true, false_iff]
    rintro ⟨hQ, p, hp, hQp⟩
    exact hQ (hadded p hp ▸ hQp)
  · simp [hd]

/-- The index holds exactly the keys of the payloads that are indexed, and their offsets. -/
structure PayloadIndex.Holds (parse : JsonParser) (idx : PayloadIndex)
    (indexed : PointOffset → Option (Option String)) : Prop where
  bound : ∀ o payload, indexed o = some payload → o < 2 ^ 32
  mem_allOffsets : ∀ d, d ∈ idx.allOffsets ↔ ∃ payload, indexed d = some payload
  mem_part : ∀ {K : Type} [Ord K] [Std.TransOrd K] [Std.LawfulEqOrd K]
    (c : Component K) (field : String) (k : K) (d : ℕ), d ∈ (c.part idx).at field k ↔
      ∃ payload, indexed d = some payload ∧ (field, k) ∈ c.payloadKeys parse payload

namespace PayloadIndex

variable {idx : PayloadIndex} {o : PointOffset}

/-- An empty index holds no payload. -/
lemma holds_empty : ({} : PayloadIndex).Holds parse fun _ => none where
  bound _ _ h := by cases h
  mem_allOffsets d := by simp
  mem_part c field k d := by simp [c.part_empty]

section

variable (h : idx.Holds parse indexed)
include h

/-- An offset is added with its payload. -/
lemma Holds.add (hfresh : indexed o = none) (hbound : o < 2 ^ 32) (payload : Option String) :
    (idx.add parse o payload).2.Holds parse (update indexed o (some payload)) := by
  have hbm : bmOffset o = o := Nat.mod_eq_of_lt hbound
  refine ⟨lt_of_update h.bound hbound _, fun d => ?_, fun c field k d => ?_⟩
  · have hupdate := exists_update_some (d := d) hfresh payload fun _ => True
    simp only [and_true, true_and] at hupdate
    rw [allOffsets_add, Finset.mem_insert, h.mem_allOffsets, hupdate, hbm]
  · rw [c.part_add, Fielded.mem_at_addAll, h.mem_part, exists_update_some hfresh, hbm]

/-- An offset is removed with the payload it was added with, if it was added at all. -/
lemma Holds.drop (hadded : ∀ p, indexed o = some p → p = payload) (hbound : o < 2 ^ 32) :
    (idx.remove parse o payload).Holds parse (update indexed o none) := by
  have hbm : bmOffset o = o := Nat.mod_eq_of_lt hbound
  refine ⟨lt_of_update h.bound hbound _, fun d => ?_, fun c field k d => ?_⟩
  · have hupdate := exists_update_none (d := d) hadded fun _ => True
    simp only [and_true, true_and] at hupdate
    rw [allOffsets_remove, Finset.mem_erase, h.mem_allOffsets, hupdate, hbm]
  · rw [c.part_remove, Fielded.mem_at_removeAll, h.mem_part, exists_update_none hadded, hbm]

/-- An offset is removed with the payload it was added with. -/
lemma Holds.remove (hadded : indexed o = some payload) :
    (idx.remove parse o payload).Holds parse (update indexed o none) :=
  h.drop (fun _ hp => Option.some.inj (hp.symm.trans hadded)) (h.bound o payload hadded)

end

end PayloadIndex

/-- The index that a sequence of operations builds holds what it leaves indexed. -/
lemma IndexRun.holds (h : IndexRun parse ops indexed) : (ofOps parse ops).Holds parse indexed := by
  induction h with
  | empty => exact holds_empty
  | add _ fresh bound _ ih =>
    rw [ofOps_concat]
    exact ih.add fresh bound _
  | remove _ added ih =>
    rw [ofOps_concat]
    exact ih.remove added

/-- The keys of a payload are those of the scalars of its fields. -/
lemma mem_payloadKeys {K : Type} [Ord K] [Std.TransOrd K] [Std.LawfulEqOrd K]
    (c : Component K) {field : String} {k : K} : (field, k) ∈ c.payloadKeys parse payload ↔
      ∃ v ∈ fieldScalars parse payload field, c.key? v = some k := by
  unfold Component.payloadKeys fieldScalars
  cases hvalue : payload.map parse with
  | none => simp
  | some value =>
  rcases value with e | v
  · simp
  cases v with
  | obj fields =>
    simp only [Component.keysOf, mem_flatMap, mem_map, mem_filterMap,
      mem_filter, Prod.mk.injEq, decide_eq_true_eq]
    constructor
    · rintro ⟨f, hf, k', ⟨v, hv, hk⟩, rfl, rfl⟩
      exact ⟨v, ⟨f, ⟨hf, rfl⟩, hv⟩, hk⟩
    · rintro ⟨v, ⟨f, ⟨hf, rfl⟩, hv⟩, hk⟩
      exact ⟨f, hf, k, ⟨v, hv, hk⟩, rfl, rfl⟩
  | _ => simp

/-! ## Exactness -/

/-- A set of offsets is that of the indexed payloads with a property. -/
def Selects (indexed : PointOffset → Option (Option String)) (s : Bitmap)
    (Q : Option String → Prop) : Prop :=
  ∀ d : ℕ, d ∈ s ↔ ∃ payload, indexed d = some payload ∧ Q payload

variable {s t : Bitmap} {Q Q' : Option String → Prop}

section

variable (h : Selects indexed s Q)
include h

/-- Whether an indexed offset is selected. -/
lemma Selects.iff_of_indexed {d : ℕ}
    (hd : indexed d = some payload) : d ∈ s ↔ Q payload := by
  rw [h d]
  constructor
  · rintro ⟨payload', hd', hQ⟩
    cases hd.symm.trans hd'
    exact hQ
  · exact fun hQ => ⟨payload, hd, hQ⟩

/-- Both predicates hold. -/
lemma Selects.inter (h' : Selects indexed t Q') :
    Selects indexed (s ∩ t) fun payload => Q payload ∧ Q' payload := by
  intro d
  rw [Finset.mem_inter, h d]
  constructor
  · rintro ⟨⟨payload, hd, hQ⟩, ht⟩
    exact ⟨payload, hd, hQ, (h'.iff_of_indexed hd).mp ht⟩
  · rintro ⟨payload, hd, hQ, hQ'⟩
    exact ⟨⟨payload, hd, hQ⟩, (h'.iff_of_indexed hd).mpr hQ'⟩

/-- One of them holds. -/
lemma Selects.union (h' : Selects indexed t Q') :
    Selects indexed (s ∪ t) fun payload => Q payload ∨ Q' payload := by
  intro d
  rw [Finset.mem_union, h d, h' d, ← exists_or]
  simp only [and_or_left]

end

/-- The predicate does not hold. -/
lemma Selects.compl (hall : Selects indexed t fun _ => True) (h : Selects indexed s Q) :
    Selects indexed (t \ s) fun payload => ¬ Q payload := by
  intro d
  rw [Finset.mem_sdiff, hall d]
  constructor
  · rintro ⟨⟨payload, hd, -⟩, hs⟩
    exact ⟨payload, hd, fun hQ => hs ((h.iff_of_indexed hd).mpr hQ)⟩
  · rintro ⟨payload, hd, hQ⟩
    exact ⟨⟨payload, hd, trivial⟩, fun hs => hQ ((h.iff_of_indexed hd).mp hs)⟩

/-- The same predicate. -/
lemma Selects.congr (h : Selects indexed s Q) (hQ : ∀ payload, Q payload ↔ Q' payload) :
    Selects indexed s Q' := by
  intro d
  simp only [h d, hQ]

variable {render : Json → String} {idx : PayloadIndex}

mutual

/-- The index selects the offsets whose payload matches. **Proof sketch.** By recursion over the
filter. A keyword or a number is looked up in its inverted index, which holds exactly the keys of
the indexed payloads (`PayloadIndex.Holds`). If a conjunction stops at an empty result, no payload
satisfies it. A negation is taken within the indexed offsets. -/
lemma queryInner_exact (h : idx.Holds parse indexed) : ∀ f : Filter, f.Valid →
    ∃ s, idx.queryInner render f = some s ∧
      Selects indexed s fun payload => f.Matches render parse payload
  | .eq field value, _ => by
    refine ⟨_, rfl, fun d => ?_⟩
    have hkey : d ∈ idx.queryEq render field value ↔
        ∃ payload, indexed d = some payload ∧ (field, valueToKeyword render value) ∈
          keywords.payloadKeys parse payload := h.mem_part keywords _ _ _
    simp only [mem_payloadKeys] at hkey
    exact hkey
  | .range field low high, hvalid => by
    refine ⟨_, (queryRange_eq ..).trans (if_neg ?_), fun d => ?_⟩
    · rw [hvalid]
      simp
    · have hkey : ∀ q, d ∈ idx.numeric.at field q ↔ ∃ payload, indexed d = some payload ∧
            (field, q) ∈ numbers.payloadKeys parse payload :=
        fun q => h.mem_part numbers _ _ _
      simp only [mem_numbersIn, hkey, mem_payloadKeys]
      constructor
      · rintro ⟨q, ⟨payload, hd, v, hv, hq⟩, hin⟩
        exact ⟨payload, hd, v, hv, q, hq, hin⟩
      · rintro ⟨payload, hd, v, hv, q, hq, hin⟩
        exact ⟨q, ⟨payload, hd, v, hv, hq⟩, hin⟩
  | .fullText _ _, hvalid => nomatch hvalid
  | .and [], hvalid => absurd rfl hvalid.1
  | .and (first :: parts), hvalid => by
    obtain ⟨acc, hacc, hfirst⟩ := queryInner_exact h first hvalid.2.1
    obtain ⟨s, hs, hselects⟩ := queryAnd_exact h parts hvalid.2.2 hfirst
    exact ⟨s, by rw [queryInner, hacc]; exact hs, hselects⟩
  | .or parts, hvalid => by
    have hnone : Selects indexed ∅ fun _ => False := fun d => by simp
    obtain ⟨s, hs, hselects⟩ := queryOr_exact h parts hvalid hnone
    exact ⟨s, by rw [queryInner]; exact hs, hselects.congr fun _ => iff_of_eq (false_or _)⟩
  | .not inner, hvalid => by
    obtain ⟨positives, hinner, hselects⟩ := queryInner_exact h inner hvalid
    refine ⟨_, by rw [queryInner, hinner], Selects.compl ?_ hselects⟩
    intro d
    simp only [h.mem_allOffsets, and_true]

/-- The loop of a conjunction. -/
lemma queryAnd_exact (h : idx.Holds parse indexed) : ∀ parts : List Filter, AllValid parts →
    ∀ {acc : Bitmap} {Q : Option String → Prop}, Selects indexed acc Q →
    ∃ s, idx.queryAnd render parts acc = some s ∧
      Selects indexed s fun payload => Q payload ∧ AllMatch render parse payload parts
  | [], _, acc, Q, hacc => ⟨acc, rfl, hacc.congr fun _ => (iff_of_eq (and_true _)).symm⟩
  | part :: parts, hvalid, acc, Q, hacc => by
    rw [queryAnd]
    by_cases hempty : acc = ∅
    · refine ⟨acc, if_pos hempty, fun d => ?_⟩
      constructor
      · intro hd
        rw [hempty] at hd
        cases hd
      · rintro ⟨payload, hd, hQ, -⟩
        exact (hacc d).mpr ⟨payload, hd, hQ⟩
    · obtain ⟨s, hs, hpart⟩ := queryInner_exact h part hvalid.1
      obtain ⟨s', hs', hselects⟩ := queryAnd_exact h parts hvalid.2 (hacc.inter hpart)
      refine ⟨s', by rw [if_neg hempty, hs]; exact hs', hselects.congr fun payload => ?_⟩
      rw [AllMatch, and_assoc]

/-- The loop of a disjunction. -/
lemma queryOr_exact (h : idx.Holds parse indexed) : ∀ parts : List Filter, AllValid parts →
    ∀ {acc : Bitmap} {Q : Option String → Prop}, Selects indexed acc Q →
    ∃ s, idx.queryOr render parts acc = some s ∧
      Selects indexed s fun payload => Q payload ∨ AnyMatches render parse payload parts
  | [], _, acc, Q, hacc => ⟨acc, rfl, hacc.congr fun _ => (iff_of_eq (or_false _)).symm⟩
  | part :: parts, hvalid, acc, Q, hacc => by
    obtain ⟨s, hs, hpart⟩ := queryInner_exact h part hvalid.1
    obtain ⟨s', hs', hselects⟩ := queryOr_exact h parts hvalid.2 (hacc.union hpart)
    refine ⟨s', by rw [queryOr, hs]; exact hs', hselects.congr fun payload => ?_⟩
    rw [AnyMatches, or_assoc]

end

/-- Both evaluations of a valid filter return exactly the indexed offsets whose payload satisfies
it. **Proof sketch.** The index selects these (`queryInner_exact`), and the engine does as the index
without full-text queries (`evaluateFilter_eq_query`). -/
theorem evaluateFilter_exact {text : TextSearch} (h : IndexRun parse ops indexed) {f : Filter}
    (hf : f.Valid) : ∃ s, (ofOps parse ops).query render f = some s ∧
      evaluateFilter render text (ofOps parse ops) f = some (.ok s) ∧
      ∀ d : ℕ, d ∈ s ↔ ∃ payload, indexed d = some payload ∧ f.Matches render parse payload := by
  obtain ⟨s, hs, hselects⟩ := queryInner_exact h.holds f hf
  refine ⟨s, hs, ?_, hselects⟩
  rw [evaluateFilter_eq_query hf, query, hs]
  rfl

end IndexRun

/-! ## Examples -/

/-- Payloads whose field `f` is an array with a number and the equal string, a number, and
null. -/
def samplePayloads : List (String × Json) :=
  [("\x7b\"f\":[5,\"5\"]\x7d", .obj [("f", .arr [.num ⟨5, "5"⟩, .str "5"])]),
   ("\x7b\"f\":7\x7d", .obj [("f", .num ⟨7, "7"⟩)]),
   ("\x7b\"f\":null\x7d", .obj [("f", .null)])]

/-- A parser that knows these payloads. -/
def samplePayloadParser : JsonParser := fun s =>
  match samplePayloads.find? (·.1 = s) with
  | some p => .ok p.2
  | none => .error "unknown"

/-- The text of the sample at an index. -/
def samplePayload (i : ℕ) : Option String := samplePayloads[i]?.map (·.1)

/-- Two payloads are indexed, and the second is removed. -/
def sampleIndexOps : List IndexOp :=
  [.add 0 (samplePayload 0), .add 1 (samplePayload 1), .remove 1 (samplePayload 1)]

/-- The sample is such a run. -/
lemma indexRun_sampleIndexOps : ∃ indexed, IndexRun samplePayloadParser sampleIndexOps indexed ∧
      indexed 0 = some (samplePayload 0) := by
  have hvalid : ∀ i < 2, ∀ s, samplePayload i = some s → ∃ v, samplePayloadParser s = .ok v := by
    intro i hi s hs
    obtain rfl | rfl : i = 0 ∨ i = 1 := by omega
    · cases hs
      exact ⟨_, rfl⟩
    · cases hs
      exact ⟨_, rfl⟩
  have h₀ := @IndexRun.add _ _ _ .empty 0 rfl (by decide) _ (hvalid 0 (by decide))
  have h₁ := @IndexRun.add _ _ _ h₀ 1 rfl (by decide) _ (hvalid 1 (by decide))
  exact ⟨_, @IndexRun.remove _ _ _ h₁ 1 _ rfl, rfl⟩

/-- A payload with the number and the equal string is found by its keyword, and its number is
outside the negated range. -/
theorem evaluateFilter_exact_sample :
    ∃ s, evaluateFilter (fun _ => "") ⟨.ok (), fun _ => .ok ∅⟩
        (ofOps samplePayloadParser sampleIndexOps)
        (.and [.eq "f" (.str "5"), .not (.range "f" (.included (.finite 6)) .unbounded)]) =
      some (.ok s) ∧ 0 ∈ s := by
  obtain ⟨indexed, hrun, hzero⟩ := indexRun_sampleIndexOps
  have hvalid : (Filter.and [.eq "f" (.str "5"),
      .not (.range "f" (.included (.finite 6)) .unbounded)]).Valid :=
    ⟨cons_ne_nil _ _, trivial, rfl, trivial⟩
  have hscalars : fieldScalars samplePayloadParser (samplePayload 0) "f" =
      [.num ⟨5, "5"⟩, .str "5"] := rfl
  obtain ⟨s, -, hs, hmem⟩ := evaluateFilter_exact hrun hvalid
  refine ⟨s, hs, (hmem 0).mpr ⟨_, hzero, ⟨.str "5", ?_, rfl⟩, ?_, trivial⟩⟩
  · rw [hscalars]
    exact mem_cons_of_mem _ mem_cons_self
  · rintro ⟨v, hv, q, hq, habove, -⟩
    rw [hscalars, mem_cons, mem_singleton] at hv
    rcases hv with rfl | rfl
    · cases hq
      revert habove
      decide +kernel
    · cases hq

/-- A null of a field has the keyword that an equality filter for null looks up, and is not
found. -/
theorem query_misses_null :
    (∃ v ∈ fieldScalars samplePayloadParser (samplePayload 2) "f",
      valueToKeyword (fun _ => "") v = valueToKeyword (fun _ => "") .null) ∧
    (ofOps samplePayloadParser [.add 0 (samplePayload 2)]).query (fun _ => "")
      (.eq "f" .null) = some ∅ := by
  have hscalars : fieldScalars samplePayloadParser (samplePayload 2) "f" = [.null] := rfl
  refine ⟨⟨.null, hscalars ▸ mem_cons_self, rfl⟩, ?_⟩
  decide +kernel

end TurboMemory
