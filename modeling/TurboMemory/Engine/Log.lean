import TurboMemory.Engine.Write

/-!
# What a log says

The operations of a log in order, applied to nothing: by offset (`placed`), which is how recovery
sees them, and by id (`applyLog`), which is what the caller asked for. The two agree when every
entry was valid where it was logged.

## Main results

* `getElem?_applyLog_iff` — the two views agree on a log that is `Named` and `Ordered`.
-/

set_option autoImplicit false

namespace TurboMemory

open List Std

/-! ## Entries -/

namespace Entry

/-- The record an entry adds, at its offset. -/
def adds : Entry → Option (PointOffset × Record)
  | .insert offset record => some (offset, record)
  | .replace _ offset record => some (offset, record)
  | .delete _ _ => none

/-- The offset an entry removes. -/
def removes : Entry → Option PointOffset
  | .insert _ _ => none
  | .replace oldOffset _ _ => some oldOffset
  | .delete offset _ => some offset

/-- An entry is valid where the given records are live: an insert is of a new id, others of the
record at their offset. -/
def Names (records : ExtTreeMap PointOffset Record) : Entry → Prop
  | .insert _ record => ∀ (o : PointOffset) (r : Record), records[o]? = some r → r.id ≠ record.id
  | .replace oldOffset _ record => ∃ r : Record, records[oldOffset]? = some r ∧ r.id = record.id
  | .delete offset id => ∃ r : Record, records[offset]? = some r ∧ r.id = id

end Entry

/-- The records after one more entry, by offset. -/
def place (records : ExtTreeMap PointOffset Record) :
    Entry → ExtTreeMap PointOffset Record
  | .insert offset record => records.insert offset record
  | .replace oldOffset offset record => (records.erase oldOffset).insert offset record
  | .delete offset _ => records.erase offset

variable (log : List Entry)

/-- The records of a log, by offset. -/
def placed : ExtTreeMap PointOffset Record := log.foldl place ∅

/-- The records after one more operation, by id. -/
def applyEntry (records : ExtTreeMap String Record) : Entry → ExtTreeMap String Record
  | .insert _ record => records.insert record.id record
  | .replace _ _ record => records.insert record.id record
  | .delete _ id => records.erase id

/-- The records of a log, by id: its operations applied in order. -/
def applyLog : ExtTreeMap String Record := log.foldl applyEntry ∅

/-- No entry. -/
@[simp] lemma placed_nil : placed [] = ∅ := rfl

/-- More entries. -/
lemma placed_append (log more : List Entry) :
    placed (log ++ more) = more.foldl place (placed log) :=
  foldl_append

/-- One more entry. -/
lemma placed_concat (x : Entry) :
    placed (log ++ [x]) = place (placed log) x := by
  rw [placed_append, foldl_cons, foldl_nil]

/-- One more entry. -/
lemma applyLog_concat (x : Entry) :
    applyLog (log ++ [x]) = applyEntry (applyLog log) x := by
  rw [applyLog, foldl_append, foldl_cons, foldl_nil, applyLog]

/-- What is where after one more entry: the record it adds, nothing where it removes, and
everything else unchanged. -/
lemma getElem?_place (records : ExtTreeMap PointOffset Record) (x : Entry) (o : PointOffset) :
    (place records x)[o]? = if x.adds.map Prod.fst = some o then x.adds.map Prod.snd
      else if x.removes = some o then none else records[o]? := by
  cases x with
  | insert offset record =>
    simp [place, Entry.adds, Entry.removes, ExtTreeMap.getElem?_insert]
  | replace oldOffset offset record =>
    simp [place, Entry.adds, Entry.removes, ExtTreeMap.getElem?_insert, ExtTreeMap.getElem?_erase]
  | delete offset id =>
    simp [place, Entry.adds, Entry.removes, ExtTreeMap.getElem?_erase]

variable {log : List Entry} {o : PointOffset}

/-- A record of a log was added by one of its entries. -/
lemma exists_adds_of_placed {r : Record}
    (h : (placed log)[o]? = some r) : ∃ x ∈ log, x.adds = some (o, r) := by
  induction log using reverseRecOn with
  | nil => simp at h
  | append_singleton log x ih =>
    rw [placed_concat, getElem?_place] at h
    split at h
    · next hadd =>
      refine ⟨x, by simp, ?_⟩
      cases hx : x.adds with
      | none => simp [hx] at hadd
      | some p => simp_all [Prod.ext_iff]
    · split at h
      · cases h
      · obtain ⟨y, hy, hadds⟩ := ih h
        exact ⟨y, by simp [hy], hadds⟩

/-- Where nothing was and nothing is added, nothing is. -/
lemma getElem?_placed_append_of_none {log more : List Entry}
    (h : (placed log)[o]? = none) (hmore : ∀ x ∈ more, x.adds.map Prod.fst ≠ some o) :
    (placed (log ++ more))[o]? = none := by
  induction more using reverseRecOn with
  | nil => simpa using h
  | append_singleton more x ih =>
    rw [← append_assoc, placed_concat, getElem?_place, if_neg (hmore x (by simp))]
    split
    · rfl
    · exact ih fun y hy => hmore y (by simp [hy])

/-! ## Offsets -/

/-- Offsets grow along the log. -/
def Ordered (log : List Entry) : Prop :=
  log.Pairwise fun x y => ∀ p q, x.adds = some p → y.adds = some q → p.1 < q.1

/-- What an entry removes was added before it. -/
def Closed (log : List Entry) : Prop :=
  ∀ before x after, log = before ++ x :: after → ∀ o, x.removes = some o →
    ∃ y ∈ before, ∃ r, y.adds = some (o, r)

/-- Every entry is valid where it was logged. -/
def Named (log : List Entry) : Prop :=
  ∀ before x after, log = before ++ x :: after → x.Names (placed before)

/-- No entry. -/
lemma ordered_nil : Ordered [] := Pairwise.nil

/-- No entry. -/
lemma closed_nil : Closed [] := by
  intro before x after h
  simp at h

/-- No entry. -/
lemma named_nil : Named [] := by
  intro before x after h
  simp at h

/-- A first part. -/
lemma Ordered.left {log more : List Entry} (h : Ordered (log ++ more)) : Ordered log :=
  (pairwise_append.mp h).1

/-- A first part. -/
lemma Closed.left {log more : List Entry} (h : Closed (log ++ more)) : Closed log :=
  fun before x after heq => h before x (after ++ more) (by simp [heq])

/-- A first part. -/
lemma Named.left {log more : List Entry} (h : Named (log ++ more)) : Named log :=
  fun before x after heq => h before x (after ++ more) (by simp [heq])

/-- The last entry of a longer log, or one of the log itself. -/
lemma eq_append_cons_concat {log before after : List Entry} {x y : Entry}
    (h : log ++ [x] = before ++ y :: after) :
    (before = log ∧ y = x ∧ after = []) ∨ ∃ after', log = before ++ y :: after' := by
  rcases eq_nil_or_concat after with rfl | ⟨after', z, rfl⟩
  · obtain ⟨rfl, h'⟩ := append_inj' h rfl
    simp only [cons.injEq, and_true] at h'
    exact .inl ⟨rfl, h'.symm, rfl⟩
  · rw [concat_eq_append, ← cons_append, ← append_assoc] at h
    exact .inr ⟨after', (append_inj' h rfl).1⟩

variable {x : Entry} {records : List (PointOffset × Record)} {offset : PointOffset}
  {record : Record}

/-- One more entry, whose record was placed. -/
lemma Closed.concat (h : Closed log)
    (hx : ∀ o, x.removes = some o → ∃ y ∈ log, ∃ r, y.adds = some (o, r)) :
    Closed (log ++ [x]) := by
  intro before y after heq
  rcases eq_append_cons_concat heq with ⟨rfl, rfl, rfl⟩ | ⟨after', rfl⟩
  · exact hx
  · exact h before y after' rfl

/-- One more entry, of the record it names. -/
lemma Named.concat (h : Named log) (hx : x.Names (placed log)) : Named (log ++ [x]) := by
  intro before y after heq
  rcases eq_append_cons_concat heq with ⟨rfl, rfl, rfl⟩ | ⟨after', rfl⟩
  · exact hx
  · exact h before y after' rfl

/-- One more entry, at a new offset. -/
lemma Ordered.concat (h : Ordered log)
    (hx : ∀ p, x.adds = some p → ∀ y ∈ log, ∀ q, y.adds = some q → q.1 < p.1) :
    Ordered (log ++ [x]) := by
  refine pairwise_append.mpr ⟨h, pairwise_singleton _ _, ?_⟩
  intro y hy z hz p q hp hq
  obtain rfl := mem_singleton.mp hz
  exact hx q hq y hy p hp

/-- The last entry of an ordered log adds its record where none was added. -/
lemma Ordered.fresh (h : Ordered (log ++ [x]))
    {p : PointOffset × Record} (hp : x.adds = some p) : (placed log)[p.1]? = none := by
  cases hr : (placed log)[p.1]? with
  | none => rfl
  | some r =>
    obtain ⟨y, hy, hadds⟩ := exists_adds_of_placed hr
    exact absurd ((pairwise_append.mp h).2.2 y hy x (by simp) _ _ hadds hp) (lt_irrefl _)

/-- **What is removed stays removed**: no later record gets its offset. -/
lemma getElem?_placed_of_removes (hord : Ordered log) (hclosed : Closed log)
    (hx : x ∈ log) (ho : x.removes = some o) :
    (placed log)[o]? = none ∧ ∃ y ∈ log, ∃ r, y.adds = some (o, r) := by
  obtain ⟨before, after, rfl⟩ := append_of_mem hx
  obtain ⟨y, hy, r, hadds⟩ := hclosed before x after rfl o ho
  have hlater := (pairwise_append.mp hord).2.2 y hy
  have hother : ∀ z ∈ x :: after, z.adds.map Prod.fst ≠ some o := by
    intro z hz heq
    obtain ⟨p, hp, rfl⟩ := Option.map_eq_some_iff.mp heq
    exact absurd (hlater z hz _ _ hadds hp) (lt_irrefl _)
  refine ⟨?_, y, by simp [hy], r, hadds⟩
  rw [append_cons]
  refine getElem?_placed_append_of_none ?_ fun z hz => hother z (by simp [hz])
  rw [placed_concat, getElem?_place, if_neg (hother x (by simp)), if_pos ho]

/-! ## Id indexes -/

/-- An id index has exactly the given records. -/
def Indexes (index : ExtTreeMap String PointOffset)
    (records : ExtTreeMap PointOffset Record) : Prop :=
  ∀ (id : String) (o : PointOffset),
    index[id]? = some o ↔ ∃ r : Record, records[o]? = some r ∧ r.id = id

section Indexes

variable {index : ExtTreeMap String PointOffset}
  {records : ExtTreeMap PointOffset Record}

section

variable (h : Indexes index records)
include h

/-- Ids are unique in records with an id index. -/
lemma Indexes.unique {o o' : PointOffset} {r r' : Record}
    (hr : records[o]? = some r) (hr' : records[o']? = some r') (hid : r.id = r'.id) : o = o' :=
  Option.some.inj
    (((h r.id o).mpr ⟨r, hr, rfl⟩).symm.trans ((h r.id o').mpr ⟨r', hr', hid.symm⟩))

/-- A record of a new id at a new offset. -/
lemma Indexes.insert (hoffset : records[offset]? = none)
    (hid : ∀ (o : PointOffset) (r : Record), records[o]? = some r → r.id ≠ record.id) :
    Indexes (index.insert record.id offset) (records.insert offset record) := by
  intro id o
  simp only [ExtTreeMap.getElem?_insert, LawfulEqCmp.compare_eq_iff_eq]
  by_cases hid' : record.id = id
  · rw [if_pos hid', Option.some.injEq]
    constructor
    · rintro rfl
      exact ⟨record, by simp, hid'⟩
    · rintro ⟨r, hr, hrid⟩
      by_contra hne
      rw [if_neg hne] at hr
      exact hid o r hr (hrid.trans hid'.symm)
  · rw [if_neg hid', h id o]
    constructor
    · rintro ⟨r, hr, hrid⟩
      refine ⟨r, ?_, hrid⟩
      rw [if_neg, hr]
      rintro rfl
      rw [hoffset] at hr
      cases hr
    · rintro ⟨r, hr, hrid⟩
      split at hr
      · cases hr
        exact absurd hrid hid'
      · exact ⟨r, hr, hrid⟩

/-- A record that is dropped. -/
lemma Indexes.erase (hrecord : records[offset]? = some record) :
    Indexes (index.erase record.id) (records.erase offset) := by
  intro id o
  simp only [ExtTreeMap.getElem?_erase, LawfulEqCmp.compare_eq_iff_eq]
  by_cases hid : record.id = id
  · simp only [if_pos hid, reduceCtorEq, false_iff]
    rintro ⟨r, hr, hrid⟩
    split at hr
    · cases hr
    · next hne => exact hne (h.unique hrecord hr (hid.trans hrid.symm))
  · rw [if_neg hid, h id o]
    constructor
    · rintro ⟨r, hr, hrid⟩
      refine ⟨r, ?_, hrid⟩
      rw [if_neg, hr]
      rintro rfl
      rw [hrecord] at hr
      cases hr
      exact hid hrid
    · rintro ⟨r, hr, hrid⟩
      split at hr
      · cases hr
      · exact ⟨r, hr, hrid⟩

/-- A record that takes the place of another of its id. -/
lemma Indexes.replace {oldOffset : PointOffset} {old : Record}
    (hold : records[oldOffset]? = some old) (hid : old.id = record.id)
    (hoffset : records[offset]? = none) : Indexes ((index.erase record.id).insert record.id offset)
      ((records.erase oldOffset).insert offset record) := by
  refine Indexes.insert (hid ▸ h.erase hold) (by simp [ExtTreeMap.getElem?_erase, hoffset]) ?_
  intro o r hr hrid
  simp only [ExtTreeMap.getElem?_erase, LawfulEqCmp.compare_eq_iff_eq] at hr
  split at hr
  · cases hr
  · next hne => exact hne (h.unique hold hr (hid.trans hrid.symm))

end

/-- The records of other ids stay what they are. -/
lemma Indexes.bind_place (h : Indexes index (place records x)) {id : String}
    (hid : ∀ p, x.adds = some p → p.2.id ≠ id) :
    index[id]?.bind ((place records x)[·]?) = index[id]?.bind (records[·]?) := by
  cases hi : index[id]? with
  | none => rfl
  | some o =>
    obtain ⟨r, hr, hrid⟩ := (h id o).mp hi
    refine hr.trans ?_
    rw [getElem?_place] at hr
    split at hr
    · obtain ⟨p, hp, rfl⟩ := Option.map_eq_some_iff.mp hr
      exact absurd hrid (hid p hp)
    · split at hr
      · cases hr
      · exact hr.symm

end Indexes

/-! ## Offsets and ids agree -/

/-- A valid log has an id index, and under each id the record at the offset in the index. -/
lemma Named.exists_indexes (h : Named log) (hord : Ordered log) :
    ∃ index, Indexes index (placed log) ∧
      ∀ id : String, (applyLog log)[id]? = index[id]?.bind ((placed log)[·]?) := by
  induction log using reverseRecOn with
  | nil => exact ⟨∅, by simp [Indexes], by simp [applyLog]⟩
  | append_singleton log x ih =>
    obtain ⟨index, hindex, hget⟩ := ih h.left hord.left
    have hx := h log x [] rfl
    rw [placed_concat, applyLog_concat]
    cases x with
    | insert offset record =>
      have hindex' := hindex.insert (hord.fresh rfl) hx
      refine ⟨_, hindex', fun id => ?_⟩
      by_cases hid : record.id = id
      · simp [applyEntry, place, hid]
      · rw [hindex'.bind_place (x := .insert offset record) (by rintro _ ⟨⟩; exact hid)]
        simp [applyEntry, ExtTreeMap.getElem?_insert, hid, hget]
    | replace oldOffset offset record =>
      obtain ⟨old, hold, holdid⟩ := hx
      have hindex' := hindex.replace hold holdid (hord.fresh rfl)
      refine ⟨_, hindex', fun id => ?_⟩
      by_cases hid : record.id = id
      · simp [applyEntry, place, hid]
      · rw [hindex'.bind_place (x := .replace oldOffset offset record) (by rintro _ ⟨⟩; exact hid)]
        simp [applyEntry, ExtTreeMap.getElem?_insert, ExtTreeMap.getElem?_erase, hid, hget]
    | delete offset id' =>
      obtain ⟨old, hold, rfl⟩ := hx
      have hindex' := hindex.erase hold
      refine ⟨_, hindex', fun id => ?_⟩
      rw [hindex'.bind_place (x := .delete offset old.id) (by rintro _ ⟨⟩)]
      by_cases hid : old.id = id <;> simp [applyEntry, ExtTreeMap.getElem?_erase, hid, hget]

/-- **The two views agree**: a valid log has a record under an id exactly when it has it at some
offset. -/
lemma getElem?_applyLog_iff (h : Named log) (hord : Ordered log) (id : String) (r : Record) :
    (applyLog log)[id]? = some r ↔ r.id = id ∧ ∃ o : PointOffset, (placed log)[o]? = some r := by
  obtain ⟨index, hindex, hget⟩ := h.exists_indexes hord
  simp only [hget, Option.bind_eq_some_iff, hindex id]
  constructor
  · rintro ⟨o, ⟨r', hr', hid⟩, hr⟩
    cases hr'.symm.trans hr
    exact ⟨hid, o, hr⟩
  · rintro ⟨hid, o, hr⟩
    exact ⟨o, ⟨r, hr, hid⟩, hr⟩

/-! ## Inserted records -/

/-- The inserts of a batch. -/
lemma placed_insertEntries (log : List Entry) (records : List (PointOffset × Record)) :
    placed (log ++ insertEntries records)
      = records.foldl (fun m p => m.insert p.1 p.2) (placed log) := by
  rw [placed_append, insertEntries, foldl_map]
  rfl

/-- One more record. -/
lemma insertEntries_concat (records : List (PointOffset × Record)) (p : PointOffset × Record) :
    insertEntries (records ++ [p]) = insertEntries records ++ [.insert p.1 p.2] := by
  simp [insertEntries]

/-- Inserting records of new, distinct ids is valid. -/
lemma Named.insertEntries (h : Named log) (hnodup : (records.map fun p => p.2.id).Nodup)
    (hnew : ∀ p ∈ records, ∀ (o : PointOffset) (r : Record), (placed log)[o]? = some r →
      r.id ≠ p.2.id) : Named (log ++ insertEntries records) := by
  induction records using reverseRecOn with
  | nil => simpa [TurboMemory.insertEntries] using h
  | append_singleton records p ih =>
    rw [map_append, nodup_append] at hnodup
    rw [insertEntries_concat, ← append_assoc]
    refine (ih hnodup.1 fun q hq => hnew q (by simp [hq])).concat ?_
    intro o r hr
    rw [placed_insertEntries] at hr
    rcases exists_of_getElem?_foldl_insert hr with
      ⟨q, hq, -, rfl⟩ | hold
    · exact hnodup.2.2 _ (mem_map_of_mem hq) _ (by simp)
    · exact hnew p (by simp) o r hold

/-- Inserting records at new offsets, in order. -/
lemma Ordered.insertEntries (h : Ordered log) (hpairwise : records.Pairwise fun p q => p.1 < q.1)
    (hnew : ∀ p ∈ records, ∀ x ∈ log, ∀ q, x.adds = some q → q.1 < p.1) :
    Ordered (log ++ insertEntries records) := by
  refine pairwise_append.mpr ⟨h, ?_, ?_⟩
  · rw [TurboMemory.insertEntries, pairwise_map]
    refine hpairwise.imp ?_
    rintro p q hpq _ _ ⟨⟩ ⟨⟩
    exact hpq
  · rintro x hx y hy p q hp hq
    obtain ⟨r, hr, rfl⟩ := mem_map.mp hy
    cases hq
    exact hnew r hr x hx p hp

/-- Inserts remove nothing. -/
lemma Closed.insertEntries (h : Closed log)
    (records : List (PointOffset × Record)) : Closed (log ++ insertEntries records) := by
  induction records using reverseRecOn with
  | nil => simpa [TurboMemory.insertEntries] using h
  | append_singleton records p ih =>
    rw [insertEntries_concat, ← append_assoc]
    refine ih.concat ?_
    intro o ho
    cases ho

end TurboMemory
