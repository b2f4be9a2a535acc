import Mathlib.Data.Prod.Lex
import TurboMemory.Engine.CrashRecovery
import TurboMemory.Engine.Retention

/-!
# What an eviction deletes

Without gists an eviction deletes its victims: the unprotected records below the score floor,
and of the other unprotected ones as many as the store is then over its cap, lowest score first
and older first on a tie (`Sweep.Doomed`). A victim is deleted through the id index, and only if
its id still resolves to its offset.

## Main results

* `Engine.deleteVictims_spec` — what deleting the victims does.
* `Sweep.mem_victims_iff` — the two passes choose the doomed records.
* `evict_in_order_iff` — an eviction does what it is for exactly when the id of every doomed
  record resolves to it.
-/

set_option autoImplicit false

namespace TurboMemory

open CriticalSections Selection List Sweep
open Std (ExtTreeMap)

variable {E : Env}

/-! ## Deleting victims -/

variable {r : Except StorageError ℕ} {io : PointOffset → Io}

namespace Engine

variable {e e' : Engine}

/-- A drain keeps which records there are. -/
lemma drain_spec (e : Engine) : (∀ o, o ∈ e.drain.metadata.records ↔ o ∈ e.metadata.records) ∧
    e.drain.metadata.records.size = e.metadata.records.size ∧
    e.drain.metadata.recordCount = e.metadata.recordCount := by
  apply drainInto_induction (P := fun m => (∀ o, o ∈ m.records ↔ o ∈ e.metadata.records) ∧
    m.records.size = e.metadata.records.size ∧ m.recordCount = e.metadata.recordCount)
  · exact ⟨fun _ => .rfl, rfl, rfl⟩
  · rintro m o record n t hget ⟨hmem, hsize, hcount⟩
    have ho : o ∈ m.records := by
      rw [ExtTreeMap.mem_iff_isSome_getElem?]
      exact Option.isSome_of_eq_some hget
    simp only [MetadataStore.putMeta, ExtTreeMap.mem_insert, ExtTreeMap.size_insert,
      ← ExtTreeMap.mem_iff_contains, ho, if_true, hsize, hcount, and_true, compare_eq_iff_eq]
    intro o'
    rw [← hmem]
    constructor
    · rintro (rfl | h)
      · exact ho
      · exact h
    · exact .inr

/-- **Deleting a pinned record**: it goes, unless its id resolves elsewhere or the log cannot be
written. -/
lemma perform_deleteByIdAt {io : Io} {id : String} {offset : PointOffset}
    {r : Except StorageError Reply} (h : e.perform E io (e.deleteByIdAt id offset) = (r, e')) :
    (e.idIndex[id]? ≠ some offset ∧ r = .ok (.bool false) ∧ e' = e) ∨ e.idIndex[id]? = some offset ∧
      (r = .ok (.bool true) ∧ e'.metadata = e.metadata.remove offset ∧
          e'.idIndex = e.idIndex.erase id ∧ e'.vectors = e.vectors ∧
          e'.graph = e.graph.removeMemory id ∨
        (∃ err, r = .error err) ∧ e'.metadata = e.metadata ∧ e'.idIndex = e.idIndex ∧
          e'.vectors = e.vectors ∧ e'.graph = e.graph) := by
  unfold deleteByIdAt deleteWhere at h
  cases hold : e.idIndex[id]? with
  | none =>
    rw [hold] at h
    cases h
    exact .inl ⟨by simp, rfl, rfl⟩
  | some o =>
    by_cases ho : o = offset
    swap
    · simp only [hold, beq_eq_false_iff_ne.mpr ho, Bool.false_eq_true, if_false] at h
      cases h
      exact .inl ⟨by simpa using ho, rfl, rfl⟩
    subst ho
    refine .inr ⟨rfl, ?_⟩
    simp only [hold, beq_self_eq_true, if_true, perform, runAll] at h
    rcases hlog : e.exec E io (.log [.delete o id]) with ⟨answer, e₁⟩
    have he₁ : e₁ = { e with wal := e₁.wal } := by
      simp only [exec] at hlog
      split at hlog <;> (obtain ⟨-, rfl⟩ := Prod.mk.inj hlog; rfl)
    rw [hlog] at h
    cases answer with
    | error err =>
      cases h
      exact .inr ⟨⟨err, rfl⟩, by rw [he₁], by rw [he₁], by rw [he₁], by rw [he₁]⟩
    | ok _ =>
      cases h
      obtain ⟨hsame, hindex⟩ := removeFromIndexes_spec e₁ id o
      refine .inl ⟨rfl, ?_, ?_, ?_, ?_⟩
      · rw [hsame.metadata, he₁]
      · rw [hindex, he₁]
      · rw [hsame.vectors, he₁]
      · rw [he₁, removeFromIndexes]
        split <;> rfl

/-- The id of a victim resolves to it. -/
def resolves (e : Engine) (p : PointOffset × String) : Bool := e.idIndex[p.2]? == some p.1

/-- The id leads to the offset. -/
lemma resolves_iff {p : PointOffset × String} :
    e.resolves p = true ↔ e.idIndex[p.2]? = some p.1 := by
  simp [resolves]

/-- Deleting one victim does not change whether the ids of others resolve to them. -/
lemma resolves_erase {p q : PointOffset × String} (hp : e.idIndex[p.2]? = some p.1)
    (hne : q.1 ≠ p.1) (hindex : e'.idIndex = e.idIndex.erase p.2) :
    e'.resolves q = e.resolves q := by
  unfold resolves
  rw [hindex, ExtTreeMap.getElem?_erase]
  by_cases hid : p.2 = q.2
  · rw [← hid, hp]
    simp [Ne.symm hne]
  · simp [hid]

/-- One deletion when the log can be written: the record goes if its id resolves to it; the other
victims stay as they are. -/
lemma perform_delete_ok {io : Io} {v : PointOffset × String} {reply : Reply}
    (h : e.perform E io (e.deleteByIdAt v.2 v.1) = (.ok reply, e')) :
    reply = .bool (e.resolves v) ∧ (∀ o, e'.metadata.records[o]? =
      if e.resolves v ∧ v.1 = o then none else e.metadata.records[o]?) ∧ (v.1 ∈ e.metadata.records →
      e'.metadata.records.size + (if e.resolves v then 1 else 0) = e.metadata.records.size) ∧
    ∀ q, q.1 ≠ v.1 → e'.resolves q = e.resolves q := by
  rcases perform_deleteByIdAt h with ⟨hother, hreply, heq⟩ | ⟨hold, hdone | hfail⟩
  · have hnot : e.resolves v = false := by simpa [resolves] using hother
    rw [heq, hnot]
    exact ⟨by simpa using hreply, by simp, by simp, fun q _ => rfl⟩
  · obtain ⟨hreply, hmeta, hindex, -⟩ := hdone
    have hyes : e.resolves v = true := resolves_iff.mpr hold
    rw [hyes]
    refine ⟨by simpa using hreply, ?_, ?_, fun q hq => resolves_erase hold hq hindex⟩
    · intro o
      rw [hmeta, MetadataStore.getElem?_records_remove]
      simp
    · intro hmem
      have hpos : 0 < e.metadata.records.size := by
        rw [Nat.pos_iff_ne_zero, Ne, ← ExtTreeMap.eq_empty_iff_size_eq_zero]
        rintro hnil
        simp [hnil] at hmem
      rw [hmeta]
      simp only [MetadataStore.remove, ExtTreeMap.size_erase, hmem, if_true,
        ExtTreeMap.contains_iff_mem]
      omega
  · obtain ⟨⟨err, herr⟩, -⟩ := hfail
    cases herr

section

variable (victims : List (PointOffset × String))

/-- **Deleting the victims.** Only victims whose id resolves to them go; if no call fails, all of
those do. -/
lemma deleteVictims_spec
    {e e' : Engine} (hnodup : (victims.map Prod.fst).Nodup)
    (h : deleteVictims E io victims e = (r, e')) :
    (∀ o, e'.metadata.records[o]? = e.metadata.records[o]? ∨
      e'.metadata.records[o]? = none ∧ ∃ v ∈ victims, v.1 = o ∧ e.resolves v = true) ∧
    ∀ n, r = .ok n → (∀ v ∈ victims, e.resolves v = true → e'.metadata.records[v.1]? = none) ∧
      ((∀ v ∈ victims, v.1 ∈ e.metadata.records) →
        e'.metadata.records.size + (victims.filter e.resolves).length
          = e.metadata.records.size) := by
  induction victims generalizing e r e' with
  | nil =>
    cases h
    exact ⟨fun o => .inl rfl, fun n _ => ⟨by simp, by simp⟩⟩
  | cons v victims ih =>
    rw [map_cons, nodup_cons] at hnodup
    obtain ⟨hfresh, hnodup⟩ := hnodup
    have hne : ∀ q ∈ victims, q.1 ≠ v.1 := fun q hq heq =>
      hfresh (heq ▸ mem_map_of_mem hq)
    rw [deleteVictims] at h
    rcases hone : e.perform E (io v.1) (e.deleteByIdAt v.2 v.1) with ⟨answer, e₁⟩
    rw [hone] at h
    cases answer with
    | error err =>
      cases h
      refine ⟨fun o => .inl ?_, by rintro n ⟨⟩⟩
      rcases perform_deleteByIdAt hone with ⟨-, hr, -⟩ | ⟨-, ⟨hr, -⟩ | ⟨-, hmeta, -⟩⟩
      · cases hr
      · cases hr
      · rw [hmeta]
    | ok reply =>
      obtain ⟨-, hrecords, hsize, hresolves⟩ := perform_delete_ok hone
      rcases hrest : deleteVictims E io victims e₁ with ⟨r', e₂⟩
      obtain ⟨hkeep, hall⟩ := ih hnodup hrest
      simp only [hrest] at h
      have heq : e' = e₂ := by
        cases r' <;> exact (Prod.mk.inj h).2.symm
      subst heq
      have hsame : victims.filter e₁.resolves = victims.filter e.resolves :=
        filter_congr fun q hq => hresolves q (hne q hq)
      refine ⟨?_, ?_⟩
      · intro o
        rcases hkeep o with ho | ⟨ho, q, hq, hqo, hres⟩
        · rw [ho, hrecords]
          split
          · next hv => exact .inr ⟨rfl, v, by simp, hv.2, hv.1⟩
          · exact .inl rfl
        · rw [hresolves q (hne q hq)] at hres
          exact .inr ⟨ho, q, by simp [hq], hqo, hres⟩
      · rintro n rfl
        obtain ⟨n', rfl⟩ : ∃ n', r' = .ok n' := by
          cases r' with
          | error err => cases h
          | ok n' => exact ⟨n', rfl⟩
        obtain ⟨hgone, hcount⟩ := hall n' rfl
        refine ⟨?_, ?_⟩
        · intro q hq hres
          rcases mem_cons.mp hq with rfl | hq
          · rcases hkeep q.1 with ho | ⟨ho, -⟩
            · rw [ho, hrecords, if_pos ⟨hres, rfl⟩]
            · exact ho
          · exact hgone q hq (by rwa [hresolves q (hne q hq)])
        · intro hlive
          have hlive₁ : ∀ q ∈ victims, q.1 ∈ e₁.metadata.records := by
            intro q hq
            have hq' := hlive q (by simp [hq])
            rw [ExtTreeMap.mem_iff_isSome_getElem?] at hq' ⊢
            rwa [hrecords, if_neg fun hv => hne q hq hv.2.symm]
          have h₁ := hsize (hlive v (by simp))
          have h₂ := hcount hlive₁
          rw [hsame] at h₂
          rw [filter_cons]
          split
          · next hv =>
            rw [hv] at h₁
            simp only [if_true, length_cons] at h₁ ⊢
            omega
          · next hv =>
            simp only [Bool.not_eq_true] at hv
            rw [hv] at h₁
            simp only [Bool.false_eq_true, if_false] at h₁
            omega

/-- The deletions leave vectors and other ids alone. -/
lemma deleteVictims_keeps
    {e e' : Engine} (h : deleteVictims E io victims e = (r, e')) : e'.vectors = e.vectors ∧
    ∀ q, q.1 ∉ victims.map Prod.fst → e'.resolves q = e.resolves q := by
  induction victims generalizing e r e' with
  | nil =>
    cases h
    exact ⟨rfl, fun _ _ => rfl⟩
  | cons v victims ih =>
    rw [deleteVictims] at h
    rcases hone : e.perform E (io v.1) (e.deleteByIdAt v.2 v.1) with ⟨answer, e₁⟩
    have hfirst : e₁.vectors = e.vectors ∧ ∀ q, q.1 ≠ v.1 → e₁.resolves q = e.resolves q := by
      rcases perform_deleteByIdAt hone with ⟨-, -, rfl⟩ |
        ⟨hold, ⟨-, -, hindex, hvectors, -⟩ | ⟨-, -, hindex, hvectors, -⟩⟩
      · exact ⟨rfl, fun _ _ => rfl⟩
      · exact ⟨hvectors, fun q hq => resolves_erase hold hq hindex⟩
      · exact ⟨hvectors, fun q _ => by rw [resolves, resolves, hindex]⟩
    rw [hone] at h
    cases answer with
    | error err =>
      cases h
      exact ⟨hfirst.1, fun q hq => hfirst.2 q fun heq => hq (by simp [heq])⟩
    | ok reply =>
      rcases hrest : deleteVictims E io victims e₁ with ⟨r', e₂⟩
      simp only [hrest] at h
      obtain rfl : e' = e₂ := by
        cases r' <;> exact (Prod.mk.inj h).2.symm
      obtain ⟨hvectors, hresolves⟩ := ih hrest
      refine ⟨hvectors.trans hfirst.1, fun q hq => ?_⟩
      simp only [map_cons, mem_cons, not_or] at hq
      exact (hresolves q hq.2).trans (hfirst.2 q hq.1)

end

end Engine

/-! ## The order of eviction -/

section Order

variable {S : Type} [LinearOrder S]

/-- Lowest score first, then older first. -/
lemma rankLe_lowestFirst_iff (a b : PointOffset × String × S) :
    RankLe lowestFirst a b ↔ a.2.2 < b.2.2 ∨ a.2.2 = b.2.2 ∧ a.1 ≤ b.1 := by
  rcases lt_trichotomy a.2.2 b.2.2 with h | h | h
  · simp [RankLe, lowestFirst, compare_lt_iff_lt.mpr h, h]
  · simp [RankLe, lowestFirst, h, compare_gt_iff_gt]
  · simp [RankLe, lowestFirst, compare_gt_iff_gt.mpr h, h.not_gt, h.ne']

instance : Std.TransCmp (lowestFirst (S := S)) :=
  inferInstanceAs (Std.TransCmp (compareLex
    (compareOn fun a : PointOffset × String × S => a.2.2) (compareOn Prod.fst)))

end Order

namespace Sweep

/-! ## The two passes -/

section Passes

variable {S : Type} {scored : List (PointOffset × String × S)}
  {marked : List (PointOffset × String)}

/-- What is kept of a scored record when it becomes a victim. -/
def key (p : PointOffset × String × S) : PointOffset × String := (p.1, p.2.1)

/-- An offset is among the victims. -/
lemma any_key (l : List (PointOffset × String × S)) (o : PointOffset) :
    (l.map key).any (·.1 == o) = true ↔ o ∈ l.map Prod.fst := by
  simp [key]

/-- Marking goes by offset, so marking some of several different records appends them. -/
lemma foldl_mark (c : PointOffset × String × S → Prop) [DecidablePred c]
    (hnodup : (scored.map Prod.fst).Nodup) (hnew : ∀ p ∈ scored, marked.any (·.1 == p.1) = false) :
    scored.foldl (fun victims p => if c p then mark victims p else victims) marked
      = marked ++ (scored.filter c).map key := by
  induction scored generalizing marked with
  | nil => simp
  | cons p scored ih =>
    rw [map_cons, nodup_cons] at hnodup
    rw [foldl_cons]
    by_cases hp : c p
    · have hmark : mark marked p = marked ++ [key p] := by
        simp [mark, key, hnew p (by simp)]
      rw [if_pos hp, hmark, ih hnodup.2]
      · simp [hp]
      · intro q hq
        have hne : p.1 ≠ q.1 := fun heq => hnodup.1 (heq ▸ mem_map_of_mem hq)
        simp [key, hne, hnew q (by simp [hq])]
    · rw [if_neg hp, ih hnodup.2 fun q hq => hnew q (by simp [hq])]
      simp [hp]

/-- The cap pass marks the first records of its list. -/
lemma capLoop_eq (excess : ℕ) (hnodup : (scored.map Prod.fst).Nodup)
    (hnew : ∀ p ∈ scored, marked.any (·.1 == p.1) = false) :
    capLoop excess scored marked = marked ++ (scored.take excess).map key := by
  induction scored generalizing marked excess with
  | nil => cases excess <;> simp [capLoop]
  | cons p scored ih =>
    cases excess with
    | zero => simp [capLoop]
    | succ excess =>
      rw [map_cons, nodup_cons] at hnodup
      have hp := hnew p (by simp)
      have hmark : mark marked p = marked ++ [key p] := by simp [mark, key, hp]
      rw [capLoop, hp, if_neg (by simp), hmark, ih excess hnodup.2]
      · simp
      · intro q hq
        have hne : p.1 ≠ q.1 := fun heq => hnodup.1 (heq ▸ mem_map_of_mem hq)
        simp [key, hne, hnew q (by simp [hq])]

end Passes

variable {S T : Type} [LinearOrder S]

/-! ## Which records should go -/

variable (w : Sweep S T)

variable (p : PointOffset × MetaRecord)

/-- The record scores below the floor. -/
def belowFloor : Bool :=
  w.tier.evictScoreFloor.any fun floor => decide (w.score p.1 p.2 < floor)

/-- The records the floor pass takes. -/
def atFloor : Bool :=
  w.belowFloor p && !w.isProtected p.2

/-- The records the cap pass chooses from. -/
def atRisk : Bool :=
  !w.belowFloor p && !w.isProtected p.2

/-- `p` goes before `q`: it scores lower, or the same and is older. -/
def Precedes (p q : PointOffset × MetaRecord) : Prop :=
  w.score p.1 p.2 < w.score q.1 q.2 ∨ w.score p.1 p.2 = w.score q.1 q.2 ∧ p.1 < q.1

instance (w : Sweep S T) : DecidableRel w.Precedes := fun _ _ =>
  inferInstanceAs (Decidable (_ ∨ _))

/-- How many records the floor pass leaves. -/
def afterFloor (records : Records) : ℕ :=
  records.size - records.toList.countP w.atFloor

/-- By how many records the store is then over its cap. -/
def overCap (records : Records) : ℕ :=
  match w.tier.maxRecords with
  | none => 0
  | some maxRecords => w.afterFloor records - maxRecords

/-- The record should go: it is below the floor, or among the lowest that are over the cap. -/
def Doomed (records : Records) (p : PointOffset × MetaRecord) : Prop :=
  w.atFloor p = true ∨ w.atRisk p = true ∧
    records.toList.countP (fun q => w.atRisk q && decide (w.Precedes q p)) < w.overCap records

/-- The scored form of a record. -/
def entry : PointOffset × String × S :=
  (p.1, p.2.id, w.score p.1 p.2)

variable {p q : PointOffset × MetaRecord}

section Victims

variable {w : Sweep S T} {entries : List (PointOffset × MetaRecord)}

/-- What is below the floor. -/
lemma filter_scored_below :
    (w.scored entries).filter (fun p => w.tier.evictScoreFloor.any (decide <| p.2.2 < ·))
      = (entries.filter w.atFloor).map w.entry := by
  simp only [scored, filter_map, filter_filter]
  rfl

/-- What is not. -/
lemma filter_scored_above :
    (w.scored entries).filter (fun p => !w.tier.evictScoreFloor.any (decide <| p.2.2 < ·))
      = (entries.filter w.atRisk).map w.entry := by
  simp only [scored, filter_map, filter_filter]
  rfl

section

variable (hnodup : (entries.map Prod.fst).Nodup)
include hnodup

/-- Each offset once. -/
lemma nodup_scored : ((w.scored entries).map Prod.fst).Nodup := by
  rw [scored, map_map]
  exact hnodup.sublist (filter_sublist.map Prod.fst)

/-- The floor pass takes what is below the floor. -/
lemma floorPass_eq : floorPass w.tier.evictScoreFloor (w.scored entries)
      = ((entries.filter w.atFloor).map w.entry).map key := by
  rw [← filter_scored_below]
  cases hfloor : w.tier.evictScoreFloor with
  | none => simp [floorPass]
  | some floor =>
    rw [floorPass, foldl_mark _ (nodup_scored hnodup) (by simp)]
    simp

/-- No record is both below the floor and not. -/
lemma survivors_eq : ((w.scored entries).filter fun p =>
        !(((entries.filter w.atFloor).map w.entry).map key).any (·.1 == p.1))
      = (entries.filter w.atRisk).map w.entry := by
  rw [← filter_scored_above]
  refine filter_congr fun p hp => ?_
  congr 1
  rw [Bool.eq_iff_iff, any_key, ← filter_scored_below]
  constructor
  · intro hmem
    obtain ⟨q, hq, heq⟩ := mem_map.mp hmem
    obtain ⟨hq, hbelow⟩ := mem_filter.mp hq
    rwa [inj_on_of_nodup_map (nodup_scored hnodup) hq hp heq] at hbelow
  · intro hbelow
    exact mem_map_of_mem (mem_filter.mpr ⟨hp, hbelow⟩)

end

/-- How many records the cap pass takes, if there are so many. -/
def overBy (w : Sweep S T) (live : ℕ) (entries : List (PointOffset × MetaRecord)) : ℕ :=
  match w.tier.maxRecords with
  | none => 0
  | some maxRecords => live - entries.countP w.atFloor - maxRecords

/-- **The victims.** Those below the floor, and the first of the others in the order of
eviction. -/
lemma victims_eq (live : ℕ) (hnodup : (entries.map Prod.fst).Nodup) :
    w.victims live entries = ((entries.filter w.atFloor).map w.entry ++
      (sortBy lowestFirst ((entries.filter w.atRisk).map w.entry)).take
        (w.overBy live entries)).map key := by
  simp only [victims, floorPass_eq hnodup, overBy]
  cases w.tier.maxRecords with
  | none => simp [capPass]
  | some maxRecords =>
    simp only [capPass, survivors_eq hnodup]
    rw [capLoop_eq, map_append]
    · simp [countP_eq_length_filter]
    · have hperm := perm_insertionSort (RankLe lowestFirst)
        ((entries.filter w.atRisk).map w.entry)
      rw [sortBy, (hperm.map Prod.fst).nodup_iff, ← filter_scored_above]
      exact (nodup_scored hnodup).sublist (filter_sublist.map Prod.fst)
    · intro p hp
      rw [sortBy, mem_insertionSort, ← survivors_eq hnodup] at hp
      simpa using (mem_filter.mp hp).2

variable {records : Records}

/-- Each offset once. -/
lemma nodup_offsets (hentries : entries.Perm records.toList) : (entries.map Prod.fst).Nodup :=
  (hentries.map Prod.fst).nodup_iff.mpr (Grouping.nodup_toList_keys records)

/-- How far the store is over its cap. -/
lemma overBy_eq (hentries : entries.Perm records.toList) :
    w.overBy records.size entries = w.overCap records := by
  rw [overBy, overCap, afterFloor, hentries.countP_eq]

/-- No record is marked twice. -/
lemma nodup_victims (live : ℕ) (hnodup : (entries.map Prod.fst).Nodup) :
    ((w.victims live entries).map Prod.fst).Nodup := by
  set R := (entries.filter w.atRisk).map w.entry with hR
  have hsub : ((entries.filter w.atFloor).map w.entry ++
      (sortBy lowestFirst R).take (w.overBy live entries)).Sublist
      ((entries.filter w.atFloor).map w.entry ++ sortBy lowestFirst R) :=
    (take_sublist _ _).append_left _
  have hperm : ((entries.filter w.atFloor).map w.entry ++ sortBy lowestFirst R).Perm
      (w.scored entries) := by
    refine ((perm_insertionSort (RankLe lowestFirst) R).append_left _).trans ?_
    rw [hR, ← filter_scored_below, ← filter_scored_above]
    exact filter_append_perm _ _
  rw [victims_eq live hnodup, map_map]
  exact ((hperm.map Prod.fst).nodup_iff.mpr (nodup_scored hnodup)).sublist (hsub.map Prod.fst)

/-- Victims are records. -/
lemma exists_of_mem_victims {live : ℕ} (hnodup : (entries.map Prod.fst).Nodup)
    {v : PointOffset × String} (h : v ∈ w.victims live entries) :
    ∃ p ∈ entries, v = (p.1, p.2.id) := by
  rw [victims_eq live hnodup, mem_map] at h
  obtain ⟨x, hx, rfl⟩ := h
  rcases mem_append.mp hx with hx | hx
  · obtain ⟨p, hp, rfl⟩ := mem_map.mp hx
    exact ⟨p, mem_of_mem_filter hp, rfl⟩
  · have hx' := mem_of_mem_take hx
    rw [sortBy, mem_insertionSort] at hx'
    obtain ⟨p, hp, rfl⟩ := mem_map.mp hx'
    exact ⟨p, mem_of_mem_filter hp, rfl⟩

/-- The number of victims. -/
lemma length_victims (hentries : entries.Perm records.toList) :
    (w.victims records.size entries).length = records.toList.countP w.atFloor +
      min (w.overCap records) (records.toList.countP w.atRisk) := by
  rw [victims_eq _ (nodup_offsets hentries), overBy_eq hentries, length_map,
    length_append, length_take, sortBy, length_insertionSort, length_map,
    length_map, ← countP_eq_length_filter, ← countP_eq_length_filter,
    hentries.countP_eq, hentries.countP_eq]

/-- Of the records at risk, the order of the cap pass is the order of eviction. -/
lemma outranks_iff (hnodup : (entries.map Prod.fst).Nodup) (hp : p ∈ entries) (hq : q ∈ entries) :
    RankLe lowestFirst (w.entry q) (w.entry p) ∧ w.entry q ≠ w.entry p ↔ w.Precedes q p := by
  rw [rankLe_lowestFirst_iff]
  simp only [entry, Precedes]
  constructor
  · rintro ⟨h | ⟨h, ho⟩, hne⟩
    · exact .inl h
    · refine .inr ⟨h, lt_of_le_of_ne ho fun heq => hne ?_⟩
      rw [inj_on_of_nodup_map hnodup hq hp heq]
  · rintro (h | ⟨h, ho⟩)
    · exact ⟨.inl h, fun heq => h.ne (congrArg (·.2.2) heq)⟩
    · exact ⟨.inr ⟨h, ho.le⟩, fun heq => ho.ne (congrArg (·.1) heq)⟩

/-- **The two passes choose the doomed records.** -/
lemma mem_victims_iff (hentries : entries.Perm records.toList) (v : PointOffset × String) :
    v ∈ w.victims records.size entries ↔
      ∃ p, records[p.1]? = some p.2 ∧ w.Doomed records p ∧ v = (p.1, p.2.id) := by
  have hnodup := nodup_offsets hentries
  have hmem : ∀ p, p ∈ entries ↔ records[p.1]? = some p.2 := by
    intro p
    rw [hentries.mem_iff, ExtTreeMap.mem_toList_iff_getElem?_eq_some]
  -- The cap pass takes a record if fewer than `overCap` of those at risk precede it.
  have hcap : ∀ p ∈ entries, w.atRisk p = true →
      (w.entry p ∈ (sortBy lowestFirst ((entries.filter w.atRisk).map w.entry)).take
        (w.overCap records) ↔ records.toList.countP (fun q => w.atRisk q && decide (w.Precedes q p))
        < w.overCap records) := by
    intro p hp hrisk
    rw [sortBy, mem_take_insertionSort_iff]
    · rw [filter_map, length_map, filter_filter, ← countP_eq_length_filter, hentries.countP_eq]
      have hpmem := mem_map_of_mem (f := w.entry) (mem_filter.mpr ⟨hp, hrisk⟩)
      rw [and_iff_right hpmem]
      suffices hsame : records.toList.countP (fun q => ((fun y => decide
          (RankLe lowestFirst y (w.entry p) ∧ y ≠ w.entry p)) ∘ w.entry) q && w.atRisk q)
          = records.toList.countP (fun q => w.atRisk q && decide (w.Precedes q p)) by rw [hsame]
      refine countP_congr fun q hq => ?_
      have hq' := hentries.mem_iff.mpr hq
      simp only [Function.comp, Bool.and_eq_true, decide_eq_true_eq, outranks_iff hnodup hp hq']
      exact and_comm
    · rw [← filter_scored_above]
      exact (nodup_scored hnodup).of_map.filter _
    · intro x hx y hy hxy hyx
      obtain ⟨p, hp, rfl⟩ := mem_map.mp hx
      obtain ⟨q, hq, rfl⟩ := mem_map.mp hy
      rw [rankLe_iff_isLE] at hxy hyx
      have heq := Std.OrientedCmp.isLE_antisymm hxy hyx
      rw [lowestFirst, Ordering.then_eq_eq, compare_eq_iff_eq, compare_eq_iff_eq] at heq
      rw [inj_on_of_nodup_map hnodup (mem_filter.mp hp).1 (mem_filter.mp hq).1 heq.2]
  rw [victims_eq _ hnodup, overBy_eq hentries, mem_map]
  constructor
  · rintro ⟨x, hx, rfl⟩
    rcases mem_append.mp hx with hx | hx
    · obtain ⟨p, hp, rfl⟩ := mem_map.mp hx
      obtain ⟨hp, hfloor⟩ := mem_filter.mp hp
      exact ⟨p, (hmem p).mp hp, .inl hfloor, rfl⟩
    · have hx' := mem_of_mem_take hx
      rw [sortBy, mem_insertionSort] at hx'
      obtain ⟨p, hp, rfl⟩ := mem_map.mp hx'
      obtain ⟨hp, hrisk⟩ := mem_filter.mp hp
      exact ⟨p, (hmem p).mp hp, .inr ⟨hrisk, (hcap p hp hrisk).mp hx⟩, rfl⟩
  · rintro ⟨p, hp, hdoomed, rfl⟩
    refine ⟨w.entry p, mem_append.mpr ?_, rfl⟩
    have hp' := (hmem p).mpr hp
    rcases hdoomed with hfloor | ⟨hrisk, hfew⟩
    · exact .inl (mem_map_of_mem (mem_filter.mpr ⟨hp', hfloor⟩))
    · exact .inr ((hcap p hp' hrisk).mpr hfew)

end Victims

/-! ## What an eviction is for -/

/-- **An eviction in order**: from the records `before` to `after`. -/
structure EvictsInOrder (w : Sweep S T) (before after : Records) : Prop where
  /-- No record inside the grace window goes. -/
  grace : ∀ o r, before[o]? = some r → w.isProtected r = true → o ∈ after
  /-- Every other record below the floor goes. -/
  floor : ∀ p, before[p.1]? = some p.2 → w.atFloor p = true → p.1 ∉ after
  /-- Others go only if the floor pass leaves more than the cap. -/
  cap : ∀ p, before[p.1]? = some p.2 → p.1 ∉ after → w.atFloor p = false →
    ∃ maxRecords, w.tier.maxRecords = some maxRecords ∧ maxRecords < w.afterFloor before
  /-- They precede every unprotected record that stays. -/
  order : ∀ p q, before[p.1]? = some p.2 → before[q.1]? = some q.2 →
    p.1 ∉ after → w.atFloor p = false → q.1 ∈ after → w.isProtected q.2 = false → w.Precedes p q
  /-- The cap is met, as far as the grace window allows. -/
  size : ∀ maxRecords, w.tier.maxRecords = some maxRecords → after.size = min (w.afterFloor before)
      (max maxRecords (before.toList.countP fun p => w.isProtected p.2))

section Accounts

variable {w : Sweep S T} {records : Records}

/-- Every record is protected, below the floor, or at risk. -/
lemma size_eq_sum (w : Sweep S T) (records : Records) :
    records.size = records.toList.countP (fun p => w.isProtected p.2) +
      records.toList.countP w.atFloor + records.toList.countP w.atRisk := by
  rw [← ExtTreeMap.length_toList]
  induction records.toList with
  | nil => rfl
  | cons p l ih =>
    simp only [countP_cons, length_cons, ih, atFloor, atRisk]
    by_cases hprotected : w.isProtected p.2 = true <;> by_cases hbelow : w.belowFloor p = true <;>
      simp only [hprotected, hbelow] <;> simp <;> omega

/-- What is left when the doomed records are gone. -/
lemma size_sub_doomed {maxRecords : ℕ} (hmax : w.tier.maxRecords = some maxRecords) :
    records.size - (records.toList.countP w.atFloor +
      min (w.overCap records) (records.toList.countP w.atRisk)) = min (w.afterFloor records)
      (max maxRecords (records.toList.countP fun p => w.isProtected p.2)) := by
  have hsum := w.size_eq_sum records
  simp only [overCap, hmax, afterFloor]
  omega

/-- The order of eviction is lexicographic. -/
lemma precedes_iff : w.Precedes p q ↔
    toLex (w.score p.1 p.2, p.1) < toLex (w.score q.1 q.2, q.1) := by
  rw [Prod.Lex.toLex_lt_toLex]
  rfl

/-- Records that precede a doomed one are doomed. -/
lemma Doomed.of_precedes (hp : w.Doomed records p)
    (hfloor : w.atFloor p = false) (hq : w.atRisk q = true) (hqp : w.Precedes q p) :
    w.Doomed records q := by
  rcases hp with hp | ⟨-, hfew⟩
  · rw [hfloor] at hp
    cases hp
  refine .inr ⟨hq, lt_of_le_of_lt (countP_mono_left fun r _ hr => ?_) hfew⟩
  simp only [Bool.and_eq_true, decide_eq_true_eq, precedes_iff] at hr hqp ⊢
  exact ⟨hr.1, hr.2.trans hqp⟩

/-- One of two goes first. -/
lemma Precedes.trichotomy (w : Sweep S T) (hne : p.1 ≠ q.1) : w.Precedes p q ∨ w.Precedes q p := by
  simp only [precedes_iff]
  exact lt_or_gt_of_ne fun heq => hne (Prod.mk.inj (toLex_inj.mp heq)).2

end Accounts

end Sweep

/-! ## Evictions -/

namespace Engine

variable {S T : Type} [LinearOrder S] {w : Sweep S T} {compressor : Option Gister}
  {gistSeq n : ℕ} {io : PointOffset → Io} {e : Engine} {s : Gisting}

/-- Without gists, an eviction deletes its victims. -/
lemma evict_of_no_gist (hgist : w.tier.gistBeforeEvict = false ∨ compressor = none)
    (hon : (w.tier.maxRecords.isNone && w.tier.evictScoreFloor.isNone) = false)
    (h : e.evict E w compressor gistSeq io = (r, s)) :
    deleteVictims E io (w.victims e.drain.metadata.recordCount
      (E.iterate e.drain.metadata.records)) e.drain = (r, s.engine) := by
  have hstep : ∀ victims, gistStep E w compressor gistSeq e.drain victims
      = (victims, ⟨e.drain, gistSeq, [], []⟩) := by
    intro victims
    rcases hgist with hgist | hgist
    · simp [gistStep, hgist]
    · simp [gistStep, hgist]
  rw [evict, hon] at h
  simp only [Bool.false_eq_true, if_false, hstep] at h
  cases h
  rfl

/-- Nothing is doomed where neither setting is present. -/
lemma not_doomed_of_off (hoff : (w.tier.maxRecords.isNone && w.tier.evictScoreFloor.isNone) = true)
    (records : Records) (p : PointOffset × MetaRecord) : ¬ w.Doomed records p := by
  rw [Bool.and_eq_true, Option.isNone_iff_eq_none, Option.isNone_iff_eq_none] at hoff
  rintro (hfloor | ⟨-, hfew⟩)
  · simp [atFloor, belowFloor, hoff.2] at hfloor
  · simp [overCap, hoff.1] at hfew

/-- **What an eviction without gists deletes**: the doomed records whose id resolves to them, and
no other. -/
lemma evict_spec (hcount : e.metadata.recordCount = e.metadata.records.size)
    (hgist : w.tier.gistBeforeEvict = false ∨ compressor = none)
    (h : e.evict E w compressor gistSeq io = (.ok n, s)) :
    (∀ p, e.drain.metadata.records[p.1]? = some p.2 → (p.1 ∉ s.engine.metadata.records ↔
        w.Doomed e.drain.metadata.records p ∧ e.idIndex[p.2.id]? = some p.1)) ∧
    ∃ victims : List (PointOffset × String),
      (∀ v, v ∈ victims ↔ ∃ p, e.drain.metadata.records[p.1]? = some p.2 ∧
        w.Doomed e.drain.metadata.records p ∧ v = (p.1, p.2.id)) ∧
      (∀ maxRecords, w.tier.maxRecords = some maxRecords →
        victims.length = e.drain.metadata.records.toList.countP w.atFloor +
          min (w.overCap e.drain.metadata.records)
            (e.drain.metadata.records.toList.countP w.atRisk)) ∧
      s.engine.metadata.records.size + (victims.filter e.resolves).length
        = e.drain.metadata.records.size := by
  obtain ⟨hmem, hsize, hdrain⟩ := e.drain_spec
  cases hon : (w.tier.maxRecords.isNone && w.tier.evictScoreFloor.isNone) with
  | true =>
    have hoff := not_doomed_of_off hon e.drain.metadata.records
    rw [evict, hon, if_pos rfl] at h
    cases h
    refine ⟨fun p hp => ?_, [], by simp [hoff], ?_, by simp [hsize]⟩
    · have hlive : p.1 ∈ e.metadata.records :=
        (hmem _).mp (Grouping.mem_of_getElem? hp)
      simp [hlive, hoff]
    · intro maxRecords hmax
      simp [hmax] at hon
  | false =>
    have hdel := evict_of_no_gist hgist hon h
    have hentries := E.iterate_perm e.drain.metadata.records
    rw [hdrain, hcount, ← hsize] at hdel
    set victims := w.victims e.drain.metadata.records.size (E.iterate e.drain.metadata.records)
    have hvictims : ∀ v, v ∈ victims ↔ _ := mem_victims_iff hentries
    obtain ⟨hkeep, hall⟩ :=
      deleteVictims_spec victims (nodup_victims _ (nodup_offsets hentries)) hdel
    obtain ⟨hgone, hcut⟩ := hall n rfl
    refine ⟨fun p hp => ?_, victims, hvictims, fun _ _ => length_victims hentries,
      hcut fun v hv => ?_⟩
    · rw [ExtTreeMap.mem_iff_isSome_getElem?, Bool.not_eq_true, Option.isSome_eq_false_iff,
        Option.isNone_iff_eq_none]
      constructor
      · intro hnone
        rcases hkeep p.1 with ho | ⟨-, v, hv, hvo, hres⟩
        · rw [hnone, hp] at ho
          cases ho
        · obtain ⟨q, hq, hdoomed, rfl⟩ := (hvictims v).mp hv
          obtain rfl : q = p := by
            rw [show q.1 = p.1 from hvo, hp] at hq
            exact Prod.ext hvo (Option.some.inj hq).symm
          exact ⟨hdoomed, resolves_iff.mp hres⟩
      · rintro ⟨hdoomed, hres⟩
        exact hgone (p.1, p.2.id) ((hvictims _).mpr ⟨p, hp, hdoomed, rfl⟩) (resolves_iff.mpr hres)
    · obtain ⟨p, hp, -, rfl⟩ := (hvictims v).mp hv
      exact Grouping.mem_of_getElem? hp

end Engine

section

variable {S T : Type} [LinearOrder S] {w : Sweep S T} {compressor : Option Gister}
  {gistSeq n : ℕ} {io : PointOffset → Io} {e : Engine} {s : Gisting}

/-- **Eviction order.** An eviction without gists is in order exactly when the id of every doomed
record resolves to it. **Proof sketch.** A record goes if it is doomed and its id resolves to it. If
all do, the doomed ones go, and what precedes a doomed record is doomed. Conversely a doomed record
below the floor has to go, and so does one over the cap, by the number of records that are left. -/
theorem evict_in_order_iff (hcount : e.metadata.recordCount = e.metadata.records.size)
    (hgist : w.tier.gistBeforeEvict = false ∨ compressor = none)
    (h : e.evict E w compressor gistSeq io = (.ok n, s)) :
    w.EvictsInOrder e.drain.metadata.records s.engine.metadata.records ↔
      ∀ p, e.drain.metadata.records[p.1]? = some p.2 →
        w.Doomed e.drain.metadata.records p → e.idIndex[p.2.id]? = some p.1 := by
  obtain ⟨hgone, victims, hvictims, hlength, hsize⟩ := Engine.evict_spec hcount hgist h
  set before := e.drain.metadata.records
  set after := s.engine.metadata.records
  constructor
  · intro hin p hp hdoomed
    rcases hdoomed with hfloor | ⟨hrisk, hfew⟩
    · exact ((hgone p hp).mp (hin.floor p hp hfloor)).2
    · cases hmax : w.tier.maxRecords with
      | none => simp [overCap, hmax] at hfew
      | some maxRecords =>
        -- The count is right only if every victim was deleted.
        have hleft := hin.size maxRecords hmax
        rw [← size_sub_doomed hmax, ← hlength maxRecords hmax] at hleft
        have hle := length_filter_le e.resolves victims
        have hall : victims.length ≤ before.size := by
          rw [hlength maxRecords hmax, w.size_eq_sum before]
          omega
        have heq : (victims.filter e.resolves).length = victims.length := by omega
        have hv : (p.1, p.2.id) ∈ victims :=
          (hvictims _).mpr ⟨p, hp, .inr ⟨hrisk, hfew⟩, rfl⟩
        exact Engine.resolves_iff.mp (length_filter_eq_length_iff.mp heq _ hv)
  · intro hresolves
    have hdeleted : ∀ p, before[p.1]? = some p.2 → (p.1 ∉ after ↔ w.Doomed before p) :=
      fun p hp => (hgone p hp).trans (and_iff_left_of_imp (hresolves p hp))
    refine ⟨?_, ?_, ?_, ?_, ?_⟩
    · intro o r hr hprotected
      by_contra hnot
      rcases (hdeleted (o, r) hr).mp hnot with hfloor | ⟨hrisk, -⟩
      · simp [atFloor, hprotected] at hfloor
      · simp [atRisk, hprotected] at hrisk
    · intro p hp hfloor
      exact (hdeleted p hp).mpr (.inl hfloor)
    · intro p hp hnot hfloor
      rcases (hdeleted p hp).mp hnot with hfloor' | ⟨-, hfew⟩
      · rw [hfloor] at hfloor'
        cases hfloor'
      · cases hmax : w.tier.maxRecords with
        | none => simp [overCap, hmax] at hfew
        | some maxRecords =>
          simp only [overCap, hmax] at hfew
          exact ⟨maxRecords, rfl, by omega⟩
    · intro p q hp hq hnot hfloor hstays hprotected
      have hne : p.1 ≠ q.1 := fun heq => hnot (heq ▸ hstays)
      have hsafe : ¬ w.Doomed before q := fun hdoomed => (hdeleted q hq).mpr hdoomed hstays
      refine (Precedes.trichotomy w hne).resolve_right fun hqp => hsafe ?_
      refine ((hdeleted p hp).mp hnot).of_precedes hfloor ?_ hqp
      have hqfloor : w.atFloor q = false := by
        rw [← Bool.not_eq_true]
        exact fun hq => hsafe (.inl hq)
      simp only [atFloor, atRisk, hprotected] at hqfloor ⊢
      simpa using hqfloor
    · intro maxRecords hmax
      have hall : victims.filter e.resolves = victims := by
        refine filter_eq_self.mpr fun v hv => ?_
        obtain ⟨p, hp, hdoomed, rfl⟩ := (hvictims v).mp hv
        exact Engine.resolves_iff.mpr (hresolves p hp hdoomed)
      rw [← size_sub_doomed hmax, ← hlength maxRecords hmax]
      rw [hall] at hsize
      omega

end

/-! ## Evictions of a small store -/

/-- A first-in-first-out eviction down to `maxRecords`, with scores rounded down to integers. -/
def sampleSweep (maxRecords : ℕ) : Sweep ℕ ℕ where
  tier :=
    { maxRecords := some maxRecords
      evictScoreFloor := none
      recencyHalfLifeSecs := 604800
      accessAwareEviction := false
      actrActivation := false
      actrDecay := 0
      gistBeforeEvict := false
      gistChunkFacts := 16
      dedupCosineThreshold := none
      dedupMaxPairsPerCycle := 64 }
  ops :=
    { zero := 0
      negInfinity := 0
      ofNat := fun n => n
      mul := (· * ·)
      recency := fun age halfLife => if age < halfLife then 1 else 0
      lnSum := fun ages _ => ages.length.log2 }
  histories := ∅
  now := 100

/-- An eviction from the store that requests leave. -/
def sampleEvict (maxRecords : ℕ) (rs : List Request) (e₀ : Engine) :
    Except StorageError ℕ × Gisting :=
  (sampleRun rs e₀).engine.evict sampleEnv (sampleSweep maxRecords) none 0 fun _ => .ok

set_option maxRecDepth 10000

/-- A store that holds two records is cut down to the newer one, in order. -/
theorem evict_in_order_two : ∃ (e₀ : Engine) (n : ℕ) (s : Gisting),
    Engine.open sampleEnv sampleConfig {} = .ok e₀ ∧
    sampleEvict 1 [.insert 5 (sampleInput "a" "" none), .insert 6 (sampleInput "b" "" none)] e₀
      = (.ok n, s) ∧
    n = 1 ∧ (sampleSweep 1).EvictsInOrder (sampleRun [.insert 5 (sampleInput "a" "" none),
        .insert 6 (sampleInput "b" "" none)] e₀).engine.drain.metadata.records
      s.engine.metadata.records := by
  set rs : List Request :=
    [.insert 5 (sampleInput "a" "" none), .insert 6 (sampleInput "b" "" none)]
  obtain ⟨e₀, hfirst, hn, hcount, hindex⟩ := exists_opened (P := fun e₀ =>
    let e := (sampleRun rs e₀).engine
    (sampleEvict 1 rs e₀).1 = .ok 1 ∧ e.metadata.recordCount = e.metadata.records.size ∧
      ∀ p ∈ e.drain.metadata.records.toList, e.idIndex[p.2.id]? = some p.1) (by decide +kernel)
  have hrun : sampleEvict 1 rs e₀ = (.ok 1, (sampleEvict 1 rs e₀).2) := Prod.ext hn rfl
  refine ⟨e₀, 1, _, hfirst, hrun, rfl, ?_⟩
  refine (evict_in_order_iff hcount (.inr rfl) hrun).mpr fun p hp _ => hindex p ?_
  rwa [ExtTreeMap.mem_toList_iff_getElem?_eq_some]

/-- **A record that cannot be evicted.** A failed batch leaves `b` live but not in the id index; an
eviction down to no records leaves it. -/
theorem evict_leaves_unindexed : ∃ (e₀ : Engine) (n : ℕ) (s : Gisting),
    Engine.open sampleEnv sampleConfig {} = .ok e₀ ∧
    sampleEvict 0 [.insertBatch (fun _ => 5) (sampleBatch [("a", some "1e999"), ("b", none)])] e₀
      = (.ok n, s) ∧ s.engine.metadata.records.size = 1 ∧
    ¬ (sampleSweep 0).EvictsInOrder (sampleRun [.insertBatch (fun _ => 5)
        (sampleBatch [("a", some "1e999"), ("b", none)])] e₀).engine.drain.metadata.records
      s.engine.metadata.records := by
  set rs : List Request :=
    [.insertBatch (fun _ => 5) (sampleBatch [("a", some "1e999"), ("b", none)])]
  obtain ⟨e₀, hfirst, hn, hleft, hprotected⟩ := exists_opened (P := fun e₀ =>
    (sampleEvict 0 rs e₀).1 = .ok 1 ∧ (sampleEvict 0 rs e₀).2.engine.metadata.records.size = 1 ∧
      ((sampleRun rs e₀).engine.drain.metadata.records.toList.countP fun p =>
        (sampleSweep 0).isProtected p.2) = 0) (by decide +kernel)
  refine ⟨e₀, 1, _, hfirst, Prod.ext hn rfl, hleft, fun hin => ?_⟩
  have hsize := hin.size 0 rfl
  rw [hprotected, hleft] at hsize
  simp at hsize

end TurboMemory
