import TurboMemory.Engine.Gists

/-!
# The grace period of an eviction

An eviction is to leave records alone that were inserted recently. The window it looks at is the
one since the last access, and a record that was never found has no access: its `lastAccessed` is
`0`. So a young record is treated like any other.

## Main results

* `evict_spares_young_iff` — young records are spared if none of them is doomed, and, without
  gists, only then.
-/

set_option autoImplicit false

namespace TurboMemory

variable {S T : Type} [LinearOrder S] {E : Env}

/-- The record was inserted less than the grace period ago. -/
def Sweep.Young (w : Sweep S T) (record : MetaRecord) : Prop := w.now - record.createdAt < w.grace

omit [LinearOrder S] in
instance (w : Sweep S T) : DecidablePred w.Young := fun _ => inferInstanceAs (Decidable (_ < _))

instance (w : Sweep S T) (records : Records) : DecidablePred (w.Doomed records) := fun _ =>
  inferInstanceAs (Decidable (_ ∨ _))

namespace Engine

/-- Every young record of `e` is still there in `e'`. -/
def SparesYoung (w : Sweep S T) (e e' : Engine) : Prop :=
  ∀ (o : PointOffset) (record : MetaRecord), e.metadata.records[o]? = some record →
    w.Young record → o ∈ e'.metadata.records

/-- With the pending accesses added, no young record whose id resolves to it is doomed: each was
accessed inside the window, or scores above the floor and has enough unprotected records before it.
-/
def YoungSafe (w : Sweep S T) (e : Engine) : Prop :=
  ∀ p : PointOffset × MetaRecord, e.drain.metadata.records[p.1]? = some p.2 → w.Young p.2 →
    w.Doomed e.drain.metadata.records p → e.idIndex[p.2.id]? ≠ some p.1

section

omit [LinearOrder S]

/-- Pending accesses do not change when a record was created. -/
lemma young_withAccesses (w : Sweep S T) (pending : Option (ℕ × ℕ)) (record : MetaRecord) :
    w.Young (withAccesses pending record) ↔ w.Young record := .rfl

/-- The young records of a store, before and after the drain. -/
lemma sparesYoung_iff (w : Sweep S T) (e e' : Engine) :
    e.SparesYoung w e' ↔ ∀ p : PointOffset × MetaRecord,
      e.drain.metadata.records[p.1]? = some p.2 → w.Young p.2 → p.1 ∈ e'.metadata.records := by
  constructor
  · intro h p hp hyoung
    rw [e.getElem?_drain, Option.map_eq_some_iff] at hp
    obtain ⟨record, hrecord, heq⟩ := hp
    exact h p.1 record hrecord ((young_withAccesses w _ record).mp (heq ▸ hyoung))
  · intro h o record hrecord hyoung
    refine h (o, withAccesses (e.accessCounters.toList.lookup o) record) ?_
      ((young_withAccesses w _ record).mpr hyoung)
    rw [e.getElem?_drain, hrecord, Option.map_some]

end

variable {w : Sweep S T} {compressor : Option Gister} {gistSeq : ℕ} {io : PointOffset → Io}
  {e : Engine} {r : Except StorageError ℕ} {s : Gisting}

/-- A record that an eviction deletes was doomed and its id resolved to it, whatever the compressor
does and whichever deletion fails. -/
lemma doomed_of_evicted (hcount : e.metadata.recordCount = e.metadata.records.size)
    (hfresh : e.Fresh) (h : e.evict E w compressor gistSeq io = (r, s))
    {p : PointOffset × MetaRecord} (hp : e.drain.metadata.records[p.1]? = some p.2)
    (hgone : p.1 ∉ s.engine.metadata.records) :
    w.Doomed e.drain.metadata.records p ∧ e.idIndex[p.2.id]? = some p.1 := by
  by_cases hoff : (w.tier.maxRecords.isNone && w.tier.evictScoreFloor.isNone) = true
  · -- Neither trigger is configured, and the store is left as it is.
    rw [evict, if_pos hoff] at h
    cases h
    exact absurd ((e.drain_spec.1 p.1).mp (Grouping.mem_of_getElem? hp)) hgone
  obtain ⟨G, g, -, -, hgisted, hdel⟩ := evict_steps hfresh (Bool.not_eq_true _ ▸ hoff) h
  have hcount' : e.drain.metadata.recordCount = e.drain.metadata.records.size := by
    rw [e.drain_spec.2.2, e.drain_spec.2.1, hcount]
  have hlt : p.1 < e.drain.metadata.nextOffset :=
    drain_fresh hfresh p.1 (Grouping.mem_of_getElem? hp)
  have hnodup : (((e.drain.victimsOf E w).filter fun v => !g.spared.contains v.1).map
      Prod.fst).Nodup := (List.filter_sublist.map Prod.fst).nodup (nodup_victimsOf E w e.drain)
  rcases (deleteVictims_spec _ hnodup hdel).1 p.1 with hsame | ⟨-, v, hv, hvo, hresolves⟩
  · rw [hgisted.gains.records p.1 hlt, hp] at hsame
    exact absurd (Grouping.mem_of_getElem? hsame) hgone
  · obtain ⟨q, hq, hdoomed, rfl⟩ := (mem_victimsOf_iff hcount' v).mp (List.mem_filter.mp hv).1
    obtain rfl : q = p := by
      refine Prod.ext hvo ?_
      rw [show q.1 = p.1 from hvo, hp] at hq
      exact (Option.some.inj hq).symm
    rw [hgisted.gains.resolves _ hlt, resolves_iff] at hresolves
    exact ⟨hdoomed, hresolves⟩

end Engine

variable {w : Sweep S T} {compressor : Option Gister} {gistSeq : ℕ} {io : PointOffset → Io}
  {e : Engine} {r : Except StorageError ℕ} {s : Gisting}

/-- **The grace period of young records.** An eviction spares every young record if none is doomed,
whatever the compressor answers and whichever deletions fail; without gists, one that succeeds
spares them only then. **Proof sketch.** Every record deleted is doomed and resolves; without gists
every such record is deleted. The drain changes no creation time. -/
theorem evict_spares_young_iff (hcount : e.metadata.recordCount = e.metadata.records.size)
    (hfresh : e.Fresh) (h : e.evict E w compressor gistSeq io = (r, s)) :
    (e.YoungSafe w → e.SparesYoung w s.engine) ∧
    ((w.tier.gistBeforeEvict = false ∨ compressor = none) → ∀ n, r = .ok n →
      (e.SparesYoung w s.engine ↔ e.YoungSafe w)) := by
  have hsafe : e.YoungSafe w → e.SparesYoung w s.engine := by
    intro hsafe
    rw [Engine.sparesYoung_iff]
    intro p hp hyoung
    by_contra hgone
    obtain ⟨hdoomed, hresolves⟩ := Engine.doomed_of_evicted hcount hfresh h hp hgone
    exact hsafe p hp hyoung hdoomed hresolves
  refine ⟨hsafe, fun hgist n hn => ⟨fun hspares p hp hyoung hdoomed hresolves => ?_, hsafe⟩⟩
  subst hn
  rw [Engine.sparesYoung_iff] at hspares
  exact ((Engine.evict_spec hcount hgist h).1 p hp).mpr ⟨hdoomed, hresolves⟩ (hspares p hp hyoung)

/-- An access-aware eviction down to one record, on a day of the year 2023. -/
def sampleAwareSweep : Sweep ℕ ℕ :=
  { sampleSweep 1 with
    tier := { (sampleSweep 1).tier with accessAwareEviction := true }, now := 1700000010 }

/-- A record inserted at `created`, another one ten seconds before the eviction, and the
eviction. -/
def sampleAwareEvict (created : ℕ) (e₀ : Engine) : Except StorageError ℕ × Gisting :=
  (sampleRun [.insert created (sampleInput "a" "" none),
    .insert 1700000000 (sampleInput "b" "" none)] e₀).engine.evict sampleEnv sampleAwareSweep
    none 0 fun _ => .ok

set_option maxRecDepth 10000

/-- An old record goes, and the young one stays. -/
theorem evict_spares_young_one : ∃ (e₀ e : Engine) (n : ℕ) (s : Gisting),
    Engine.open sampleEnv sampleConfig {} = .ok e₀ ∧
    e = (sampleRun [.insert 5 (sampleInput "a" "" none),
      .insert 1700000000 (sampleInput "b" "" none)] e₀).engine ∧
    sampleAwareEvict 5 e₀ = (.ok n, s) ∧ n = 1 ∧ e.SparesYoung sampleAwareSweep s.engine := by
  set rs : List Request := [.insert 5 (sampleInput "a" "" none),
    .insert 1700000000 (sampleInput "b" "" none)]
  obtain ⟨e₀, hfirst, hn, hcount, hfresh, hsafe⟩ := exists_opened (P := fun e₀ =>
    let e := (sampleRun rs e₀).engine
    (sampleAwareEvict 5 e₀).1 = .ok 1 ∧ e.metadata.recordCount = e.metadata.records.size ∧
      (∀ o ∈ e.metadata.records.keys, o < e.metadata.nextOffset) ∧
      ∀ p ∈ e.drain.metadata.records.toList, sampleAwareSweep.Young p.2 →
        ¬ sampleAwareSweep.Doomed e.drain.metadata.records p) (by decide +kernel)
  simp only [Std.ExtTreeMap.mem_keys] at hfresh
  have hrun : sampleAwareEvict 5 e₀ = (.ok 1, (sampleAwareEvict 5 e₀).2) := Prod.ext hn rfl
  refine ⟨e₀, _, 1, _, hfirst, rfl, hrun, rfl, ?_⟩
  exact (evict_spares_young_iff hcount hfresh hrun).1 fun p hp hyoung hdoomed =>
    absurd hdoomed (hsafe p (Std.ExtTreeMap.mem_toList_iff_getElem?_eq_some.mpr hp) hyoung)

/-- **A young record is evicted.** Both records are seconds old and were never found; the first
consolidation deletes one. -/
theorem evict_takes_young : ∃ (e₀ e : Engine) (s : Gisting),
    Engine.open sampleEnv sampleConfig {} = .ok e₀ ∧
    e = (sampleRun [.insert 1699999999 (sampleInput "a" "" none),
      .insert 1700000000 (sampleInput "b" "" none)] e₀).engine ∧
    sampleAwareSweep.tier.accessAwareEviction = true ∧
    sampleAwareEvict 1699999999 e₀ = (.ok 1, s) ∧ ¬ e.SparesYoung sampleAwareSweep s.engine := by
  set rs : List Request := [.insert 1699999999 (sampleInput "a" "" none),
    .insert 1700000000 (sampleInput "b" "" none)]
  obtain ⟨e₀, hfirst, hn, hyoung, hgone⟩ := exists_opened (P := fun e₀ =>
    (sampleAwareEvict 1699999999 e₀).1 = .ok 1 ∧ (sampleRun rs e₀).engine.metadata.records[0]?.any
        (fun record => sampleAwareSweep.Young record) ∧
      0 ∉ (sampleAwareEvict 1699999999 e₀).2.engine.metadata.records) (by decide +kernel)
  obtain ⟨record, hlive, hyoung⟩ := (Option.any_eq_true _ _).mp hyoung
  refine ⟨e₀, _, _, hfirst, rfl, rfl, Prod.ext hn rfl, fun hspares => hgone ?_⟩
  exact hspares 0 record hlive (of_decide_eq_true hyoung)

end TurboMemory
