import Mathlib
import TurboMemory.Storage.Record

/-!
# Access counters

Accesses are counted in memory, each record with a ring of its last timestamps, and drained into
the records and their stored histories from time to time. Counters do not wrap. The tables are
functions of the offset: a drain treats every entry alike and touches only what belongs to its
offset, so the order of the entries does not matter.

## Main results

* `AccessStore.history_after_drain` — the stored history does not depend on when it was drained.
-/

set_option autoImplicit false

namespace TurboMemory

open List

/-- The longest ring. -/
def maxAccessHistoryLen : ℕ := 32

/-- The length of a ring. -/
def clampHistoryLen (len : ℕ) : ℕ := min (max len 1) maxAccessHistoryLen

/-- The accesses of one record since the last drain. A zero in the ring was never written. -/
structure AccessEntry where
  count : ℕ := 0
  lastAccessed : ℕ := 0
  ring : List ℕ
  ringCursor : ℕ := 0
deriving DecidableEq

namespace AccessEntry

/-- An empty entry. -/
def new (historyLen : ℕ) : AccessEntry := { ring := replicate historyLen 0 }

/-- One access. -/
def bump (e : AccessEntry) (now : ℕ) : AccessEntry where
  count := e.count + 1
  lastAccessed := now
  ring := e.ring.set (e.ringCursor % e.ring.length) now
  ringCursor := e.ringCursor + 1

/-- The timestamps of the ring. -/
def stamps (e : AccessEntry) : List ℕ := (e.ring.filter (· ≠ 0)).insertionSort (· ≤ ·)

end AccessEntry

/-- Merge timestamps into a stored history, and keep the most recent ones. -/
def appendAccessHistory (maxLen : ℕ) (history stamps : List ℕ) : List ℕ :=
  if stamps = [] then history
  else ((history ++ stamps).insertionSort (· ≤ ·)).rtake maxLen

/-- A record and its stored history, with what was counted. -/
def AccessEntry.drained (historyLen : ℕ) (entry : Option AccessEntry) :
    Option MetaRecord × List ℕ → Option MetaRecord × List ℕ
  | (none, history) => (none, history)
  | (some r, history) =>
    match entry with
    | none => (some r, history)
    | some e =>
      if e.count = 0 then (some r, history)
      else (some { r with
          accessCount := r.accessCount + e.count
          lastAccessed := max r.lastAccessed e.lastAccessed },
        appendAccessHistory historyLen history e.stamps)

/-- The counters, and what they are drained into. -/
structure AccessStore where
  counters : PointOffset → Option AccessEntry
  records : PointOffset → Option MetaRecord
  histories : PointOffset → List ℕ

/-- A call. -/
inductive AccessOp
  | bump (offset : PointOffset) (now : ℕ)
  | drainInto

/-- The timestamps at which a record is accessed. -/
def bumpsOf (offset : PointOffset) (ops : List AccessOp) : List ℕ :=
  ops.filterMap fun
    | .bump o now => if o = offset then some now else none
    | .drainInto => none

namespace AccessStore

variable (historyLen : ℕ)

/-- Record an access. -/
def bump (s : AccessStore) (offset : PointOffset) (now : ℕ) : AccessStore :=
  let entry := (s.counters offset).getD (.new historyLen)
  { s with counters := Function.update s.counters offset (some (entry.bump now)) }

/-- Drain the counters; those of records that are gone are dropped. -/
def drainInto (s : AccessStore) : AccessStore where
  counters _ := none
  records o := (AccessEntry.drained historyLen (s.counters o) (s.records o, s.histories o)).1
  histories o := (AccessEntry.drained historyLen (s.counters o) (s.records o, s.histories o)).2

/-- An access or a drain. -/
def step (s : AccessStore) : AccessOp → AccessStore
  | .bump offset now => s.bump historyLen offset now
  | .drainInto => s.drainInto historyLen

end AccessStore

/-! ## The ring -/

section Ring

/-- Writing the oldest slot of a ring moves the window on. -/
lemma rotate_set {α : Type} (l : List α) (i : ℕ) (x : α) (h : 0 < l.length) :
    (l.set (i % l.length) x).rotate (i + 1) = (l.rotate i).tail ++ [x] := by
  have hlt : i % l.length < l.length := Nat.mod_lt i h
  have hslot : (l.set (i % l.length) x).rotate i = x :: (l.rotate i).tail := by
    rw [rotate_eq_drop_append_take_mod, rotate_eq_drop_append_take_mod, length_set,
      take_set_of_le le_rfl, drop_eq_getElem_cons hlt,
      drop_eq_getElem_cons (by simpa using hlt), drop_set_of_lt (Nat.lt_succ_self _),
      getElem_set_self]
    rfl
  rw [← rotate_rotate, hslot, rotate_cons_succ, rotate_zero]

/-- A full ring drops its first element for a new one. -/
lemma rtake_append_singleton {α : Type} {l : List α} {k : ℕ} (hk : 0 < k) (hle : k ≤ l.length)
    (x : α) : (l ++ [x]).rtake k = (l.rtake k).tail ++ [x] := by
  rw [rtake, rtake, tail_drop, length_append, length_singleton,
    drop_append_of_le_length (by omega), show l.length + 1 - k = l.length - k + 1 by omega]

/-- The end of a list needs only the ends of its parts. -/
lemma rtake_append_rtake {α : Type} (k : ℕ) (l l' : List α) :
    (l.rtake k ++ l'.rtake k).rtake k = (l ++ l').rtake k := by
  simp only [rtake_eq_reverse_take_reverse, reverse_append, reverse_reverse,
    take_append, take_take, length_take, length_reverse, min_self]
  congr 3
  omega

variable {k : ℕ} (hk : 0 < k)

include hk

/-- **The ring is a window** of the last timestamps, read from the slot that is written next. -/
lemma ring_bumps (ts : List ℕ) : let e := ts.foldl AccessEntry.bump (.new k)
    e.count = ts.length ∧ e.ringCursor = ts.length ∧ e.ring.length = k ∧
      e.ring.rotate ts.length = (replicate k 0 ++ ts).rtake k := by
  induction ts using reverseRecOn with
  | nil => simp [AccessEntry.new, rtake]
  | append_singleton ts t ih =>
    obtain ⟨hcount, hcursor, hlength, hring⟩ := ih
    rw [foldl_append, foldl_cons, foldl_nil, length_append]
    refine ⟨by rw [AccessEntry.bump, hcount]; rfl, by rw [AccessEntry.bump, hcursor]; rfl,
      by rw [AccessEntry.bump, length_set, hlength], ?_⟩
    rw [AccessEntry.bump, hcursor, length_singleton, rotate_set _ _ _ (by omega), hring,
      ← append_assoc, rtake_append_singleton hk (by simp)]

/-- A drain finds the last timestamps. -/
lemma stamps_bumps {ts : List ℕ} (hsorted : ts.Pairwise (· ≤ ·)) (hpos : ∀ t ∈ ts, 0 < t) :
    (ts.foldl AccessEntry.bump (.new k)).stamps = ts.rtake k := by
  obtain ⟨-, -, -, hring⟩ := ring_bumps hk ts
  have hsub : (ts.rtake k).Sublist ts := drop_sublist _ _
  have hwindow : ((replicate k 0 ++ ts).rtake k).filter (· ≠ 0) = ts.rtake k := by
    rw [rtake, length_append, length_replicate, Nat.add_sub_cancel_left,
      drop_append, filter_append, drop_replicate, length_replicate,
      filter_replicate_of_neg (by simp), nil_append]
    exact filter_eq_self.mpr fun t ht => by simpa using (hpos t (hsub.subset ht)).ne'
  refine Perm.eq_of_pairwise' (pairwise_insertionSort _ _) (hsorted.sublist hsub) ?_
  rw [← hwindow, ← hring]
  exact (perm_insertionSort _ _).trans ((rotate_perm _ _).symm.filter _)

end Ring

/-! ## Runs -/

namespace AccessStore

variable {k : ℕ} {s : AccessStore} {offset : PointOffset}

/-- What is stored and counted of a record that was accessed at `done` before the last drain and at
`recent` since then. -/
structure Split (k : ℕ) (offset : PointOffset) (done recent : List ℕ) (s : AccessStore) : Prop where
  live : (s.records offset).isSome
  history : s.histories offset = done.rtake k
  entry : (s.counters offset).getD (.new k) = recent.foldl AccessEntry.bump (.new k)
  absent : s.counters offset = none → recent = []

/-- An access joins what is not drained yet. -/
lemma Split.bump {done recent : List ℕ} (h : Split k offset done recent s) (o : PointOffset)
    (now : ℕ) : Split k offset done (recent ++ bumpsOf offset [.bump o now]) (s.bump k o now) := by
  by_cases heq : o = offset
  · subst heq
    refine ⟨h.live, h.history, ?_, by simp [bump]⟩
    simp [bump, bumpsOf, h.entry]
  · have hsame : (s.bump k o now).counters offset = s.counters offset :=
      Function.update_of_ne (Ne.symm heq) ..
    rw [show bumpsOf offset [.bump o now] = [] by simp [bumpsOf, heq], append_nil]
    exact ⟨h.live, h.history, hsame ▸ h.entry, hsame ▸ h.absent⟩

/-- A drain stores the recent timestamps. -/
lemma Split.drainInto (hk : 0 < k) {done recent : List ℕ} (h : Split k offset done recent s)
    (hsorted : (done ++ recent).Pairwise (· ≤ ·)) (hpos : ∀ t ∈ recent, 0 < t) :
    Split k offset (done ++ recent) [] (s.drainInto k) := by
  obtain ⟨r, hr⟩ := Option.isSome_iff_exists.mp h.live
  have hentry := h.entry
  cases he : s.counters offset with
  | none =>
    obtain rfl := h.absent he
    rw [append_nil]
    refine ⟨?_, ?_, rfl, fun _ => rfl⟩ <;> simp [AccessStore.drainInto, AccessEntry.drained, he, hr]
    exact h.history
  | some e =>
    rw [he, Option.getD_some] at hentry
    obtain ⟨hcount, -⟩ := ring_bumps hk recent
    have hstamps := stamps_bumps hk (pairwise_append.mp hsorted).2.1 hpos
    rw [← hentry] at hcount hstamps
    refine ⟨?_, ?_, rfl, fun _ => rfl⟩ <;>
      simp only [AccessStore.drainInto, AccessEntry.drained, he, hr]
    · split <;> rfl
    have hkept : (done.rtake k ++ recent.rtake k).Pairwise (· ≤ ·) :=
      hsorted.sublist ((drop_sublist _ _).append (drop_sublist _ _))
    rw [h.history, hstamps, appendAccessHistory, ← rtake_append_rtake, hkept.insertionSort_eq]
    by_cases hnil : recent = []
    · rw [if_pos (by rw [hcount, hnil]; rfl), rtake_append_rtake, hnil, append_nil]
    · have hlast : recent.rtake k ≠ [] := by
        have := length_pos_iff.mpr hnil
        rw [rtake, Ne, drop_eq_nil_iff]
        omega
      rw [if_neg (by simpa [hcount] using hnil), if_neg hlast]

/-- **The stored history does not depend on the drains.** After accesses and drains in any order and
a last drain, it is the last timestamps of the record, as many as the ring has slots. **Proof
sketch.** What precedes the last drain is stored, the rest is in the ring, each cut to its last
timestamps (`Split`); cutting a part first changes nothing (`rtake_append_rtake`). -/
theorem history_after_drain (len : ℕ) (ops : List AccessOp) (hlive : (s.records offset).isSome)
    (hnew : s.counters offset = none) (hempty : s.histories offset = [])
    (hsorted : (bumpsOf offset ops).Pairwise (· ≤ ·)) (hpos : ∀ t ∈ bumpsOf offset ops, 0 < t) :
    ((ops.foldl (step (clampHistoryLen len)) s).drainInto (clampHistoryLen len)).histories offset =
      (bumpsOf offset ops).rtake (clampHistoryLen len) := by
  have hk : 0 < clampHistoryLen len := by
    simp [clampHistoryLen, maxAccessHistoryLen]
  generalize clampHistoryLen len = k at hk ⊢
  have hrun : ∃ done recent, done ++ recent = bumpsOf offset ops ∧
      Split k offset done recent (ops.foldl (step k) s) := by
    induction ops using reverseRecOn with
    | nil => exact ⟨[], [], rfl, hlive, by simp [hempty, rtake], by simp [hnew], fun _ => rfl⟩
    | append_singleton ops op ih =>
      have hsplit : bumpsOf offset (ops ++ [op]) = bumpsOf offset ops ++ bumpsOf offset [op] :=
        filterMap_append
      rw [hsplit] at hsorted hpos ⊢
      obtain ⟨done, recent, heq, h⟩ := ih (pairwise_append.mp hsorted).1
        fun t ht => hpos t (mem_append_left _ ht)
      rw [foldl_append, ← heq]
      cases op with
      | bump o now => exact ⟨done, _, (append_assoc ..).symm, h.bump o now⟩
      | drainInto =>
        refine ⟨done ++ recent, [], rfl, h.drainInto hk ?_ fun t ht => hpos t ?_⟩
        · exact heq ▸ (pairwise_append.mp hsorted).1
        · exact mem_append_left _ (heq ▸ mem_append_right _ ht)
  obtain ⟨done, recent, heq, h⟩ := hrun
  rw [← heq] at hsorted hpos ⊢
  exact (h.drainInto hk hsorted fun t ht => hpos t (mem_append_right _ ht)).history

/-- Accesses around a drain. -/
def sampleAccesses : List AccessOp := [.bump 0 5, .bump 0 6, .drainInto, .bump 0 7, .bump 0 7]

/-- Three accesses and two drains. -/
theorem history_after_drain_sample : let s : AccessStore := ⟨fun _ => none,
      fun _ => some ⟨"a", "", F32.one, [], 0, 0, 0, 0, .hot, none, none, none⟩, fun _ => []⟩
    ((sampleAccesses.foldl (step 3) s).drainInto 3).histories 0 = [6, 7, 7] :=
  history_after_drain 3 sampleAccesses rfl rfl rfl (by decide) (by decide)

end AccessStore

end TurboMemory
