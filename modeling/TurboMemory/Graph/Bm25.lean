import TurboMemory.Graph.Extract
import TurboMemory.Lib.Grouping

/-!
# The statistics of the lexical index

The index counts, for every term, the documents that contain it, and the tokens of all documents.
Both are kept up to date as documents come and go.

## Main results

* `Bm25Index.recompute_eq` — in an index that calls have led to, the statistics are those of its
  documents, and recomputing them changes nothing.
-/

set_option autoImplicit false

namespace TurboMemory

open List Std ExtTreeMap

/-- The calls that change an index. -/
inductive Bm25Op
  | add (id text : String)
  | remove (id : String)

namespace Bm25Index

/-- One call. -/
def apply (A : GraphArith) (idx : Bm25Index) : Bm25Op → Bm25Index
  | .add id text => idx.add A id text
  | .remove id => idx.remove id

/-- Count all documents again, in the order in which the map lists them. -/
def recompute (documents : List (List String)) (idx : Bm25Index) : Bm25Index :=
  documents.foldl (fun idx tokens =>
    { idx with
      termDocFreq := addTermFreqs idx.termDocFreq tokens
      totalDocLen := idx.totalDocLen + tokens.length })
    { idx with termDocFreq := ∅, totalDocLen := 0 }

/-- The entry of a term that a number of documents contain: none for no document. -/
def entry (n : ℕ) : Option ℕ := if n = 0 then none else some n

/-- The statistics are those of some documents. -/
structure Exact (documents : List (List String)) (idx : Bm25Index) : Prop where
  freq : ∀ t, idx.termDocFreq[t]? = entry (documents.countP (t ∈ ·))
  len : idx.totalDocLen = (documents.map length).sum

variable {documents : List (List String)} {idx : Bm25Index} {tokens : List String}

/-- A loop over distinct terms that changes the entry of one term at a time. -/
lemma getElem?_foldl_terms {step : ExtTreeMap String ℕ → String → ExtTreeMap String ℕ}
    {g : Option ℕ → Option ℕ}
    (hstep : ∀ freq u t, (step freq u)[t]? = if u = t then g freq[t]? else freq[t]?)
    (tokens : List String) (freq : ExtTreeMap String ℕ) (t : String) :
    (tokens.eraseDups.foldl step freq)[t]? = if t ∈ tokens then g freq[t]? else freq[t]? := by
  have hnodup := nodup_eraseDups tokens
  simp only [← mem_eraseDups (l := tokens)]
  generalize tokens.eraseDups = terms at hnodup ⊢
  induction terms generalizing freq with
  | nil => simp
  | cons u terms ih =>
    obtain ⟨hnew, hnodup⟩ := nodup_cons.mp hnodup
    rw [foldl_cons, ih _ hnodup, hstep]
    by_cases hu : u = t
    · subst hu
      simp [hnew]
    · simp [hu, Ne.symm hu]

/-- One document more. -/
lemma Exact.addTermFreqs (h : Exact documents idx) (tokens : List String) (docs : _) :
    Exact (tokens :: documents) ⟨docs, addTermFreqs idx.termDocFreq tokens,
      idx.totalDocLen + tokens.length⟩ := by
  refine ⟨fun t => ?_, by simp [h.len, Nat.add_comm]⟩
  refine (getElem?_foldl_terms (g := fun c => some (c.getD 0 + 1)) (fun freq u t => ?_) ..).trans ?_
  · by_cases hu : u = t <;> simp [ExtTreeMap.getElem?_insert, hu]
  · rw [h.freq, countP_cons]
    by_cases ht : t ∈ tokens <;> by_cases hzero : documents.countP (t ∈ ·) = 0 <;>
      simp [ht, entry, hzero]

/-- One document less; nothing is subtracted that was not counted. -/
lemma Exact.removeTermFreqs (h : Exact (tokens :: documents) idx) (docs : _) :
    Exact documents ⟨docs, removeTermFreqs idx.termDocFreq tokens,
      idx.totalDocLen - tokens.length⟩ := by
  refine ⟨fun t => ?_, by simp [h.len]⟩
  refine (getElem?_foldl_terms (g := fun c => c.bind fun n => entry (n - 1))
    (fun freq u t => ?_) ..).trans ?_
  · by_cases hu : u = t
    · subst hu
      cases hn : freq[u]? with
      | none => simp [hn]
      | some n => by_cases hzero : n - 1 = 0 <;> simp [entry, hzero]
    · cases freq[u]? with
      | none => simp [hu]
      | some n => by_cases hzero : n - 1 = 0 <;> simp [ExtTreeMap.getElem?_erase,
          ExtTreeMap.getElem?_insert, hzero, hu]
  · rw [h.freq, countP_cons]
    by_cases ht : t ∈ tokens <;> simp [ht, entry]

/-- A document of an index and the others. -/
lemma documents_perm {docs : ExtTreeMap String (List String)} {id : String}
    (h : docs[id]? = some tokens) :
    (docs.toList.map Prod.snd).Perm (tokens :: (docs.erase id).toList.map Prod.snd) := by
  suffices docs.toList.Perm ((id, tokens) :: (docs.erase id).toList) from this.map Prod.snd
  refine (perm_ext_iff_of_nodup (Grouping.nodup_toList_keys docs).of_map
    (nodup_cons.mpr ⟨?_, (Grouping.nodup_toList_keys _).of_map⟩)).mpr ?_
  · simp [mem_toList_iff_getElem?_eq_some]
  · rintro ⟨id', tokens'⟩
    simp only [mem_cons, mem_toList_iff_getElem?_eq_some, getElem?_erase,
      LawfulEqCmp.compare_eq_iff_eq, Prod.mk.injEq]
    by_cases hid : id = id'
    · subst hid
      simp [h, eq_comm]
    · simp [hid, Ne.symm hid]

/-- The order of the documents does not matter. -/
lemma Exact.perm {documents' : List (List String)} (h : Exact documents idx)
    (hperm : documents.Perm documents') : Exact documents' idx :=
  ⟨fun t => by rw [h.freq, hperm.countP_eq], by rw [h.len, (hperm.map _).sum_nat]⟩

/-- The statistics of an index are those of its documents. -/
def Counted (idx : Bm25Index) : Prop := Exact (idx.docs.toList.map Prod.snd) idx

/-- A removal keeps the counts exact. -/
lemma Counted.remove (h : idx.Counted) (id : String) : (idx.remove id).Counted := by
  rw [Bm25Index.remove]
  split
  · exact h
  · next old hold => exact (Exact.perm h (documents_perm hold)).removeTermFreqs _

/-- So does an addition. -/
lemma Counted.add (h : idx.Counted) (A : GraphArith) (id text : String) :
    (idx.add A id text).Counted := by
  have hget : (idx.add A id text).docs[id]? = some (A.tokenize text) := by simp [docs_add]
  refine Exact.perm ?_ (documents_perm hget).symm
  have hrest : (idx.add A id text).docs.erase id = (idx.remove id).docs := by
    rw [docs_add, docs_remove]
    refine ext_getElem? fun id' => ?_
    simp only [ExtTreeMap.getElem?_erase, ExtTreeMap.getElem?_insert]
    split <;> rfl
  rw [hrest]
  exact (h.remove id).addTermFreqs _ _

/-- Counting from scratch is exact. -/
lemma exact_recompute (documents : List (List String)) (idx : Bm25Index) :
    Exact documents (idx.recompute documents) ∧ (idx.recompute documents).docs = idx.docs := by
  induction documents using reverseRecOn with
  | nil => exact ⟨⟨by simp [recompute, entry], rfl⟩, rfl⟩
  | append_singleton documents tokens ih =>
    rw [recompute, foldl_append]
    exact ⟨(ih.1.addTermFreqs tokens _).perm (perm_append_singleton tokens documents).symm, ih.2⟩

/-- **The statistics are exact** in an index that calls have led to: recomputing changes nothing, in
whatever order documents are counted; no entry is zero, and no difference is cut off at zero.
**Proof sketch.** Every call keeps the statistics those of the documents (`Counted.add`,
`Counted.remove`), recomputing makes them so (`exact_recompute`), and that determines them. -/
theorem recompute_eq (A : GraphArith) (calls : List Bm25Op) :
    let idx := calls.foldl (apply A) {}
    idx.Counted ∧
    (∀ documents, documents.Perm (idx.docs.toList.map Prod.snd) → idx.recompute documents = idx) ∧
    (∀ t : String, idx.termDocFreq[t]? ≠ some 0) ∧
    ∀ (id : String) (old : List String), idx.docs[id]? = some old →
      old.length ≤ idx.totalDocLen ∧ ∀ t ∈ old, t ∈ idx.termDocFreq := by
  intro idx
  have hcounted : idx.Counted := by
    refine Loop.foldl_induction _ ⟨by simp [entry], rfl⟩ fun call _ idx h => ?_
    cases call with
    | add id text => exact h.add A id text
    | remove id => exact h.remove id
  refine ⟨hcounted, fun documents hperm => ?_, fun t => ?_, fun id old hold => ?_⟩
  · obtain ⟨hexact, hdocs⟩ := exact_recompute documents idx
    have hidx := Exact.perm hcounted hperm.symm
    have hfreq : (idx.recompute documents).termDocFreq = idx.termDocFreq :=
      ext_getElem? fun t => (hexact.freq t).trans (hidx.freq t).symm
    have hlen := hexact.len.trans hidx.len.symm
    calc idx.recompute documents = ⟨idx.docs, idx.termDocFreq, idx.totalDocLen⟩ := by
          rw [← hdocs, ← hfreq, ← hlen]
      _ = idx := rfl
  · rw [hcounted.freq, entry]
    split <;> simp_all
  · have hold := Exact.perm hcounted (documents_perm hold)
    refine ⟨by simp [hold.len], fun t ht => mem_iff_isSome_getElem?.mpr ?_⟩
    simp [hold.freq, entry, ht]

end Bm25Index

end TurboMemory
