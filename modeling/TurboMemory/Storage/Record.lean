import Mathlib.Data.Finset.Sum

/-!
# Records

The durable record of a memory, as the public API sees it (`Record`, with its embedding) and
as the metadata cache and the write-ahead log hold it (`MetaRecord`, without), and the errors
of the storage layer.

Offsets and counters are natural numbers; a 64-bit counter does not run out. A float is kept
as its bits (`F32`) because the storage layer only stores, checks and compares floats: arithmetic
on embeddings enters through parameters where it is needed.
-/

set_option autoImplicit false

namespace TurboMemory

/-! ## Machine words -/

/-- The largest machine word. -/
def usizeMax : ℕ := 2 ^ 64 - 1

/-- Multiplication that stops at the largest machine word. -/
def satMul (a b : ℕ) : ℕ := min (a * b) usizeMax

/-- Addition that stops at the largest machine word. -/
def satAdd (a b : ℕ) : ℕ := min (a + b) usizeMax

/-! ## Values -/

/-- A 32-bit float, by its bit pattern. -/
structure F32 where
  bits : UInt32
deriving DecidableEq, Inhabited

namespace F32

/-- The eight exponent bits. -/
def exponent (x : F32) : UInt32 := (x.bits >>> 23) &&& 0xFF

/-- Neither NaN nor infinite: the exponent bits are not all ones. -/
def isFinite (x : F32) : Bool := x.exponent != 0xFF

/-- Finite, and neither zero nor subnormal. -/
def isNormal (x : F32) : Bool := x.isFinite && x.exponent != 0

/-- The absolute value: the sign bit is cleared. -/
def abs (x : F32) : F32 := ⟨x.bits &&& 0x7FFFFFFF⟩

/-- Positive or negative zero. -/
def isZero (x : F32) : Bool := (x.bits &&& 0x7FFFFFFF) == 0

/-- The value `0.0`. -/
def zero : F32 := ⟨0⟩

/-- The value `1.0`. -/
def one : F32 := ⟨0x3F800000⟩

end F32

/-- A dense vector. -/
abbrev Embedding := List F32

/-- Stable dense offset used inside vector segments. -/
abbrev PointOffset := ℕ

/-- A set of 32-bit offsets. -/
abbrev Bitmap := Finset ℕ

/-- The 32-bit offset a bitmap stores for a point. -/
def bmOffset (offset : PointOffset) : ℕ := offset % 2 ^ 32

/-- Whether a restriction admits a point: an absent one admits everything, a present one only
what its bitmap contains. -/
def admits (allowed : Option Bitmap) (offset : PointOffset) : Bool :=
  allowed.all (bmOffset offset ∈ ·)

/-- Which tier a vector segment occupies. -/
inductive Tier
  | hot
  | warm
  | cold
deriving DecidableEq, Inhabited

/-- The errors of the vector arithmetic. -/
inductive TurboError
  | dimensionMismatch (expected got : ℕ)
  | zeroNorm
  | nonFinite
  | invalidArgument (msg : String)
  | quantizationError (msg : String)
deriving DecidableEq

/-- Check the dimension of a vector; `err` is the caller's form of the error. -/
def validateDimension {α ε : Type} (err : TurboError → ε) (v : List α) (dim : ℕ) : Except ε Unit :=
  if v.length ≠ dim then .error (err (.dimensionMismatch dim v.length)) else .ok ()

/-- The errors of the storage layer. `io` stands for any failed system call. -/
inductive StorageError
  | core (e : TurboError)
  | redb
  | io (msg : String)
  | serialize (msg : String)
  | duplicateId (id : String)
  | notFound (id : String)
  | dimensionMismatch
  | invalidArgument (msg : String)
  | indexError (msg : String)
  | corrupted (msg : String)
deriving DecidableEq

/-! ## Normalization -/

/-- Float arithmetic. -/
structure FloatOps where
  mul : F32 → F32 → F32
  div : F32 → F32 → F32
  sum : List F32 → F32
  sqrt : F32 → F32

/-- The largest magnitude of a vector. Non-negative floats are ordered as their bits. -/
def maxAbs (v : Embedding) : F32 :=
  v.foldl (fun m x => if m.bits < x.abs.bits then x.abs else m) F32.zero

/-- Scale a vector to unit length. Where the sum of squares overflows or underflows, it is first
scaled by its largest magnitude. -/
def normalize (A : FloatOps) (v : Embedding) : Except TurboError Embedding :=
  if !v.all F32.isFinite then .error .nonFinite
  else
    let m := maxAbs v
    if m.isZero then .error .zeroNorm
    else
      let norm := A.sqrt (A.sum (v.map fun x => A.mul x x))
      if norm.isNormal then .ok (v.map fun x => A.div x norm)
      else
        let norm := A.sqrt (A.sum (v.map fun x => A.mul (A.div x m) (A.div x m)))
        .ok (v.map fun x => A.div (A.div x m) norm)

/-- Normalizing keeps the dimension. -/
lemma length_normalize {A : FloatOps} {v w : Embedding} (h : normalize A v = .ok w) :
    w.length = v.length := by
  simp only [normalize] at h
  split at h
  · cases h
  · split at h
    · cases h
    · split at h <;> cases h <;> simp

/-! ## Records -/

/-- A durable memory record as seen by the public API. -/
structure Record where
  id : String
  text : String
  embedding : Embedding
  importance : F32
  concepts : List String
  createdAt : ℕ
  insertSeq : ℕ
  accessCount : ℕ
  lastAccessed : ℕ
  tier : Tier
  payload : Option String
  scope : Option String
  sourceRole : Option String
deriving DecidableEq

/-- Metadata-only view of a record: everything but the embedding, which lives in the vector
store. -/
structure MetaRecord where
  id : String
  text : String
  importance : F32
  concepts : List String
  createdAt : ℕ
  insertSeq : ℕ
  accessCount : ℕ
  lastAccessed : ℕ
  tier : Tier
  payload : Option String
  scope : Option String
  sourceRole : Option String
deriving DecidableEq

namespace MetaRecord

/-- Hydrate a full `Record` by attaching an embedding. -/
def withEmbedding (m : MetaRecord) (embedding : Embedding) : Record where
  id := m.id
  text := m.text
  embedding := embedding
  importance := m.importance
  concepts := m.concepts
  createdAt := m.createdAt
  insertSeq := m.insertSeq
  accessCount := m.accessCount
  lastAccessed := m.lastAccessed
  tier := m.tier
  payload := m.payload
  scope := m.scope
  sourceRole := m.sourceRole

/-- The metadata of a record. -/
def ofRecord (r : Record) : MetaRecord where
  id := r.id
  text := r.text
  importance := r.importance
  concepts := r.concepts
  createdAt := r.createdAt
  insertSeq := r.insertSeq
  accessCount := r.accessCount
  lastAccessed := r.lastAccessed
  tier := r.tier
  payload := r.payload
  scope := r.scope
  sourceRole := r.sourceRole

/-- The embedding is not part of the metadata. -/
@[simp] lemma ofRecord_withEmbedding (m : MetaRecord) (v : Embedding) :
    ofRecord (m.withEmbedding v) = m := rfl

/-- The two parts make up the record. -/
@[simp] lemma withEmbedding_ofRecord (r : Record) :
    (ofRecord r).withEmbedding r.embedding = r := rfl

end MetaRecord

end TurboMemory
