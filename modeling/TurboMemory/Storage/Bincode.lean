import TurboMemory.Storage.Wal

/-!
# The serialization of log records

The byte format the log's payloads are written in: fields one after another in declaration
order, little-endian fixed-width integers, a 64-bit length in front of every string and list,
a tag byte in front of an optional value and a 32-bit index in front of an enum variant. The
result is the `WalCodec` `bincode`.
-/

set_option autoImplicit false

namespace TurboMemory

open Bytes Bytes.Codec

/-- A float is its four bytes. -/
def bincodeF32 : Codec F32 := u32.iso F32.bits F32.mk fun _ => rfl

/-- A tier is the index of its variant. -/
def bincodeTier : Codec Tier :=
  u32.iso (fun | .hot => 0 | .warm => 1 | .cold => 2)
    (fun n => if n = 0 then .hot else if n = 1 then .warm else .cold)
    (by intro t; cases t <;> rfl)

/-- The fields of a metadata record, in declaration order. -/
def bincodeMeta : Codec MetaRecord :=
  (string.pair <| string.pair <| bincodeF32.pair <| (list string).pair <| nat64.pair <|
    nat64.pair <| nat64.pair <| nat64.pair <| bincodeTier.pair <| (option string).pair <|
    (option string).pair (option string)).iso
  (fun m => (m.id, m.text, m.importance, m.concepts, m.createdAt, m.insertSeq, m.accessCount,
    m.lastAccessed, m.tier, m.payload, m.scope, m.sourceRole))
  (fun (id, text, importance, concepts, createdAt, insertSeq, accessCount, lastAccessed, tier,
    payload, scope, sourceRole) => ⟨id, text, importance, concepts, createdAt, insertSeq,
    accessCount, lastAccessed, tier, payload, scope, sourceRole⟩)
  fun _ => rfl

/-- The fields of an insert. -/
def bincodeInsert : Codec (PointOffset × ℕ × MetaRecord × Option UInt32) :=
  nat64.pair <| nat64.pair <| bincodeMeta.pair (option u32)

/-- The fields of a replace. -/
def bincodeReplace : Codec (PointOffset × PointOffset × ℕ × MetaRecord × UInt32) :=
  nat64.pair <| nat64.pair <| nat64.pair <| bincodeMeta.pair u32

/-- An operation: the index of its variant, then its fields. -/
def bincodeOp : Codec WalOp where
  put
    | .insert offset seq record crc => u32.put 0 ++ bincodeInsert.put (offset, seq, record, crc)
    | .delete offset => u32.put 1 ++ nat64.put offset
    | .flush offset => u32.put 2 ++ nat64.put offset
    | .replace old offset seq record crc =>
      u32.put 3 ++ bincodeReplace.put (old, offset, seq, record, crc)
  get bs := (u32.get bs).bind fun (variant, bs) =>
    if variant = 0 then
      (bincodeInsert.get bs).map fun ((offset, seq, record, crc), rest) =>
        (.insert offset seq record crc, rest)
    else if variant = 1 then (nat64.get bs).map fun (offset, rest) => (.delete offset, rest)
    else if variant = 2 then (nat64.get bs).map fun (offset, rest) => (.flush offset, rest)
    else if variant = 3 then
      (bincodeReplace.get bs).map fun ((old, offset, seq, record, crc), rest) =>
        (.replace old offset seq record crc, rest)
    else none
  get_put op rest := by
    cases op <;> simp [List.append_assoc, u32.get_put, bincodeInsert.get_put,
      bincodeReplace.get_put, nat64.get_put]

/-- The version-1 operations: an insert had no checksum. -/
def bincodeGetV1 (bs : List UInt8) : Option WalOpV1 :=
  (u32.get bs).bind fun (variant, bs) =>
    if variant = 0 then
      ((nat64.pair (nat64.pair bincodeMeta)).get bs).map fun ((offset, seq, record), _) =>
        .insert offset seq record
    else if variant = 1 then (nat64.get bs).map fun (offset, _) => .delete offset
    else if variant = 2 then (nat64.get bs).map fun (offset, _) => .flush offset
    else none

/-- The serialization the log is written in. The reader ignores trailing bytes. -/
def bincode : WalCodec where
  serialize := bincodeOp.put
  deserialize bs := (bincodeOp.get bs).map Prod.fst
  deserializeV1 := bincodeGetV1
  deserialize_serialize op := by
    have hget := bincodeOp.get_put op []
    rw [List.append_nil] at hget
    rw [hget, Option.map_some]
  serialize_ne_nil op := by
    cases op <;> simp [bincodeOp, u32, natLE]

end TurboMemory
