import EosShard.Common

/-!
# The V1 on-disk header

A V1 shard starts with a 64-bit length and a GVariant of type `(sa(ay(sayuttt)(sayuttt)))`. The
GVariant library is a parameter, `GVariantFormat`; what the code relies on is `Lawful`: decoding
inverts encoding, the size of the encoding depends on the shape of the value only, and the
encoding starts with its first string.
-/

namespace EosShard.V1

open EosShard.Found

/-- `EOS_SHARD_V1_MAGIC`. -/
def magic : CString := ⟨ascii "ShardV1", by decide⟩

/-! ## Values -/

/-- A value of type `EOS_SHARD_V1_BLOB_ENTRY`: content type, SHA-256 checksum, flags, offset, size,
uncompressed size. Source: `eos-shard-format-v1.h`. -/
structure BlobEntry where
  contentType : CString
  checksum : Bytes
  flags : ℕ
  offs : ℕ
  size : ℕ
  uncompressedSize : ℕ
  deriving DecidableEq

/-- A value of type `EOS_SHARD_V1_RECORD_ENTRY`: raw name, metadata blob, data blob.
Source: `eos-shard-format-v1.h`. -/
structure RecordEntry where
  rawName : Bytes
  metadata : BlobEntry
  data : BlobEntry
  deriving DecidableEq

/-- A value of type `EOS_SHARD_V1_HEADER_ENTRY`: magic, array of records.
Source: `eos-shard-format-v1.h`. -/
structure HeaderEntry where
  magic : CString
  records : List RecordEntry
  deriving DecidableEq

/-! ## UTF-8 -/

/-- Where a UTF-8 decoder is between two bytes: `k` continuation bytes are due, the first of them
between `lo` and `hi`. -/
structure Utf8State where
  k : ℕ
  lo : UInt8
  hi : UInt8
  deriving DecidableEq

/-- One byte, by the table of well-formed byte sequences. -/
def utf8Step (s : Utf8State) (b : UInt8) : Option Utf8State :=
  if s.k = 0 then
    if b ≤ 0x7F then some ⟨0, 0x80, 0xBF⟩
    else if 0xC2 ≤ b ∧ b ≤ 0xDF then some ⟨1, 0x80, 0xBF⟩
    else if b = 0xE0 then some ⟨2, 0xA0, 0xBF⟩
    else if b = 0xED then some ⟨2, 0x80, 0x9F⟩
    else if 0xE1 ≤ b ∧ b ≤ 0xEF then some ⟨2, 0x80, 0xBF⟩
    else if b = 0xF0 then some ⟨3, 0x90, 0xBF⟩
    else if 0xF1 ≤ b ∧ b ≤ 0xF3 then some ⟨3, 0x80, 0xBF⟩
    else if b = 0xF4 then some ⟨3, 0x80, 0x8F⟩
    else none
  else if s.lo ≤ b ∧ b ≤ s.hi then some ⟨s.k - 1, 0x80, 0xBF⟩
  else none

/-- `g_utf8_validate`. -/
def utf8Validate (bs : Bytes) : Bool :=
  match bs.foldlM utf8Step ⟨0, 0x80, 0xBF⟩ with
  | some s => s.k = 0
  | none => false

/-! ## Well-formed values -/

/-- A value the library can serialise: the string is UTF-8 and the numbers fit their types. -/
structure BlobEntry.WellFormed (b : BlobEntry) : Prop where
  contentType : utf8Validate b.contentType.chars = true
  flags : b.flags < 2 ^ 32
  offs : b.offs < 2 ^ 64
  size : b.size < 2 ^ 64
  uncompressedSize : b.uncompressedSize < 2 ^ 64

/-- The entry of a record can be serialised. -/
structure RecordEntry.WellFormed (r : RecordEntry) : Prop where
  metadata : r.metadata.WellFormed
  data : r.data.WellFormed

/-- A header can be serialised. -/
structure HeaderEntry.WellFormed (h : HeaderEntry) : Prop where
  magic : utf8Validate h.magic.chars = true
  records : ∀ r ∈ h.records, r.WellFormed

/-- The lengths of the strings and of the arrays. -/
def BlobEntry.shape (b : BlobEntry) : ℕ × ℕ := (b.contentType.length, b.checksum.length)

/-- What the size of a record's entry depends on. -/
def RecordEntry.shape (r : RecordEntry) : ℕ × (ℕ × ℕ) × (ℕ × ℕ) :=
  (r.rawName.length, r.metadata.shape, r.data.shape)

/-- What the size of a header depends on. -/
def HeaderEntry.shape (h : HeaderEntry) : ℕ × List (ℕ × (ℕ × ℕ) × (ℕ × ℕ)) :=
  (h.magic.length, h.records.map RecordEntry.shape)

/-- What the code uses of the GVariant library, at the type of the header. -/
structure GVariantFormat where
  /-- `g_variant_get_data`, with `g_variant_get_size` as its length. -/
  serialise : HeaderEntry → Bytes
  /-- The value of untrusted data; malformed parts have default values. -/
  deserialise : Bytes → HeaderEntry

/-- What the code relies on. -/
structure GVariantFormat.Lawful (gv : GVariantFormat) : Prop where
  /-- Decoding inverts encoding, for data that fits into memory. -/
  deserialise_serialise : ∀ h, h.WellFormed → (gv.serialise h).length < 2 ^ 63 →
    gv.deserialise (gv.serialise h) = h
  /-- The size depends on the number of records and the lengths of strings and arrays only. -/
  length_serialise : ∀ h h', h.shape = h'.shape →
    (gv.serialise h).length = (gv.serialise h').length
  /-- The first member of a tuple is at its start. -/
  holds_magic : ∀ h, Holds (gv.serialise h) 0 h.magic.toBytes

end EosShard.V1
