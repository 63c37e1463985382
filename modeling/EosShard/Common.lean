import EosShard.Found.CString
import EosShard.Found.File

/-!
# Types shared by both shard formats

Errors, record names and checksums, the integer conversions of the code, blobs and records as the
readers hand them out, and the input files of the writers. An operation of the library answers in
`Result`: a value, a `GError` with the code and the message the source sets, or the abort of the
process (a failed allocation or assertion).
-/

namespace EosShard

open EosShard.Found

/-- The error codes of the library. Source: `eos-shard-enums.h`, `EosShardError`. -/
inductive EosShardError
  | shardFileNotFound
  | shardFilePathNotSet
  | shardFileCouldNotOpen
  | shardFileCorrupt
  | blobStreamRead
  | blobChecksumMismatch
  | bloomFilterCorrupt
  | dictionaryCorrupt
  | dictionaryWriterWrongNumberEntries
  | dictionaryWriterEntriesOutOfOrder
  deriving DecidableEq, Repr

/-- An error in the `EOS_SHARD_ERROR` domain. -/
structure GError where
  /-- The code. -/
  code : EosShardError
  /-- The message. -/
  message : String
  deriving DecidableEq, Repr

/-- How a call can fail to produce a value. -/
inductive Failure
  /-- It sets its `GError` and returns `NULL` or `FALSE`. -/
  | gerror (e : GError)
  /-- The process ends: GLib aborts it in `g_malloc` of an impossible size or in a failed `g_assert`, or an
  array has no positive length. -/
  | abort
  deriving DecidableEq, Repr

/-- The result of a call that can fail. -/
abbrev Result := Except Failure

/-- The error of both readers for a file they cannot open. -/
def corrupt : Failure := .gerror ⟨.shardFileCorrupt, "The shard file is corrupt."⟩

/-- `EOS_SHARD_RAW_NAME_SIZE`. Source: `eos-shard-shard-file.h`. -/
abbrev rawNameSize : ℕ := 20

/-- `EOS_SHARD_HEX_NAME_SIZE`. Source: `eos-shard-shard-file.h`. -/
abbrev hexNameSize : ℕ := 40

/-- A raw record name: the 20 bytes of a SHA-1 hash. -/
abbrev RawName := List.Vector UInt8 rawNameSize

/-- A SHA-256 digest. -/
abbrev Csum := List.Vector UInt8 32

/-- The bytes of an ASCII string constant. -/
def ascii (s : String) : Bytes := s.toList.map fun c => UInt8.ofNat c.toNat

/-- The `n`-byte array at the start of a buffer (zeros where the buffer ends early). -/
def byteArray (n : ℕ) (bs : Bytes) : List.Vector UInt8 n := ⟨bs.takeD n 0, bs.takeD_length n 0⟩

/-- An array of the right size is taken as it is. -/
theorem byteArray_toList {n : ℕ} (v : List.Vector UInt8 n) : byteArray n v.toList = v := by
  apply List.Vector.eq
  show v.toList.takeD n 0 = v.toList
  rw [List.takeD_eq_take _ v.toList_length.ge, List.take_of_length_le v.toList_length.le]

/-- An array that lies in a file is read back by the slice of its length. -/
theorem byteArray_slice {n off : ℕ} {f : Bytes} {v : List.Vector UInt8 n}
    (h : Holds f off v.toList) : byteArray n (slice f off n) = v := by
  rw [h.slice_eq v.toList_length.symm, byteArray_toList]

/-! ## Integer conversions -/

/-- An `int` that is assigned the number `n`: its low 32 bits, signed. -/
def asInt32 (n : ℕ) : ℤ := Int.bmod n (2 ^ 32)

/-- A number below 2^31 is not changed. -/
theorem asInt32_of_lt {n : ℕ} (h : n < 2 ^ 31) : asInt32 n = n := by
  unfold asInt32
  rw [Int.bmod_eq_of_le] <;> omega

/-- When a number that wraps around at `h` is below `k`. -/
theorem bmod_lt_natCast_iff {n k h : ℕ} (hh : 0 < h) :
    Int.bmod n (2 * h) < k ↔ n % (2 * h) < k ∨ h ≤ n % (2 * h) := by
  have hmod : (n : ℤ) % ((2 * h : ℕ) : ℤ) = ((n % (2 * h) : ℕ) : ℤ) := (Int.natCast_mod n (2 * h)).symm
  have hlt : n % (2 * h) < 2 * h := Nat.mod_lt n (by omega)
  rw [Int.bmod_def, hmod]
  split <;> omega

/-- An `int` is below a bound if its low 32 bits are, or if its sign bit is set. -/
theorem asInt32_lt_iff {n k : ℕ} : asInt32 n < k ↔ n % 2 ^ 32 < k ∨ 2 ^ 31 ≤ n % 2 ^ 32 := by
  have h := bmod_lt_natCast_iff (n := n) (k := k) (h := 2 ^ 31) (by norm_num)
  rwa [← pow_succ'] at h

/-- Whether a wrapped number is below a bound can be decided. -/
instance {n k : ℕ} : Decidable (asInt32 n < k) := decidable_of_iff' _ asInt32_lt_iff

/-- A number does not wrap around to a greater one. -/
theorem le_of_le_asInt32 {n k : ℕ} (h : (k : ℤ) ≤ asInt32 n) : k ≤ n := by
  obtain ⟨hle, -⟩ := not_or.mp (mt asInt32_lt_iff.mpr (not_lt.mpr h))
  exact (not_lt.mp hle).trans (Nat.mod_le n _)

/-- To wrap around in between does not change a sum. -/
theorem bmod_bmod_add (n k m : ℕ) : Int.bmod (Int.bmod n m + k) m = Int.bmod ((n + k : ℕ) : ℤ) m := by
  rw [Int.bmod_add_bmod, Nat.cast_add]

/-- Adding to an `int`. -/
theorem bmod_asInt32_add (n k : ℕ) : Int.bmod (asInt32 n + k) (2 ^ 32) = asInt32 (n + k) :=
  bmod_bmod_add n k (2 ^ 32)

/-- A `uint64_t` that is assigned an `int`: the sign is extended. -/
def uint64OfInt (i : ℤ) : ℕ := (i % 2 ^ 64).toNat

/-- The result fits into 64 bits. -/
theorem uint64OfInt_lt (i : ℤ) : uint64OfInt i < 2 ^ 64 := by
  unfold uint64OfInt
  omega

/-- A number below 2^31 goes through an `int` unchanged. -/
theorem uint64OfInt_asInt32_of_lt {n : ℕ} (h : n < 2 ^ 31) : uint64OfInt (asInt32 n) = n := by
  rw [asInt32_of_lt h, uint64OfInt]
  omega

/-- `GUINT_TO_POINTER` on a 64-bit host. -/
def guintToPointer (n : ℕ) : ℕ := n % 2 ^ 64

/-- `GPOINTER_TO_UINT`: a `guint` has 32 bits. -/
def gpointerToUint (p : ℕ) : ℕ := p % 2 ^ 32

/-- Fresh memory of a given size. The code reads some of it before it has written all of it. -/
abbrev Heap := (n : ℕ) → List.Vector UInt8 n

/-! ## Blobs and records -/

/-- How the data of a blob is stored. Source: `eos-shard-blob.h`, `EosShardBlobFlags`. -/
inductive EosShardBlobFlags
  | none
  | compressedZlib
  deriving DecidableEq, Repr

/-- The bits of a flag. Source: `eos-shard-blob.h`. -/
def EosShardBlobFlags.toNat : EosShardBlobFlags → ℕ
  | none => 0
  | compressedZlib => 1

/-- `flags & EOS_SHARD_BLOB_FLAG_COMPRESSED_ZLIB`. -/
def isCompressedZlib (flags : ℕ) : Bool := flags.testBit 0

/-- A blob as the readers hand it out. Source: `eos-shard-blob.h`, `struct _EosShardBlob` (without
the reference count and the back pointer to the shard). -/
structure EosShardBlob where
  /-- The MIME type. -/
  contentType : CString
  /-- The flags as stored. -/
  flags : ℕ
  /-- The checksum of the stored bytes. -/
  checksum : Csum
  /-- Where the stored bytes start. -/
  offs : ℕ
  /-- How many bytes are stored. -/
  size : ℕ
  /-- The size after decompression. -/
  uncompressedSize : ℕ
  deriving DecidableEq

/-- A record as the readers hand it out. Source: `eos-shard-record.h`, `struct _EosShardRecord`
(without the reference count and the back pointer to the shard). -/
structure EosShardRecord (π : Type) where
  /-- The raw name. -/
  rawName : RawName
  /-- What the implementation keeps with the record. -/
  privateData : π
  /-- The metadata blob, `none` for `NULL`. -/
  metadata : Option EosShardBlob
  /-- The data blob, `none` for `NULL`. -/
  data : Option EosShardBlob
  deriving DecidableEq

/-- The record with other private data. -/
def EosShardRecord.withPrivateData {π ρ : Type} (rec : EosShardRecord π) (g : π → ρ) :
    EosShardRecord ρ := ⟨rec.rawName, g rec.privateData, rec.metadata, rec.data⟩

/-! ## What goes into the writers -/

/-- A file handed to a writer: its contents, and the MIME type Gio detects for it. -/
structure GFile where
  /-- The bytes of the file. -/
  contents : Bytes
  /-- The detected MIME type. -/
  contentType : CString
  /-- The size of a file is an `off_t`. -/
  size_lt : contents.length < 2 ^ 63
  deriving DecidableEq

/-- What the writers use of GLib and GIO: the SHA-256 checksum and the zlib compressor. -/
structure Env where
  /-- `g_checksum_get_digest` of the whole input. -/
  sha256 : Bytes → Csum
  /-- Everything a zlib converter stream yields for an input. -/
  compress : Bytes → Bytes

/-- The bytes that go into the shard for a file: the file's, or the compressor's output. -/
def Env.stored (env : Env) (file : GFile) (flags : EosShardBlobFlags) : Bytes :=
  match flags with
  | .none => file.contents
  | .compressedZlib => env.compress file.contents

/-- The SHA-256 digest of the byte 1. -/
def oneDigest : Csum :=
  byteArray 32 [75, 245, 18, 47, 52, 69, 84, 197, 59, 222, 46, 187, 140, 210, 183, 227, 209, 96, 10,
    214, 49, 195, 133, 165, 215, 204, 226, 60, 119, 133, 69, 154]

/-- The zlib stream of the byte 1. -/
def oneZipped : Bytes := [120, 156, 99, 4, 0, 0, 2, 0, 2]

/-- The SHA-256 digest of that stream. -/
def oneZippedDigest : Csum :=
  byteArray 32 [71, 74, 227, 244, 198, 155, 233, 174, 10, 74, 122, 75, 116, 128, 147, 24, 11, 207,
    245, 181, 225, 128, 67, 13, 123, 173, 178, 149, 18, 66, 175, 191]

/-- The SHA-256 digest of no bytes. -/
def nullDigest : Csum :=
  byteArray 32 [227, 176, 196, 66, 152, 252, 28, 20, 154, 251, 244, 200, 153, 111, 185, 36, 39, 174,
    65, 228, 100, 155, 147, 76, 164, 149, 153, 27, 120, 82, 184, 85]

/-- Reads that fill their buffer with zeros. -/
theorem fullReads_size {n : ℕ} {p : Bytes}
    (hp : p ∈ List.replicate n (List.replicate (4096 * 4) 0)) : 0 < p.length ∧ p.length ≤ 4096 * 4 := by
  rw [List.eq_of_mem_replicate hp, List.length_replicate]
  omega

/-- What the libraries answer on the contents of small example archives: the byte 1, its zlib stream,
and no bytes. -/
def smallEnv : Env where
  sha256 b := if b = [1] then oneDigest else if b = oneZipped then oneZippedDigest else nullDigest
  compress b := if b = [1] then oneZipped else b

/-- Two MIME types. -/
def octetStream : CString := ⟨ascii "application/octet-stream", by decide⟩

/-- The content type of the examples. -/
def textPlain : CString := ⟨ascii "text/plain", by decide⟩

/-- A file with the byte 1. -/
def oneFile : GFile := ⟨[1], octetStream, by simp⟩

/-- An empty file. -/
def emptyFile : GFile := ⟨[], octetStream, by simp⟩

/-- The names of three records, in the order of their raw names. -/
def digitsName : CString := ⟨ascii "0123456789abcdef0123456789abcdef01234567", by decide⟩

/-- The name of a record, in capitals. -/
def capitalsName : CString := ⟨ascii "ABCDEF0123456789ABCDEF0123456789ABCDEF01", by decide⟩

/-- The greatest name of a record. -/
def lastName : CString := ⟨ascii "ffffffffffffffffffffffffffffffffffffffff", by decide⟩

end EosShard
