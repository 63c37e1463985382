import EosShard.Common

/-!
# The V2 on-disk structs

The structs of `eos-shard-format-v2.h`, serialised the way the writer's `pwrite` of the C struct
does: little-endian fields at the offsets of `#pragma pack (4)`, padding zero. `ofBytes` reads a
struct out of the buffer a `pread` has filled. For every struct: its size, and the round trip
`ofBytes (toBytes s) = s` for values that fit their fields.
-/

namespace EosShard.V2

open EosShard.Found

/-- `EOS_SHARD_V2_MAGIC`. -/
def magic : Bytes := ascii "ShardV2 "

/-- The magic takes eight bytes. -/
@[simp] theorem length_magic : magic.length = 8 := rfl

/-- `EOS_SHARD_V2_BLOB_MAX_NAME_SIZE`. -/
abbrev maxNameSize : ℕ := 255

/-- `EOS_SHARD_V2_BLOB_MAX_CONTENT_TYPE_SIZE`. -/
abbrev maxContentTypeSize : ℕ := 255

/-! ## The header -/

/-- Source: `eos-shard-format-v2.h`, `struct eos_shard_v2_hdr`. -/
structure Hdr where
  magic : Bytes
  flags : ℕ
  recordsLength : ℕ
  recordsStart : ℕ
  stringConstantTableStart : ℕ
  deriving DecidableEq

/-- `sizeof (struct eos_shard_v2_hdr)`. -/
abbrev Hdr.sizeof : ℕ := 36

/-- The header in memory; two bytes of padding follow the 16-bit flags. -/
def Hdr.toBytes (h : Hdr) : Bytes :=
  h.magic ++ (le 2 h.flags ++ ([0, 0] ++ (le 8 h.recordsLength ++
    (le 8 h.recordsStart ++ le 8 h.stringConstantTableStart))))

/-- The header in a 36-byte buffer. -/
def Hdr.ofBytes (b : Bytes) : Hdr where
  magic := slice b 0 8
  flags := leNat (slice b 8 2)
  recordsLength := leNat (slice b 12 8)
  recordsStart := leNat (slice b 20 8)
  stringConstantTableStart := leNat (slice b 28 8)

/-- The values fit the fields. -/
structure Hdr.Fits (h : Hdr) : Prop where
  magic : h.magic.length = 8
  flags : h.flags < 2 ^ 16
  recordsLength : h.recordsLength < 2 ^ 64
  recordsStart : h.recordsStart < 2 ^ 64
  stringConstantTableStart : h.stringConstantTableStart < 2 ^ 64

/-- A header with a magic of eight bytes takes its size. -/
theorem Hdr.length_toBytes {h : Hdr} (hm : h.magic.length = 8) : h.toBytes.length = Hdr.sizeof := by
  simp [Hdr.toBytes, hm]

/-- The fields of a header that lies in a file. -/
theorem Hdr.holds_fields {f : Bytes} {off : ℕ} {h : Hdr} (hm : h.magic.length = 8)
    (hh : Holds f off h.toBytes) :
    Holds f off h.magic ∧ Holds f (off + 8) (le 2 h.flags) ∧
      Holds f (off + 12) (le 8 h.recordsLength) ∧ Holds f (off + 20) (le 8 h.recordsStart) ∧
      Holds f (off + 28) (le 8 h.stringConstantTableStart) := by
  simp only [Hdr.toBytes, Holds.append_iff, hm, length_le, List.length_cons, List.length_nil,
    Nat.add_assoc] at hh
  exact ⟨hh.1, hh.2.1, hh.2.2.2⟩

/-- **A header reads back from its bytes** if its fields fit. -/
theorem Hdr.ofBytes_toBytes {h : Hdr} (hf : h.Fits) : Hdr.ofBytes h.toBytes = h := by
  obtain ⟨h₁, h₂, h₃, h₄, h₅⟩ := Hdr.holds_fields hf.magic (holds_self h.toBytes)
  rw [Nat.zero_add] at h₂ h₃ h₄ h₅
  have e₁ : (Hdr.ofBytes h.toBytes).magic = h.magic := h₁.slice_eq hf.magic.symm
  have e₂ : (Hdr.ofBytes h.toBytes).flags = h.flags := h₂.leNat_slice rfl hf.flags
  have e₃ : (Hdr.ofBytes h.toBytes).recordsLength = h.recordsLength :=
    h₃.leNat_slice rfl hf.recordsLength
  have e₄ : (Hdr.ofBytes h.toBytes).recordsStart = h.recordsStart :=
    h₄.leNat_slice rfl hf.recordsStart
  have e₅ : (Hdr.ofBytes h.toBytes).stringConstantTableStart = h.stringConstantTableStart :=
    h₅.leNat_slice rfl hf.stringConstantTableStart
  cases h
  cases hb : Hdr.ofBytes _
  simp_all

/-! ## Records -/

/-- The tombstone bit. Source: `eos-shard-format-v2.h`, `EOS_SHARD_V2_RECORD_FLAG_TOMBSTONE`. -/
abbrev recordFlagTombstone : ℕ := 0x01

/-- Source: `eos-shard-format-v2.h`, `struct eos_shard_v2_record`. -/
structure Record where
  rawName : RawName
  flags : ℕ
  blobTableLength : ℕ
  blobTableStart : ℕ
  deriving DecidableEq

/-- `sizeof (struct eos_shard_v2_record)`. -/
abbrev Record.sizeof : ℕ := 36

/-- The record in memory; three bytes of padding follow the 8-bit length. -/
def Record.toBytes (r : Record) : Bytes :=
  r.rawName.toList ++ (le 4 r.flags ++ (le 1 r.blobTableLength ++ ([0, 0, 0] ++
    le 8 r.blobTableStart)))

/-- The record in a 36-byte buffer. -/
def Record.ofBytes (b : Bytes) : Record where
  rawName := byteArray rawNameSize (slice b 0 20)
  flags := leNat (slice b 20 4)
  blobTableLength := leNat (slice b 24 1)
  blobTableStart := leNat (slice b 28 8)

/-- The values fit the fields. -/
structure Record.Fits (r : Record) : Prop where
  flags : r.flags < 2 ^ 32
  blobTableLength : r.blobTableLength < 2 ^ 8
  blobTableStart : r.blobTableStart < 2 ^ 64

/-- A record takes its size. -/
@[simp] theorem Record.length_toBytes (r : Record) : r.toBytes.length = Record.sizeof := by
  simp [Record.toBytes]

/-- The fields of a record that lies in a file. -/
theorem Record.holds_fields {f : Bytes} {off : ℕ} {r : Record} (hr : Holds f off r.toBytes) :
    Holds f off r.rawName.toList ∧ Holds f (off + 20) (le 4 r.flags) ∧
      Holds f (off + 24) (le 1 r.blobTableLength) ∧ Holds f (off + 28) (le 8 r.blobTableStart) := by
  simp only [Record.toBytes, Holds.append_iff, List.Vector.toList_length, length_le,
    List.length_cons, List.length_nil, Nat.add_assoc] at hr
  exact ⟨hr.1, hr.2.1, hr.2.2.1, hr.2.2.2.2⟩

/-- **A record reads back from its bytes** if its fields fit. -/
theorem Record.ofBytes_toBytes {r : Record} (hf : r.Fits) : Record.ofBytes r.toBytes = r := by
  obtain ⟨h₁, h₂, h₃, h₄⟩ := Record.holds_fields (holds_self r.toBytes)
  rw [Nat.zero_add] at h₂ h₃ h₄
  have e₁ : (Record.ofBytes r.toBytes).rawName = r.rawName := byteArray_slice h₁
  have e₂ : (Record.ofBytes r.toBytes).flags = r.flags := h₂.leNat_slice rfl hf.flags
  have e₃ : (Record.ofBytes r.toBytes).blobTableLength = r.blobTableLength :=
    h₃.leNat_slice rfl hf.blobTableLength
  have e₄ : (Record.ofBytes r.toBytes).blobTableStart = r.blobTableStart :=
    h₄.leNat_slice rfl hf.blobTableStart
  cases r
  cases hb : Record.ofBytes _
  simp_all

/-! ## Blob table entries -/

/-- An entry of a record's blob table: where the blob header starts.
Source: `eos-shard-format-v2.h`, `struct eos_shard_v2_record_blob_table_entry`. -/
structure RecordBlobTableEntry where
  blobStart : ℕ
  deriving DecidableEq

/-- `sizeof (struct eos_shard_v2_record_blob_table_entry)`. -/
abbrev RecordBlobTableEntry.sizeof : ℕ := 8

/-- The entry in memory. -/
def RecordBlobTableEntry.toBytes (e : RecordBlobTableEntry) : Bytes := le 8 e.blobStart

/-- The entry in an 8-byte buffer. -/
def RecordBlobTableEntry.ofBytes (b : Bytes) : RecordBlobTableEntry := ⟨leNat b⟩

/-- An entry of a blob table takes its size. -/
@[simp] theorem RecordBlobTableEntry.length_toBytes (e : RecordBlobTableEntry) :
    e.toBytes.length = RecordBlobTableEntry.sizeof := length_le _ _

/-- **An entry of a blob table reads back from its bytes** if it fits into 64 bits. -/
theorem RecordBlobTableEntry.ofBytes_toBytes {e : RecordBlobTableEntry} (h : e.blobStart < 2 ^ 64) :
    RecordBlobTableEntry.ofBytes e.toBytes = e :=
  congrArg RecordBlobTableEntry.mk (leNat_le_of_lt (w := 8) h)

/-! ## Blob headers -/

/-- Source: `eos-shard-format-v2.h`, `struct eos_shard_v2_blob`. -/
structure Blob where
  flags : ℕ
  nameOffs : ℕ
  contentTypeOffs : ℕ
  csum : Csum
  size : ℕ
  uncompressedSize : ℕ
  dataStart : ℕ
  deriving DecidableEq

/-- `sizeof (struct eos_shard_v2_blob)`. -/
abbrev Blob.sizeof : ℕ := 76

/-- The blob header in memory; two bytes of padding follow the 16-bit flags. -/
def Blob.toBytes (b : Blob) : Bytes :=
  le 2 b.flags ++ ([0, 0] ++ (le 8 b.nameOffs ++ (le 8 b.contentTypeOffs ++ (b.csum.toList ++
    (le 8 b.size ++ (le 8 b.uncompressedSize ++ le 8 b.dataStart))))))

/-- The blob header in a 76-byte buffer. -/
def Blob.ofBytes (b : Bytes) : Blob where
  flags := leNat (slice b 0 2)
  nameOffs := leNat (slice b 4 8)
  contentTypeOffs := leNat (slice b 12 8)
  csum := byteArray 32 (slice b 20 32)
  size := leNat (slice b 52 8)
  uncompressedSize := leNat (slice b 60 8)
  dataStart := leNat (slice b 68 8)

/-- The values fit the fields. -/
structure Blob.Fits (b : Blob) : Prop where
  flags : b.flags < 2 ^ 16
  nameOffs : b.nameOffs < 2 ^ 64
  contentTypeOffs : b.contentTypeOffs < 2 ^ 64
  size : b.size < 2 ^ 64
  uncompressedSize : b.uncompressedSize < 2 ^ 64
  dataStart : b.dataStart < 2 ^ 64

/-- The header of a blob takes its size. -/
@[simp] theorem Blob.length_toBytes (b : Blob) : b.toBytes.length = Blob.sizeof := by
  simp [Blob.toBytes]

/-- The fields of a blob header that lies in a file. -/
theorem Blob.holds_fields {f : Bytes} {off : ℕ} {b : Blob} (hb : Holds f off b.toBytes) :
    Holds f off (le 2 b.flags) ∧ Holds f (off + 4) (le 8 b.nameOffs) ∧
      Holds f (off + 12) (le 8 b.contentTypeOffs) ∧ Holds f (off + 20) b.csum.toList ∧
      Holds f (off + 52) (le 8 b.size) ∧ Holds f (off + 60) (le 8 b.uncompressedSize) ∧
      Holds f (off + 68) (le 8 b.dataStart) := by
  simp only [Blob.toBytes, Holds.append_iff, List.Vector.toList_length, length_le,
    List.length_cons, List.length_nil, Nat.add_assoc] at hb
  exact ⟨hb.1, hb.2.2⟩

/-- **The header of a blob reads back from its bytes** if its fields fit. -/
theorem Blob.ofBytes_toBytes {b : Blob} (hf : b.Fits) : Blob.ofBytes b.toBytes = b := by
  obtain ⟨h₁, h₂, h₃, h₄, h₅, h₆, h₇⟩ := Blob.holds_fields (holds_self b.toBytes)
  rw [Nat.zero_add] at h₂ h₃ h₄ h₅ h₆ h₇
  have e₁ : (Blob.ofBytes b.toBytes).flags = b.flags := h₁.leNat_slice rfl hf.flags
  have e₂ : (Blob.ofBytes b.toBytes).nameOffs = b.nameOffs := h₂.leNat_slice rfl hf.nameOffs
  have e₃ : (Blob.ofBytes b.toBytes).contentTypeOffs = b.contentTypeOffs :=
    h₃.leNat_slice rfl hf.contentTypeOffs
  have e₄ : (Blob.ofBytes b.toBytes).csum = b.csum := byteArray_slice h₄
  have e₅ : (Blob.ofBytes b.toBytes).size = b.size := h₅.leNat_slice rfl hf.size
  have e₆ : (Blob.ofBytes b.toBytes).uncompressedSize = b.uncompressedSize :=
    h₆.leNat_slice rfl hf.uncompressedSize
  have e₇ : (Blob.ofBytes b.toBytes).dataStart = b.dataStart := h₇.leNat_slice rfl hf.dataStart
  cases b
  cases hb : Blob.ofBytes _
  simp_all

/-- A blob header as it comes back out of a file: every field cut to its width. -/
def Blob.reread (b : Blob) : Blob := Blob.ofBytes b.toBytes

/-- A header whose fields fit is not changed by the file. -/
theorem Blob.reread_of_fits {b : Blob} (hf : b.Fits) : b.reread = b := Blob.ofBytes_toBytes hf

/-- The checksum is not changed by the file. -/
theorem Blob.reread_csum (b : Blob) : b.reread.csum = b.csum := by
  obtain ⟨-, -, -, h, -⟩ := Blob.holds_fields (holds_self b.toBytes)
  rw [Nat.zero_add] at h
  exact byteArray_slice h

/-- The offset of the name is not changed if it fits into 64 bits. -/
theorem Blob.reread_nameOffs {b : Blob} (h : b.nameOffs < 2 ^ 64) :
    b.reread.nameOffs = b.nameOffs := by
  obtain ⟨-, h', -⟩ := Blob.holds_fields (holds_self b.toBytes)
  rw [Nat.zero_add] at h'
  exact h'.leNat_slice rfl h

/-- The offset of the content type is not changed if it fits into 64 bits. -/
theorem Blob.reread_contentTypeOffs {b : Blob} (h : b.contentTypeOffs < 2 ^ 64) :
    b.reread.contentTypeOffs = b.contentTypeOffs := by
  obtain ⟨-, -, h', -⟩ := Blob.holds_fields (holds_self b.toBytes)
  rw [Nat.zero_add] at h'
  exact h'.leNat_slice rfl h

/-- The uncompressed size is not changed if it fits into 64 bits. -/
theorem Blob.reread_uncompressedSize {b : Blob} (h : b.uncompressedSize < 2 ^ 64) :
    b.reread.uncompressedSize = b.uncompressedSize := by
  obtain ⟨-, -, -, -, -, h', -⟩ := Blob.holds_fields (holds_self b.toBytes)
  rw [Nat.zero_add] at h'
  exact h'.leNat_slice rfl h

end EosShard.V2
