import EosShard.Names
import EosShard.V1.Format
import EosShard.Found.Search

/-!
# The V1 writer

`eos-shard-writer-v1.c`. The calls only collect files; `writeToFd` does all the writing: it sorts the
records, serialises the header once to learn its size, copies the data of the blobs behind the place
of the header, and then writes the header again with the offsets filled in. It answers with the
`write` calls as positioned writes, in order; the descriptor's position is passed along.
-/

namespace EosShard.V1

open EosShard.Found

/-- `ALIGN`. Source: `eos-shard-writer-v1.c`. -/
def align (n : ℕ) : ℕ := alignUp 0x40 n

/-- Which blob of a record. Source: `eos-shard-writer-v1.h`, `EosShardWriterV1Blob`. -/
inductive WriterV1Blob
  | metadata
  | data
  deriving DecidableEq, Repr

variable {env : Env}

/-- A call of `add_blob`: its arguments, and the pieces in which successive reads return the stored
data when it is copied. -/
structure AddBlob (env : Env) where
  whichBlob : WriterV1Blob
  file : GFile
  /-- `none` is `NULL`: the type is detected. -/
  contentType : Option CString
  flags : EosShardBlobFlags
  /-- What the reads of the copy loop return, up to the final 0. -/
  reads : List Bytes
  reads_flatten : reads.flatten = env.stored file flags
  reads_size : ∀ p ∈ reads, 0 < p.length ∧ p.length ≤ 4096 * 4

namespace AddBlob

/-- The content type that is stored. -/
def type (c : AddBlob env) : CString := c.contentType.getD c.file.contentType

/-- The bytes that are stored. -/
def stored (c : AddBlob env) : Bytes := env.stored c.file c.flags

end AddBlob

/-- Source: `eos-shard-writer-v1.c`, `struct eos_shard_writer_v1_blob_entry`. -/
structure WriterBlobEntry (env : Env) where
  /-- The file to copy, with the call that has set it; `none` for `NULL`. -/
  file : Option (AddBlob env)
  contentType : CString
  flags : ℕ
  checksum : Csum
  offs : ℕ
  size : ℕ
  uncompressedSize : ℕ

/-- Source: `eos-shard-writer-v1.c`, `struct eos_shard_writer_v1_record_entry`. -/
structure WriterRecordEntry (env : Env) where
  rawName : RawName
  metadata : WriterBlobEntry env
  data : WriterBlobEntry env

/-- Source: `eos-shard-writer-v1.c`, `struct _EosShardWriterV1`. -/
structure WriterV1 (env : Env) where
  entries : List (WriterRecordEntry env)

/-- Source: `eos-shard-writer-v1.c`, `eos_shard_writer_v1_init`. -/
def writerV1New : WriterV1 env := ⟨[]⟩

/-! ## Collecting -/

/-- A zeroed blob entry with an empty content type.
Source: `eos-shard-writer-v1.c`, `blob_entry_init`. -/
def blobEntryInit : WriterBlobEntry env :=
  ⟨none, CString.empty, 0, List.Vector.replicate 32 0, 0, 0, 0⟩

/-- Add a record; the result of the conversion of the name is not looked at.
Source: `eos-shard-writer-v1.c`, `eos_shard_writer_v1_add_record`. -/
def addRecord (w : WriterV1 env) (hexName : CString) : WriterV1 env :=
  ⟨w.entries ++ [⟨(hexNameToRawName zeroRawName hexName).2, blobEntryInit, blobEntryInit⟩]⟩

/-- The assignments of `add_blob` to the entry of the blob. -/
def WriterBlobEntry.set (b : WriterBlobEntry env) (c : AddBlob env) : WriterBlobEntry env :=
  { b with file := some c, flags := c.flags.toNat, contentType := c.type,
           uncompressedSize := c.file.contents.length }

/-- Source: `eos-shard-writer-v1.c`, `get_blob_entry`, for the assignment through the pointer. -/
def WriterRecordEntry.setBlob (e : WriterRecordEntry env) (c : AddBlob env) :
    WriterRecordEntry env :=
  match c.whichBlob with
  | .metadata => { e with metadata := e.metadata.set c }
  | .data => { e with data := e.data.set c }

/-- Set a blob of the record that was added last; `none` where there is no record, which is undefined
in C. Source: `eos-shard-writer-v1.c`, `eos_shard_writer_v1_add_blob`. -/
def addBlob (w : WriterV1 env) (c : AddBlob env) : Option (WriterV1 env) :=
  if w.entries = [] then none
  else some ⟨w.entries.modify (w.entries.length - 1) fun e => e.setBlob c⟩

/-! ## Writing -/

/-- Copy the data of a blob from the position `pos` of the descriptor on; the answer contains the
entry, the writes and the new position. A write behind the range of `off_t` fails, and the assertion
with it. The total size is counted in an `int`.
Source: `eos-shard-writer-v1.c`, `write_blob`. -/
def writeBlob (pos : ℕ) (blob : WriterBlobEntry env) :
    Option (WriterBlobEntry env × List Write × ℕ) :=
  match blob.file with
  | none => some (blob, [], pos)
  | some file =>
      let offs := align pos
      if offs + file.stored.length < 2 ^ 63 then
        some ({ blob with offs := offs, checksum := env.sha256 file.stored,
                          size := uint64OfInt (asInt32 file.stored.length) },
          seqWrites offs file.reads, offs + file.stored.length)
      else none

/-- The loop over the records. Source: `eos-shard-writer-v1.c`, the loop of
`eos_shard_writer_v1_write_to_fd`. -/
def writeBlobs : ℕ → List (WriterRecordEntry env) →
    Option (List (WriterRecordEntry env) × List Write × ℕ)
  | pos, [] => some ([], [], pos)
  | pos, e :: es => do
      let (metadata, ws, pos) ← writeBlob pos e.metadata
      let (data, ws', pos) ← writeBlob pos e.data
      let (es, ws'', pos) ← writeBlobs pos es
      return (⟨e.rawName, metadata, data⟩ :: es, ws ++ (ws' ++ ws''), pos)

/-- Source: `eos-shard-writer-v1.c`, `blob_entry_variant`. -/
def blobEntryVariant (blob : WriterBlobEntry env) : BlobEntry :=
  ⟨blob.contentType, blob.checksum.toList, blob.flags, blob.offs, blob.size, blob.uncompressedSize⟩

/-- Source: `eos-shard-writer-v1.c`, `record_entry_variant`. -/
def recordEntryVariant (entry : WriterRecordEntry env) : RecordEntry :=
  ⟨entry.rawName.toList, blobEntryVariant entry.metadata, blobEntryVariant entry.data⟩

/-- Source: `eos-shard-writer-v1.c`, `header_entry_variant`. -/
def headerEntryVariant (entries : List (WriterRecordEntry env)) : HeaderEntry :=
  ⟨magic, entries.map recordEntryVariant⟩

/-- The order of `compare_records`. -/
def rawNameLe (a b : WriterRecordEntry env) : Prop := a.rawName.toList ≤ b.rawName.toList

/-- The order of the records can be decided. -/
instance : DecidableRel (@rawNameLe env) :=
  fun _ _ => inferInstanceAs (Decidable (_ ≤ _))

/-- Write the shard: the data behind the place of the header, and then the length and the header.
`none` where the process does not survive: the `int` counter of the loop leaves its range above
`2 ^ 31` records, and a header the memory has no room for cannot be serialised.
Source: `eos-shard-writer-v1.c`, `eos_shard_writer_v1_write_to_fd`. -/
def writeToFd (gv : GVariantFormat) (w : WriterV1 env) : Option (WriterV1 env × List Write) :=
  let entries := w.entries.insertionSort rawNameLe
  let headerSize := (gv.serialise (headerEntryVariant entries)).length
  if entries.length ≤ 2 ^ 31 ∧ align (8 + headerSize) < 2 ^ 63 then do
    let (entries, ws, _) ← writeBlobs (align (8 + headerSize)) entries
    return (⟨entries⟩, ws ++ [⟨0, le 8 headerSize⟩,
      ⟨8, gv.serialise (headerEntryVariant entries)⟩])
  else none

/-! ## Runs -/

/-- A call on the writer, before `writeToFd`. -/
inductive Op (env : Env)
  | addRecord (hexName : CString)
  | addBlob (c : AddBlob env)

/-- One call. -/
def step (w : WriterV1 env) : Op env → Option (WriterV1 env)
  | .addRecord hexName => some (addRecord w hexName)
  | .addBlob c => addBlob w c

/-- A sequence of calls. -/
def run : WriterV1 env → List (Op env) → Option (WriterV1 env)
  | w, [] => some w
  | w, op :: ops => step w op >>= fun w' => run w' ops

end EosShard.V1
