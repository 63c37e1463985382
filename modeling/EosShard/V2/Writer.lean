import EosShard.Names
import EosShard.V2.Format
import EosShard.Found.Search

/-!
# The V2 writer

`eos-shard-writer-v2.c`. An operation answers with the new writer and the `pwrite` calls it issues
on the shard file, in order; the file is what these calls make of its previous contents
(`applyWrites`).

`add_blob` is written as the sections its lock makes of it: `poolSection`, `reserveSection`, the
unlocked copy of the data and `assignSection`. Offsets go through the hash tables as pointers and
come back through `GPOINTER_TO_UINT`, which keeps 32 bits.
-/

namespace EosShard.V2

open EosShard.Found

/-- `ALIGN`. Source: `eos-shard-writer-v2.c`. -/
def align (n : ℕ) : ℕ := alignUp 0x20 n

/-! ## The constant pool -/

/-- Source: `eos-shard-writer-v2.c`, `struct constant_pool`. -/
structure ConstantPool where
  totalSize : ℕ
  stringsToOffsets : Table CString ℕ
  strings : List CString
  deriving DecidableEq

/-- Source: `eos-shard-writer-v2.c`, `constant_pool_init`. -/
def constantPoolInit : ConstantPool := ⟨0, [], []⟩

/-- Add a string, or find the one that is there; the answer is its offset in the pool.
Source: `eos-shard-writer-v2.c`, `constant_pool_add`. -/
def constantPoolAdd (cpool : ConstantPool) (S : CString) : ConstantPool × ℕ :=
  match cpool.stringsToOffsets.lookup S with
  | some p => (cpool, gpointerToUint p)
  | none =>
      ({ totalSize := cpool.totalSize + S.size,
         stringsToOffsets := cpool.stringsToOffsets.insert S (guintToPointer cpool.totalSize),
         strings := cpool.strings ++ [S] }, cpool.totalSize)

/-- The writes of the pool, one string after the other.
Source: `eos-shard-writer-v2.c`, `constant_pool_write`. -/
def constantPoolWrite : List CString → ℕ → List Write
  | [], _ => []
  | key :: strings, offset => ⟨offset, key.toBytes⟩ :: constantPoolWrite strings (offset + key.size)

/-! ## The writer -/

/-- Source: `eos-shard-writer-v2.c`, `struct eos_shard_writer_v2_blob_entry`. -/
structure BlobEntry where
  /-- Where `finish` puts the blob header. -/
  offs : ℕ
  name : CString
  sblob : Blob
  deriving DecidableEq

/-- An entry that stands for a missing one. -/
instance : Inhabited BlobEntry :=
  ⟨⟨0, CString.empty, ⟨0, 0, 0, List.Vector.replicate 32 0, 0, 0, 0⟩⟩⟩

/-- Source: `eos-shard-writer-v2.c`, `struct eos_shard_writer_v2_record_entry`. The pointers of
`blobs` are indices into the writer's blob array. -/
structure RecordEntry where
  rawName : RawName
  blobs : List ℕ
  blobTableStart : ℕ
  deriving DecidableEq

/-- Source: `eos-shard-writer-v2.c`, `struct _EosShardWriterV2`; `ctxOffset` is `ctx.offset`. -/
structure WriterV2 where
  ctxOffset : ℕ
  blobs : List BlobEntry
  records : List RecordEntry
  csumToDataStart : Table Csum ℕ
  cpool : ConstantPool
  deriving DecidableEq

/-- Source: `eos-shard-writer-v2.c`, `eos_shard_writer_v2_init` and `open_write_context`. -/
def writerV2New : WriterV2 := ⟨Hdr.sizeof, [], [], [], constantPoolInit⟩

variable {env : Env}

/-- A call of `add_blob`: its arguments, and the pieces in which successive reads return the stored
data. -/
structure AddBlob (env : Env) where
  name : CString
  file : GFile
  /-- `none` is `NULL`: the type is detected. -/
  contentType : Option CString
  flags : EosShardBlobFlags
  /-- What the reads of the copy loop return, up to the final 0. -/
  reads : List Bytes
  reads_flatten : reads.flatten = env.stored file flags
  reads_size : ∀ p ∈ reads, 0 < p.length ∧ p.length ≤ 4096 * 4

namespace AddBlob

/-- The content type that is stored. -/
def type (c : AddBlob env) : CString := c.contentType.getD c.file.contentType

/-- The bytes that are stored. -/
def stored (c : AddBlob env) : Bytes := env.stored c.file c.flags

/-- The checksum of the stored bytes. -/
def csum (c : AddBlob env) : Csum := env.sha256 c.stored

/-- The length checks of `add_blob`. -/
def Accepted (c : AddBlob env) : Prop :=
  c.name.length ≤ maxNameSize ∧ c.type.length ≤ maxContentTypeSize

/-- Whether a call is accepted can be decided. -/
instance (c : AddBlob env) : Decidable c.Accepted := inferInstanceAs (Decidable (_ ∧ _))

/-- The entry of the call before its data is placed. -/
def entry (c : AddBlob env) (nameOffs contentTypeOffs : ℕ) : BlobEntry where
  offs := 0
  name := c.name
  sblob := { flags := c.flags.toNat, nameOffs := nameOffs, contentTypeOffs := contentTypeOffs,
             csum := c.csum, size := 0, uncompressedSize := c.file.contents.length, dataStart := 0 }

end AddBlob

/-- The first locked section of `add_blob`: both strings go into the pool. The answer contains the
offsets of the name and of the content type. -/
def poolSection (w : WriterV2) (c : AddBlob env) : WriterV2 × ℕ × ℕ :=
  let (cpool, nameOffs) := constantPoolAdd w.cpool c.name
  let (cpool, contentTypeOffs) := constantPoolAdd cpool c.type
  ({ w with cpool := cpool }, nameOffs, contentTypeOffs)

/-- `data_start` as the second locked section looks it up; 0 stands for a checksum that is not in
the table. -/
def lookupDataStart (w : WriterV2) (csum : Csum) : ℕ :=
  gpointerToUint ((w.csumToDataStart.lookup csum).getD 0)

/-- The second locked section of `add_blob`: append the entry and, for new data, reserve its space.
The answer contains the index of the entry, the data offset, and whether the data is new. -/
def reserveSection (w : WriterV2) (c : AddBlob env) (nameOffs contentTypeOffs : ℕ) :
    WriterV2 × ℕ × ℕ × Bool :=
  let dataStart := lookupDataStart w c.csum
  let blobs := w.blobs ++ [c.entry nameOffs contentTypeOffs]
  let index := blobs.length - 1
  if dataStart = 0 then
    ({ w with blobs := blobs, ctxOffset := align (w.ctxOffset + c.stored.length),
              csumToDataStart := w.csumToDataStart.insert c.csum (guintToPointer w.ctxOffset) },
      index, w.ctxOffset, true)
  else ({ w with blobs := blobs }, index, dataStart, false)

/-- The final assignments of `add_blob` to its entry. -/
def assignSection (w : WriterV2) (c : AddBlob env) (index dataStart : ℕ) : WriterV2 :=
  { w with blobs := w.blobs.modify index fun b =>
      { b with sblob := { b.sblob with dataStart := dataStart, size := c.stored.length } } }

/-- Add a blob; the answer contains the `pwrite` calls and the id. Over-long names and content types
are turned away with the id 0. Source: `eos-shard-writer-v2.c`, `eos_shard_writer_v2_add_blob`. -/
def addBlob (w : WriterV2) (c : AddBlob env) : WriterV2 × List Write × ℕ :=
  if c.Accepted then
    let (w, nameOffs, contentTypeOffs) := poolSection w c
    let (w, index, dataStart, isNew) := reserveSection w c nameOffs contentTypeOffs
    (assignSection w c index dataStart, if isNew then seqWrites dataStart c.reads else [], index)
  else (w, [], 0)

/-- Add a record; the result of the conversion of the name is not looked at.
Source: `eos-shard-writer-v2.c`, `eos_shard_writer_v2_add_record`. -/
def addRecord (w : WriterV2) (hexName : CString) : WriterV2 × ℕ :=
  let records := w.records ++ [⟨(hexNameToRawName zeroRawName hexName).2, [], 0⟩]
  ({ w with records := records }, records.length - 1)

/-- Attach a blob to a record; `none` where an id is out of the bounds of its array, which is
undefined in C. Source: `eos-shard-writer-v2.c`, `eos_shard_writer_v2_add_blob_to_record`. -/
def addBlobToRecord (w : WriterV2) (recordId blobId : ℕ) : Option WriterV2 :=
  if recordId < w.records.length ∧ blobId < w.blobs.length then
    some { w with records := w.records.modify recordId fun e => { e with blobs := e.blobs ++ [blobId] } }
  else none

/-! ## Finishing -/

/-- The loop over the blob headers: the entries with their offsets, the writes, and the offset
afterwards. Source: `eos-shard-writer-v2.c`, first loop of `eos_shard_writer_v2_finish`. -/
def writeBlobHeaders : ℕ → List BlobEntry → List BlobEntry × List Write × ℕ
  | offset, [] => ([], [], offset)
  | offset, b :: bs =>
      let (bs', ws, offset') := writeBlobHeaders (offset + Blob.sizeof) bs
      ({ b with offs := offset } :: bs', ⟨offset, b.sblob.toBytes⟩ :: ws, offset')

/-- The order of `compare_blob_table_entries`. -/
def blobNameLe (blobs : List BlobEntry) (i j : ℕ) : Prop :=
  (blobs.getD i default).name ≤ (blobs.getD j default).name

/-- The order of the blobs can be decided. -/
instance (blobs : List BlobEntry) : DecidableRel (blobNameLe blobs) :=
  fun _ _ => inferInstanceAs (Decidable (_ ≤ _))

/-- The loop over the entries of one blob table. -/
def writeBlobTableEntries (blobs : List BlobEntry) : ℕ → List ℕ → List Write × ℕ
  | offset, [] => ([], offset)
  | offset, i :: is =>
      let be : RecordBlobTableEntry := ⟨(blobs.getD i default).offs⟩
      let (ws, offset') := writeBlobTableEntries blobs (offset + RecordBlobTableEntry.sizeof) is
      (⟨offset, be.toBytes⟩ :: ws, offset')

/-- Write the blob table of a record, sorted by name (`g_array_sort` is stable).
Source: `eos-shard-writer-v2.c`, `write_blob_table`. -/
def writeBlobTable (blobs : List BlobEntry) (offset : ℕ) (e : RecordEntry) :
    RecordEntry × List Write × ℕ :=
  let sorted := e.blobs.insertionSort (blobNameLe blobs)
  let (ws, offset') := writeBlobTableEntries blobs offset sorted
  ({ e with blobs := sorted, blobTableStart := offset }, ws, offset')

/-- The loop over the blob tables.
Source: `eos-shard-writer-v2.c`, second loop of `eos_shard_writer_v2_finish`. -/
def writeBlobTables (blobs : List BlobEntry) : ℕ → List RecordEntry →
    List RecordEntry × List Write × ℕ
  | offset, [] => ([], [], offset)
  | offset, e :: es =>
      let (e', ws, offset) := writeBlobTable blobs offset e
      let (es', ws', offset) := writeBlobTables blobs offset es
      (e' :: es', ws ++ ws', offset)

/-- The record of an entry; the length goes into an 8-bit field. -/
def RecordEntry.srecord (e : RecordEntry) : Record where
  rawName := e.rawName
  flags := 0
  blobTableLength := e.blobs.length % 2 ^ 8
  blobTableStart := e.blobTableStart

/-- The loop over the records. Source: `eos-shard-writer-v2.c`, `write_record` and the third loop of
`eos_shard_writer_v2_finish`. -/
def writeRecords : ℕ → List RecordEntry → List Write × ℕ
  | offset, [] => ([], offset)
  | offset, e :: es =>
      let (ws, offset') := writeRecords (offset + Record.sizeof) es
      (⟨offset, e.srecord.toBytes⟩ :: ws, offset')

/-- The order of `compare_records`. -/
def rawNameLe (a b : RecordEntry) : Prop := a.rawName.toList ≤ b.rawName.toList

/-- The order of the records can be decided. -/
instance : DecidableRel rawNameLe := fun _ _ => inferInstanceAs (Decidable (_ ≤ _))

/-- Write everything behind the data, and last the header.
Source: `eos-shard-writer-v2.c`, `eos_shard_writer_v2_finish`. -/
def finish (w : WriterV2) : List Write :=
  let records := w.records.insertionSort rawNameLe
  let (blobs, blobWrites, offset) := writeBlobHeaders w.ctxOffset w.blobs
  let (records, tableWrites, offset) := writeBlobTables blobs offset records
  let recordsStart := align offset
  let (recordWrites, offset) := writeRecords recordsStart records
  let stringConstantTableStart := align offset
  let poolWrites := constantPoolWrite w.cpool.strings stringConstantTableStart
  let hdr : Hdr :=
    { magic := magic, flags := 0, recordsLength := w.records.length, recordsStart := recordsStart,
      stringConstantTableStart := stringConstantTableStart }
  blobWrites ++ (tableWrites ++ (recordWrites ++ (poolWrites ++ [⟨0, hdr.toBytes⟩])))

/-! ## Runs -/

/-- A call on the writer, before `finish`. -/
inductive Op (env : Env)
  | addBlob (c : AddBlob env)
  | addRecord (hexName : CString)
  | addBlobToRecord (recordId blobId : ℕ)

/-- One call: the new writer and the `pwrite` calls. -/
def step (w : WriterV2) : Op env → Option (WriterV2 × List Write)
  | .addBlob c => some ((addBlob w c).1, (addBlob w c).2.1)
  | .addRecord hexName => some ((addRecord w hexName).1, [])
  | .addBlobToRecord recordId blobId => (addBlobToRecord w recordId blobId).map fun w => (w, [])

/-- A sequence of calls: the final writer and all `pwrite` calls. -/
def run : WriterV2 → List (Op env) → Option (WriterV2 × List Write)
  | w, [] => some (w, [])
  | w, op :: ops => do
      let (w', ws) ← step w op
      let (w'', ws') ← run w' ops
      return (w'', ws ++ ws')

end EosShard.V2
