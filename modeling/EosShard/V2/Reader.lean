import EosShard.V2.Format
import EosShard.Found.Search

/-!
# The V2 reader

`eos-shard-shard-file-impl-v2.c` over the bytes of the file behind the descriptor. `implV2New` is
the constructor with its allocation (`int buf_size`, the 64-bit product cut to 32 bits and signed);
`recordAt` reads the loaded buffer; `findBlob`, `blobNew` and `readBlob` follow the blob table,
the blob header and the string pool; `findRecordByRawName`, `listRecords` and `recordsForeach` are
the three traversals of the record table.
-/

namespace EosShard.V2

open EosShard.Found

/-- `EOS_SHARD_V2_BLOB_METADATA`. -/
def blobMetadata : CString := ⟨ascii "$metadata", by decide⟩

/-- `EOS_SHARD_V2_BLOB_DATA`. -/
def blobData : CString := ⟨ascii "$data", by decide⟩

/-- An opened V2 shard. Source: `eos-shard-shard-file-impl-v2.c`,
`struct _EosShardShardFileImplV2`. -/
structure ShardFileImplV2 where
  /-- The contents of the file behind the descriptor. -/
  fd : Bytes
  /-- The header. -/
  hdr : Hdr
  /-- The record buffer, as loaded. -/
  records : Bytes
  deriving DecidableEq

/-- Open a V2 shard: the header, its magic, and a buffer of `int buf_size` bytes for the records. A
negative size reaches `g_malloc` as a number above `2 ^ 63`, which aborts.
Source: `eos-shard-shard-file-impl-v2.c`, `_eos_shard_shard_file_impl_v2_new`. -/
def implV2New (fd : Bytes) : Result ShardFileImplV2 :=
  let buf := slice fd 0 Hdr.sizeof
  if buf.length ≠ Hdr.sizeof then .error corrupt
  else
    let hdr := Hdr.ofBytes buf
    if hdr.magic ≠ magic then .error corrupt
    else
      let bufSize := asInt32 (hdr.recordsLength * Record.sizeof % 2 ^ 64)
      if bufSize < 0 then .error .abort
      else
        match pread fd bufSize.toNat hdr.recordsStart with
        | some records => if records.length ≠ bufSize.toNat then .error corrupt else .ok ⟨fd, hdr, records⟩
        | none => .error corrupt

/-- Fill the zeroed buffer of a string constant; one byte is left for the NUL.
Source: `eos-shard-shard-file-impl-v2.c`, `lookup_string_constant`. -/
def lookupStringConstant (impl : ShardFileImplV2) (bufSize offs : ℕ) : Option Bytes :=
  match pread impl.fd (bufSize - 1) (impl.hdr.stringConstantTableStart + offs) with
  | some bs => if 0 < bs.length then some (overlay (List.replicate bufSize 0) bs) else none
  | none => none

/-- The blob of a blob header; a blob without data is `NULL`.
Source: `eos-shard-shard-file-impl-v2.c`, `blob_new`. -/
def blobNew (impl : ShardFileImplV2) (sblob : Blob) : Option EosShardBlob :=
  if sblob.uncompressedSize = 0 then none
  else
    match lookupStringConstant impl maxContentTypeSize sblob.contentTypeOffs with
    | none => none
    | some contentType =>
        some { contentType := cstr contentType, flags := sblob.flags, checksum := sblob.csum,
               offs := sblob.dataStart, size := sblob.size,
               uncompressedSize := sblob.uncompressedSize }

/-- The blob header entry `i` of a record's blob table points to.
Source: `eos-shard-shard-file-impl-v2.c`, the two reads of `find_blob` and `list_blobs`. -/
def tableBlob (impl : ShardFileImplV2) (srecord : Record) (i : ℕ) : Option Blob := do
  let entry ← preadExact impl.fd RecordBlobTableEntry.sizeof
    (srecord.blobTableStart + i * RecordBlobTableEntry.sizeof)
  let blob ← preadExact impl.fd Blob.sizeof (RecordBlobTableEntry.ofBytes entry).blobStart
  return Blob.ofBytes blob

/-- One iteration of the linear search: the blob of entry `i`, if its name is `name`. -/
def findBlobAt (impl : ShardFileImplV2) (srecord : Record) (name : CString) (i : ℕ) :
    Option Blob := do
  let blob ← tableBlob impl srecord i
  let entryName ← lookupStringConstant impl (maxNameSize + 1) blob.nameOffs
  if strncmp (maxNameSize + 1) entryName name.toBytes = .eq then some blob else none

/-- Linear search of a record's blob table.
Source: `eos-shard-shard-file-impl-v2.c`, `find_blob`. -/
def findBlob (impl : ShardFileImplV2) (srecord : Record) (name : CString) : Option Blob :=
  (List.range srecord.blobTableLength).findSome? (findBlobAt impl srecord name)

/-- Source: `eos-shard-shard-file-impl-v2.c`, `read_blob`. -/
def readBlob (impl : ShardFileImplV2) (srecord : Record) (name : CString) : Option EosShardBlob :=
  match findBlob impl srecord name with
  | none => none
  | some blob => blobNew impl blob

/-- Source: `eos-shard-shard-file-impl-v2.c`, `record_is_tombstone`. -/
def recordIsTombstone (record : Record) : Bool := (record.flags &&& recordFlagTombstone) ≠ 0

/-- The record object of a table entry; `NULL` for a tombstone.
Source: `eos-shard-shard-file-impl-v2.c`, `record_new`. -/
def recordNew (impl : ShardFileImplV2) (srecord : Record) : Option (EosShardRecord Record) :=
  if recordIsTombstone srecord then none
  else
    some { rawName := srecord.rawName, privateData := srecord,
           metadata := readBlob impl srecord blobMetadata, data := readBlob impl srecord blobData }

/-- `self->records[i]`. Behind the end of the buffer C reads whatever is there; the model reads
zeros. -/
def recordAt (impl : ShardFileImplV2) (i : ℕ) : Record :=
  Record.ofBytes (slice impl.records (i * Record.sizeof) Record.sizeof)

/-- Source: `eos-shard-shard-file-impl-v2.c`, `find_record_by_raw_name_compar`. -/
def findRecordByRawNameCompar (impl : ShardFileImplV2) (rawName : RawName) (i : ℕ) : Ordering :=
  memcmp rawName.toList (recordAt impl i).rawName.toList

/-- Source: `eos-shard-shard-file-impl-v2.c`, `find_record_by_raw_name`. -/
def findRecordByRawName (impl : ShardFileImplV2) (rawName : RawName) :
    Option (EosShardRecord Record) :=
  match bsearch (findRecordByRawNameCompar impl rawName) 0 impl.hdr.recordsLength with
  | none => none
  | some i => if recordIsTombstone (recordAt impl i) then none else recordNew impl (recordAt impl i)

/-- The descending loop of `list_records`: `i` is the loop counter before `i-- > 0`. -/
def listRecordsLoop (impl : ShardFileImplV2) :
    ℕ → List (Option (EosShardRecord Record)) → List (Option (EosShardRecord Record))
  | 0, l => l
  | i + 1, l =>
      if recordIsTombstone (recordAt impl i) then listRecordsLoop impl i l
      else listRecordsLoop impl i (recordNew impl (recordAt impl i) :: l)

/-- Source: `eos-shard-shard-file-impl-v2.c`, `list_records`; the counter is an `int`. -/
def listRecords (impl : ShardFileImplV2) : List (Option (EosShardRecord Record)) :=
  listRecordsLoop impl (asInt32 impl.hdr.recordsLength).toNat []

/-- Source: `eos-shard-shard-file-impl-v2.c`, `records_foreach`; the callback threads its user
data. -/
def recordsForeach {σ : Type} (impl : ShardFileImplV2)
    (func : σ → Option (EosShardRecord Record) → σ) (userData : σ) : σ :=
  (List.range impl.hdr.recordsLength).foldl (fun s i =>
    if recordIsTombstone (recordAt impl i) then s else func s (recordNew impl (recordAt impl i)))
    userData

/-- Names that start with `$` are internal and not looked up.
Source: `eos-shard-shard-file-impl-v2.c`, `lookup_blob`. -/
def lookupBlob (impl : ShardFileImplV2) (record : EosShardRecord Record) (name : CString) :
    Option EosShardBlob :=
  if name.chars.head? = some 36 then none else readBlob impl record.privateData name

/-- The loop of `list_blobs` prepends, so the last entry comes first; an element is `none` where
`blob_new` answers `NULL`.
Source: `eos-shard-shard-file-impl-v2.c`, `list_blobs`. -/
def listBlobs (impl : ShardFileImplV2) (record : EosShardRecord Record) :
    List (Option EosShardBlob) :=
  (List.range record.privateData.blobTableLength).foldl (fun l i =>
    match tableBlob impl record.privateData i with
    | none => l
    | some sblob => blobNew impl sblob :: l) []

end EosShard.V2
