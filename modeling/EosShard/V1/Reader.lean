import EosShard.V1.Format
import EosShard.Found.Search

/-!
# The V1 reader

`eos-shard-shard-file-impl-v1.c` over the bytes of the file behind the descriptor. `implV1New` reads
the length and the header variant into freshly allocated memory; the traversals walk the array of
records in the variant. The binary search runs over pointers that are 1-based indices.
-/

namespace EosShard.V1

open EosShard.Found

/-- An opened V1 shard. Source: `eos-shard-shard-file-impl-v1.c`,
`struct _EosShardShardFileImplV1`. -/
structure ShardFileImplV1 where
  /-- The contents of the file behind the descriptor. -/
  fd : Bytes
  headerVariant : HeaderEntry
  deriving DecidableEq

/-- Open a V1 shard. Memory the read does not fill keeps what was on the heap; a size above
`PTRDIFF_MAX` cannot be allocated, and `g_malloc` aborts.
Source: `eos-shard-shard-file-impl-v1.c`, `_eos_shard_shard_file_impl_v1_new`. -/
def implV1New (gv : GVariantFormat) (heap : Heap) (fd : Bytes) : Result ShardFileImplV1 :=
  let headerSize := leNat (slice fd 0 8)
  if 2 ^ 63 ≤ headerSize then .error .abort
  else
    let headerData := overlay (heap headerSize).toList (slice fd 8 headerSize)
    let headerVariant := gv.deserialise headerData
    if headerVariant.magic ≠ magic then .error corrupt else .ok ⟨fd, headerVariant⟩

/-- The blob of a blob entry; an offset of 0 stands for a blob that is not there.
Source: `eos-shard-shard-file-impl-v1.c`, `blob_new_for_variant`. -/
def blobNewForVariant (v : BlobEntry) : Option EosShardBlob :=
  if v.offs = 0 then none
  else if v.checksum.length ≠ 32 then none
  else some { contentType := v.contentType, flags := v.flags, checksum := byteArray 32 v.checksum,
              offs := v.offs, size := v.size, uncompressedSize := v.uncompressedSize }

/-- Source: `eos-shard-shard-file-impl-v1.c`, `record_new_for_variant`. -/
def recordNewForVariant (v : RecordEntry) : Option (EosShardRecord Unit) :=
  if v.rawName.length ≠ rawNameSize then none
  else some { rawName := byteArray rawNameSize v.rawName, privateData := (),
              metadata := blobNewForVariant v.metadata, data := blobNewForVariant v.data }

/-- The index behind a dummy pointer, as an `unsigned`: `GPOINTER_TO_UINT (item) - 1`. -/
def itemIndex (item : ℕ) : ℕ := (gpointerToUint item + (2 ^ 32 - 1)) % 2 ^ 32

/-- The comparison of the key with an item. An index without a child is a failed assertion in
GLib; the comparison then answers as for a corrupt name.
Source: `eos-shard-shard-file-impl-v1.c`, `find_record_by_raw_name_compar`. -/
def findRecordByRawNameCompar (records : List RecordEntry) (rawName : RawName) (item : ℕ) :
    Ordering :=
  match records[itemIndex item]? with
  | none => .lt
  | some r => if r.rawName.length ≠ rawNameSize then .lt else memcmp rawName.toList r.rawName

/-- `bsearch` over the dummy pointers `1, …, n`; the index of the result goes through an `int`.
Source: `eos-shard-shard-file-impl-v1.c`, `find_record_by_raw_name`. -/
def findRecordByRawName (impl : ShardFileImplV1) (rawName : RawName) :
    Option (EosShardRecord Unit) :=
  let records := impl.headerVariant.records
  match bsearch (fun i => findRecordByRawNameCompar records rawName (1 + i)) 0 records.length with
  | none => none
  | some i =>
      let idx := asInt32 (itemIndex (1 + i))
      if idx < 0 then none else records[idx.toNat]? >>= recordNewForVariant

/-- The loop of `list_records`; one record that cannot be built empties the list. -/
def listRecordsLoop : List RecordEntry → List (EosShardRecord Unit) → List (EosShardRecord Unit)
  | [], l => l.reverse
  | child :: children, l =>
      match recordNewForVariant child with
      | none => []
      | some record => listRecordsLoop children (record :: l)

/-- Source: `eos-shard-shard-file-impl-v1.c`, `list_records`. -/
def listRecords (impl : ShardFileImplV1) : List (EosShardRecord Unit) :=
  listRecordsLoop impl.headerVariant.records []

/-- The loop of `records_foreach`: the state of the callback behind it, and whether the process is
still there. Behind a call with `NULL` the record is unreferenced, which reads through the pointer. -/
def recordsForeachLoop {σ : Type} (func : σ → Option (EosShardRecord Unit) → σ) :
    List RecordEntry → σ → σ × Bool
  | [], s => (s, true)
  | child :: children, s =>
      match recordNewForVariant child with
      | none => (func s none, false)
      | some record => recordsForeachLoop func children (func s (some record))

/-- Source: `eos-shard-shard-file-impl-v1.c`, `records_foreach`. -/
def recordsForeach {σ : Type} (impl : ShardFileImplV1)
    (func : σ → Option (EosShardRecord Unit) → σ) (userData : σ) : σ × Bool :=
  recordsForeachLoop func impl.headerVariant.records userData

end EosShard.V1
