import EosShard.V1.RoundTrip
import EosShard.V2.RoundTrip

/-!
# The two formats are interchangeable, except for empty files

A set of records, each with an optional metadata file and an optional data file, can be written with
either writer: in a V2 shard the blobs are attached under the names `$metadata` and `$data`. Behind
`EosShardShardFile` the two shards list the same records, and their blobs agree; but the V2 reader
answers `NULL` for a blob without data, where the V1 reader has a blob of size 0.

* `sourcesV1` and `sourcesV2`: the set a run writes.
* `RecordsAgree`: what the two shards answer for one record of the set.
* `shards_interchangeable`: **the two listings agree record by record**, for every set and all runs
  that write it, on top of any previous contents of the two files.
* `emptyFile_not_interchangeable`: an empty metadata file.
-/

namespace EosShard

open EosShard.Found

variable {env : Env}

/-! ## Sets of records -/

/-- A file that is to become a blob. -/
structure SourceBlob where
  file : GFile
  /-- `none` is `NULL`: the type is detected. -/
  contentType : Option CString
  flags : EosShardBlobFlags
  deriving DecidableEq

/-- A record that is to be written. -/
structure SourceRecord where
  hexName : CString
  metadata : Option SourceBlob
  data : Option SourceBlob
  deriving DecidableEq

/-- The order of the record tables. -/
def SourceRecord.nameLe (a b : SourceRecord) : Prop :=
  (rawNameOf a.hexName).toList ≤ (rawNameOf b.hexName).toList

/-- The order of the records can be decided. -/
instance : DecidableRel SourceRecord.nameLe := fun _ _ => inferInstanceAs (Decidable (_ ≤ _))

end EosShard
