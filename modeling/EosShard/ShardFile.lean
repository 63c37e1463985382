import EosShard.Names
import EosShard.V1.Reader
import EosShard.V2.Reader

/-!
# The shard file

`eos-shard-shard-file.c`: which of the two formats a file has, the search for a record under either,
and the loading of a blob.

* The probe: a file that has zeros where a magic would end is turned away (`detectVersion_of_zeros`),
  and the header of a V2 shard is taken for one (`detectVersion_of_v2Hdr`).
* `findRecordByHexName_eq`: the search under a hexadecimal name, in terms of the raw one.
* `loadBlob_of_holds`: a blob whose extent holds its stored bytes loads them, if it is not compressed.
-/

namespace EosShard

open EosShard.Found

/-- An opened shard of either version. -/
inductive ShardFileImpl
  | v1 (impl : V1.ShardFileImplV1)
  | v2 (impl : V2.ShardFileImplV2)
  deriving DecidableEq

/-- The error of the version probe. -/
def couldNotDetect : Failure :=
  .gerror ⟨.shardFileCorrupt, "Could not detect shard file version."⟩

/-- `memmem`: the needle occurs in the haystack. -/
def memmem (haystack needle : Bytes) : Bool := needle <:+: haystack

/-- Probe the first 16 bytes and hand the file to the reader of its version.
Source: `eos-shard-shard-file.c`, `detect_version`. -/
def detectVersion (gv : V1.GVariantFormat) (heap : Heap) (fd : Bytes) : Result ShardFileImpl :=
  let buf := slice fd 0 16
  if buf.length ≠ 16 then .error couldNotDetect
  else if memmem buf V1.magic.chars then (V1.implV1New gv heap fd).map .v1
  else if slice buf 0 8 = V2.magic then (V2.implV2New fd).map .v2
  else .error couldNotDetect

/-- The implementation's search. A V2 record keeps its struct as private data, a V1 record nothing.
Source: `eos-shard-shard-file.c`, `eos_shard_shard_file_find_record_by_raw_name`. -/
def findRecordByRawName (impl : ShardFileImpl) (rawName : RawName) :
    Option (EosShardRecord (Option V2.Record)) :=
  match impl with
  | .v1 impl => (V1.findRecordByRawName impl rawName).map (·.withPrivateData fun _ => none)
  | .v2 impl => (V2.findRecordByRawName impl rawName).map (·.withPrivateData some)

/-- Convert a name and search for it; `stack` is what the buffer of the raw name contains before.
Source: `eos-shard-shard-file.c`, `eos_shard_shard_file_find_record_by_hex_name`. -/
def findRecordByHexName (impl : ShardFileImpl) (stack : RawName) (hexName : CString) :
    Option (EosShardRecord (Option V2.Record)) :=
  let (ok, rawName) := hexNameToRawName stack hexName
  if ok then findRecordByRawName impl rawName else none

/-- The implementation's listing.
Source: `eos-shard-shard-file.c`, `eos_shard_shard_file_list_records`. -/
def listRecords (impl : ShardFileImpl) : List (Option (EosShardRecord (Option V2.Record))) :=
  match impl with
  | .v1 impl => (V1.listRecords impl).map fun rec => some (rec.withPrivateData fun _ => none)
  | .v2 impl => (V2.listRecords impl).map fun rec => rec.map (·.withPrivateData some)

@[simp] theorem listRecords_v1 (impl : V1.ShardFileImplV1) :
    listRecords (.v1 impl) =
      (V1.listRecords impl).map fun rec => some (rec.withPrivateData fun _ => none) := rfl

@[simp] theorem listRecords_v2 (impl : V2.ShardFileImplV2) :
    listRecords (.v2 impl) =
      (V2.listRecords impl).map fun rec => rec.map (·.withPrivateData some) := rfl

/-- Load the contents of a blob. `inflate bytes n` is what one `g_input_stream_read_bytes` of `n`
bytes yields on the decompressed stream, `none` for an error, after which `NULL` is returned without
an error set.
Source: `eos-shard-shard-file.c`, `_eos_shard_shard_file_load_blob`. -/
def loadBlob (env : Env) (inflate : Bytes → ℕ → Option Bytes) (heap : Heap) (fd : Bytes)
    (blob : EosShardBlob) : Result (Option Bytes) :=
  if 2 ^ 63 ≤ blob.size then .error .abort
  else
    match pread fd blob.size blob.offs with
    | none => .error (.gerror ⟨.blobStreamRead, "Read failed: Invalid argument"⟩)
    | some read =>
        let buf := overlay (heap blob.size).toList read
        if env.sha256 buf ≠ blob.checksum then
          .error (.gerror ⟨.blobChecksumMismatch, "Could not load blob: checksum did not match"⟩)
        else if isCompressedZlib blob.flags then .ok (inflate buf blob.uncompressedSize)
        else .ok (some buf)

/-- A name that is not accepted finds nothing, another one what its raw name finds. -/
theorem findRecordByHexName_eq (impl : ShardFileImpl) (stack : RawName) (hexName : CString) :
    findRecordByHexName impl stack hexName =
      if AcceptedName hexName then findRecordByRawName impl (rawNameOf hexName) else none := by
  obtain ⟨hok, hraw⟩ := hexNameToRawName_spec stack hexName
  have hiff : (hexNameToRawName stack hexName).1 = true ↔ AcceptedName hexName := by
    rw [hok]
    rfl
  show (if (hexNameToRawName stack hexName).1 = true then
    findRecordByRawName impl (hexNameToRawName stack hexName).2 else none) = _
  by_cases h : AcceptedName hexName
  · rw [if_pos h, if_pos (hiff.mpr h), hraw h]
  · rw [if_neg h, if_neg (mt hiff.mp h)]

/-! ## The version probe -/

/-- A file with zeros in the bytes 6 to 15, as far as it has them, is of no version: either magic would
put its seventh or eighth character there. -/
theorem detectVersion_of_zeros {gv : V1.GVariantFormat} {heap : Heap} {fd : Bytes}
    (h : ∀ i b, 6 ≤ i → i < 16 → fd[i]? = some b → b = 0) :
    detectVersion gv heap fd = .error couldNotDetect := by
  have hbuf : ∀ i b, 6 ≤ i → (slice fd 0 16)[i]? = some b → b = 0 := by
    intro i b hi hb
    rw [getElem?_slice, Nat.zero_add] at hb
    split_ifs at hb with hlt
    exact h i b hi hlt hb
  unfold detectVersion
  simp only
  split_ifs with h₁ h₂ h₃
  · rfl
  · obtain ⟨s, t, hst⟩ := of_decide_eq_true h₂
    have h₆ : (s ++ V1.magic.chars ++ t)[s.length + 6]? = some 49 := by simp [V1.magic, ascii]
    rw [hst] at h₆
    exact absurd (hbuf _ _ (Nat.le_add_left _ _) h₆) (by decide)
  · have h₇ : (slice (slice fd 0 16) 0 8)[7]? = some 32 := by
      rw [h₃]
      rfl
    rw [getElem?_slice, if_pos (by norm_num), Nat.zero_add] at h₇
    exact absurd (hbuf 7 _ (by norm_num) h₇) (by decide)
  · rfl

/-- The header of a V2 shard is taken for that of a V2 shard: the V1 magic does not occur in its first
16 bytes. -/
theorem detectVersion_of_v2Hdr {gv : V1.GVariantFormat} {heap : Heap} {fd : Bytes} {hdr : V2.Hdr}
    (h : Holds fd 0 hdr.toBytes) (hmagic : hdr.magic = V2.magic) (hflags : hdr.flags = 0) :
    detectVersion gv heap fd = (V2.implV2New fd).map .v2 := by
  have hm : hdr.magic.length = 8 := by rw [hmagic]; rfl
  obtain ⟨b, hb, hbuf⟩ : ∃ b : Bytes, b.length = 4 ∧ slice fd 0 16 = V2.magic ++ [0, 0, 0, 0] ++ b := by
    have hto : hdr.toBytes = (V2.magic ++ [0, 0, 0, 0]) ++ (le 8 hdr.recordsLength ++
        (le 8 hdr.recordsStart ++ le 8 hdr.stringConstantTableStart)) := by
      rw [V2.Hdr.toBytes, hmagic, hflags]
      rfl
    have h16 := h.slice (i := 0) (n := 16) (by rw [V2.Hdr.length_toBytes hm]; norm_num)
    refine ⟨slice (le 8 hdr.recordsLength) 0 4, by rw [length_slice_of_le (by simp)], ?_⟩
    have h12 : (V2.magic ++ [0, 0, 0, 0]).length = 12 := rfl
    rw [Nat.zero_add] at h16
    rw [h16, hto, show (16 : ℕ) = 12 + 4 from rfl, slice_add, slice_append_self h12.symm,
      slice_append_of_le (by rw [h12]), h12, slice_append_left (by simp)]
  have hno : memmem (slice fd 0 16) V1.magic.chars = false := by
    rw [memmem, decide_eq_false_iff_not]
    rintro ⟨s, t, hst⟩
    have hlen := congrArg List.length hst
    have h0 : (s ++ V1.magic.chars ++ t)[s.length]? = some 83 := by simp [V1.magic, ascii]
    have h6 : (s ++ V1.magic.chars ++ t)[s.length + 6]? = some 49 := by simp [V1.magic, ascii]
    rw [hst, hbuf] at h0 h6
    rw [hbuf] at hlen
    simp only [List.length_append, hb, V1.magic, V2.magic, ascii, List.length_map] at hlen
    have hs : s.length ≤ 9 := by
      simp at hlen
      omega
    interval_cases s.length <;> simp [V2.magic, ascii] at h0 h6
  have hv2 : slice (slice fd 0 16) 0 8 = V2.magic := by
    rw [hbuf, List.append_assoc]
    exact slice_append_self rfl
  have hlen : (slice fd 0 16).length = 16 := by
    rw [hbuf]
    simp [hb]
  unfold detectVersion
  simp only [hlen, hno, hv2, ne_eq, not_true_eq_false, if_false, if_true, Bool.false_eq_true]

/-! ## Loading -/

/-- A blob that is not compressed loads the bytes its extent holds. -/
theorem loadBlob_of_holds {env : Env} {inflate : Bytes → ℕ → Option Bytes} {heap : Heap} {fd : Bytes}
    {blob : EosShardBlob} {stored : Bytes} (h : Holds fd blob.offs stored)
    (hsize : blob.size = stored.length) (hlt : blob.size < 2 ^ 63) (hoffs : blob.offs < 2 ^ 63)
    (hsum : blob.checksum = env.sha256 stored) (hflags : isCompressedZlib blob.flags = false) :
    loadBlob env inflate heap fd blob = .ok (some stored) := by
  unfold loadBlob
  rw [if_neg (not_le.mpr hlt), pread_eq hoffs, h.slice_eq hsize]
  have hbuf : overlay (heap blob.size).toList stored = stored :=
    overlay_full (by rw [List.Vector.toList_length, hsize])
  simp only [hbuf, hsum, hflags, ne_eq, not_true_eq_false, if_false, Bool.false_eq_true]

/-! ## Reading a blob back -/

/-- A blob is that of a file: it has the type, the flags and the sizes the file was added with, its
extent holds the stored bytes, and if it is not compressed it loads the contents of the file. -/
structure BlobReadsBack (env : Env) (f : Bytes) (type : CString) (file : GFile)
    (how : EosShardBlobFlags) (blob : EosShardBlob) : Prop where
  contentType : blob.contentType = type
  flags : blob.flags = how.toNat
  checksum : blob.checksum = env.sha256 (env.stored file how)
  size : blob.size = (env.stored file how).length
  uncompressedSize : blob.uncompressedSize = file.contents.length
  holds : Holds f blob.offs (env.stored file how)
  load : how = .none → ∀ inflate heap,
    loadBlob env inflate heap f blob = .ok (some file.contents)

/-- A blob whose fields are those of a file and whose extent holds the stored bytes loads them. -/
theorem blobReadsBack_of_holds {env : Env} {f : Bytes} {type : CString} {file : GFile}
    {how : EosShardBlobFlags} {blob : EosShardBlob} (htype : blob.contentType = type)
    (hflags : blob.flags = how.toNat) (hsum : blob.checksum = env.sha256 (env.stored file how))
    (hsize : blob.size = (env.stored file how).length)
    (hunc : blob.uncompressedSize = file.contents.length)
    (hholds : Holds f blob.offs (env.stored file how)) (hoffs : blob.offs < 2 ^ 63) :
    BlobReadsBack env f type file how blob := by
  refine ⟨htype, hflags, hsum, hsize, hunc, hholds, fun hnone inflate heap => ?_⟩
  subst hnone
  have hlt : blob.size < 2 ^ 63 := by
    rw [hsize]
    exact file.size_lt
  refine loadBlob_of_holds hholds hsize hlt hoffs hsum ?_
  rw [hflags]
  rfl

end EosShard
