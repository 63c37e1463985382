import EosShard.BlobStream

/-!
# Loading a compressed blob

A decompressed stream may cut its output into pieces as it likes: a call yields some of the bytes that
are left, at least one if there are any. `_eos_shard_shard_file_load_blob` makes one call.

* `loadBlob_compressed_iff`: **when `load_contents` returns the whole contents**: if that one call yields
  all of them.
* `loadsOrFails_iff`: when it returns `NULL` together with an error, or bytes that are as long as they
  should be. Where the call fails, neither happens.
* `getStream_reads_all`: the other way to a blob, its stream, gives the whole contents for every cut.
-/

namespace EosShard

open EosShard.Found

/-! ## Decompressed streams -/

/-- A stream that yields the given contents cuts them by `chunk`: a call with `count` at the position
`pos` yields `chunk pos count` bytes. The contract of `GInputStream`: as long as some are left, at least
one, and not more than it is asked for. -/
def Admissible (contents : Bytes) (chunk : ℕ → ℕ → ℕ) : Prop :=
  ∀ pos count, pos < contents.length → 0 < count →
    1 ≤ chunk pos count ∧ chunk pos count ≤ min count (contents.length - pos)

/-- What `g_input_stream_read` with `count` yields at the position `pos`. -/
def streamRead (contents : Bytes) (chunk : ℕ → ℕ → ℕ) (pos count : ℕ) : Bytes :=
  if count = 0 ∨ contents.length ≤ pos then [] else slice contents pos (chunk pos count)

/-- `g_input_stream_read_bytes` with `count` on the decompressed stream of a buffer: memory for `count`
bytes, and one `g_input_stream_read`. -/
def readBytes (decompress : Bytes → Bytes) (chunk : ℕ → ℕ → ℕ) (buf : Bytes) (count : ℕ) :
    Option Bytes :=
  if 2 ^ 63 ≤ count then none else some (streamRead (decompress buf) chunk 0 count)

/-- A stream over a blob. -/
inductive BlobInputStream
  /-- The stored bytes. -/
  | stored (stream : EosShardBlobStream)
  /-- The stored bytes through a decompressor. -/
  | decompressed (stream : EosShardBlobStream)
  deriving DecidableEq

/-- The stream of a blob, `none` for `NULL`.
Source: `eos-shard-blob.c`, `eos_shard_blob_get_stream`. -/
def getStream (blob : EosShardBlob) : Option BlobInputStream :=
  if blob.offs = 0 then none
  else if isCompressedZlib blob.flags then some (.decompressed (.newForBlob blob))
  else some (.stored (.newForBlob blob))

/-! ## What one call yields -/

variable {contents : Bytes} {chunk : ℕ → ℕ → ℕ}

/-- A read gives as many bytes as the stream decides. -/
theorem length_streamRead (h : Admissible contents chunk) {pos count : ℕ} (hcount : 0 < count)
    (hpos : pos < contents.length) : (streamRead contents chunk pos count).length = chunk pos count := by
  have hchunk := (h pos count hpos hcount).2
  unfold streamRead
  rw [if_neg (by omega), length_slice]
  omega

/-- One call from the start yields everything exactly if it is not cut. -/
theorem streamRead_eq_iff (h : Admissible contents chunk) :
    streamRead contents chunk 0 contents.length = contents ↔
      (0 < contents.length → chunk 0 contents.length = contents.length) := by
  rcases Nat.eq_zero_or_pos contents.length with hzero | hpos
  · have hnil := List.length_eq_zero_iff.mp hzero
    refine iff_of_true ?_ fun hlt => absurd hlt (by omega)
    unfold streamRead
    rw [if_pos (Or.inl hzero), hnil]
  · have hlen := length_streamRead h hpos hpos
    constructor
    · intro heq _
      rw [heq] at hlen
      exact hlen.symm
    · intro hall
      unfold streamRead
      rw [if_neg (by omega), hall hpos, slice_full]

/-- **Reading to the end** is not affected by how the stream is cut. -/
theorem readUntilEnd_streamRead (h : Admissible contents chunk) {counts : List ℕ}
    (hcounts : ∀ count ∈ counts, 0 < count) (hlt : contents.length < counts.length) :
    readUntilEnd (fun pos count => some (streamRead contents chunk pos count,
      pos + (streamRead contents chunk pos count).length)) 0 counts = some contents := by
  have key : ∀ pos count, pos ≤ contents.length → 0 < count →
      YieldsPiece (fun pos count => some (streamRead contents chunk pos count,
        pos + (streamRead contents chunk pos count).length)) (fun pos => contents.drop pos)
        (fun pos => pos ≤ contents.length) pos count := by
    intro pos count hle hcount
    refine ⟨_, _, rfl, ?_, ?_, ?_⟩
    · rcases Nat.lt_or_eq_of_le hle with hpos | rfl
      · have hchunk := (h pos count hpos hcount).2
        rw [length_streamRead h hcount hpos]
        omega
      · unfold streamRead
        rw [if_pos (Or.inr (le_refl _))]
        exact le_refl _
    · rcases Nat.lt_or_eq_of_le hle with hpos | rfl
      · rw [length_streamRead h hcount hpos]
        unfold streamRead
        simp only
        rw [if_neg (by omega), slice, ← List.drop_drop, List.take_append_drop]
      · unfold streamRead
        rw [if_pos (Or.inr (le_refl _))]
        rfl
    · intro hnil
      by_contra hne
      have hpos : pos < contents.length := by
        rw [List.drop_eq_nil_iff] at hne
        omega
      have hone := (h pos count hpos hcount).1
      have hlen := length_streamRead h hcount hpos
      rw [hnil, List.length_nil] at hlen
      omega
  have hread := readUntilEnd_eq (P := fun pos => pos ≤ contents.length) (A := fun c => 0 < c)
    key (Nat.zero_le contents.length) hcounts
  rw [List.drop_zero] at hread
  exact hread.2 hlt

/-! ## Loading -/

variable {env : Env} {decompress : Bytes → Bytes} {heap : Heap} {fd stored : Bytes}
  {blob : EosShardBlob}

/-- The load of a compressed blob whose stored bytes are read in full and match the checksum. -/
theorem loadBlob_compressed (hfd : fd.length < 2 ^ 63)
    (hread : pread fd blob.size blob.offs = some stored) (hfull : stored.length = blob.size)
    (hsum : env.sha256 stored = blob.checksum) (hflags : isCompressedZlib blob.flags = true)
    (inflate : Bytes → ℕ → Option Bytes) :
    loadBlob env inflate heap fd blob = .ok (inflate stored blob.uncompressedSize) := by
  have hle : stored.length ≤ fd.length := by
    unfold pread at hread
    split_ifs at hread
    cases hread
    rw [length_slice]
    omega
  have hbuf : overlay (heap blob.size).toList stored = stored :=
    overlay_full (by rw [List.Vector.toList_length, hfull])
  unfold loadBlob
  rw [if_neg (by omega), hread]
  simp only [hbuf, hsum, hflags, ne_eq, not_true_eq_false, if_false, if_true]

/-- **When a compressed blob loads in full.** Let the stored bytes be read in full, match the checksum
and decompress to as many bytes as the blob says. The load returns exactly these bytes if and only if
they fit into memory and the first call on the decompressed stream yields all of them. -/
theorem loadBlob_compressed_iff (hfd : fd.length < 2 ^ 63)
    (hread : pread fd blob.size blob.offs = some stored) (hfull : stored.length = blob.size)
    (hsum : env.sha256 stored = blob.checksum) (hflags : isCompressedZlib blob.flags = true)
    (hsize : (decompress stored).length = blob.uncompressedSize)
    (hchunk : Admissible (decompress stored) chunk) :
    loadBlob env (readBytes decompress chunk) heap fd blob = .ok (some (decompress stored)) ↔
      blob.uncompressedSize < 2 ^ 63 ∧
        (0 < blob.uncompressedSize → chunk 0 blob.uncompressedSize = blob.uncompressedSize) := by
  rw [loadBlob_compressed hfd hread hfull hsum hflags, ← hsize, ← streamRead_eq_iff hchunk]
  unfold readBytes
  by_cases hlt : 2 ^ 63 ≤ (decompress stored).length
  · rw [if_pos hlt]
    refine iff_of_false (fun h => by cases h) fun h => absurd h.1 (not_lt.mpr hlt)
  · rw [if_neg hlt, Except.ok.injEq, Option.some.injEq]
    exact ⟨fun h => ⟨not_le.mp hlt, h⟩, fun h => h.2⟩

/-- A stream that yields all it is asked for. -/
def uncut (n pos count : ℕ) : ℕ := min count (n - pos)

/-- A stream that is never cut is admissible. -/
theorem admissible_uncut (contents : Bytes) : Admissible contents (uncut contents.length) := by
  intro pos count hpos hcount
  unfold uncut
  omega

/-- The zlib stream of the byte 1 as a blob behind one other byte. -/
def oneZippedBlob : EosShardBlob := ⟨oneFile.contentType, 1, oneZippedDigest, 1, 9, 1⟩

/-- The decompressor on that stream. -/
def unzipOne (b : Bytes) : Bytes := if b = oneZipped then [1] else []

/-- One compressed byte is loaded. -/
theorem loadBlob_compressed_iff_oneZipped :
    loadBlob smallEnv (readBytes unzipOne (uncut 1)) (fun n => List.Vector.replicate n 0)
      (7 :: oneZipped) oneZippedBlob = .ok (some [1]) := by
  have hread : pread (7 :: oneZipped) oneZippedBlob.size oneZippedBlob.offs = some oneZipped := by
    decide
  exact (loadBlob_compressed_iff (by decide) hread (by decide) (by decide) (by decide) (by decide)
    (admissible_uncut [1])).mpr ⟨by decide, fun _ => by decide⟩

/-! ## A stream that is cut -/

/-- 5000 times the letter x. -/
def xs : Bytes := List.replicate 5000 120

/-- The zlib stream of `xs` with one block that is stored as it is. -/
def xsZipped : Bytes := [120, 1, 1, 136, 19, 119, 236] ++ (xs ++ [20, 22, 40, 72])

/-- Its SHA-256 digest. -/
def xsDigest : Csum :=
  byteArray 32 [219, 99, 250, 67, 58, 191, 237, 98, 216, 180, 227, 8, 254, 179, 174, 192, 132, 104,
    222, 51, 57, 100, 102, 66, 210, 157, 214, 158, 46, 76, 228, 176]

/-- That stream as a blob at the start of a file with a byte in front of it. -/
def xsBlob : EosShardBlob := ⟨oneFile.contentType, 1, xsDigest, 1, 5011, 5000⟩

/-- What the libraries answer on it. -/
def xsEnv : Env where
  sha256 b := if b = xsZipped then xsDigest else nullDigest
  compress b := if b = xs then xsZipped else b

/-- The decompressor on a zlib stream of one stored block. -/
def unzipStored (b : Bytes) : Bytes := (b.drop 7).take (b.length - 11)

/-- A converter whose input buffer has 4096 bytes: with the first one it can yield 4089 bytes. -/
def firstBuffer (n pos count : ℕ) : ℕ := min (min count (n - pos)) 4089

/-- The length of the contents. -/
theorem length_xs : xs.length = 5000 := List.length_replicate

/-- The length of the compressed contents. -/
theorem length_xsZipped : xsZipped.length = 5011 := by
  unfold xsZipped
  rw [List.length_append, List.length_append, length_xs]
  rfl

/-- The compressed contents decompress to the contents. -/
theorem unzipStored_xsZipped : unzipStored xsZipped = xs := by
  unfold unzipStored
  rw [length_xsZipped]
  unfold xsZipped
  rw [List.drop_left' (by rfl), List.take_left' length_xs]

/-- All hypotheses hold, and the load returns the first 4089 bytes only. -/
theorem xsBlob_not_loaded :
    pread (7 :: xsZipped) xsBlob.size xsBlob.offs = some xsZipped ∧
      xsEnv.sha256 xsZipped = xsBlob.checksum ∧ isCompressedZlib xsBlob.flags = true ∧
      (unzipStored xsZipped).length = xsBlob.uncompressedSize ∧
      Admissible (unzipStored xsZipped) (firstBuffer 5000) ∧
      (List.replicate 4089 (120 : UInt8)).length < (unzipStored xsZipped).length ∧
      ∀ heap, loadBlob xsEnv (readBytes unzipStored (firstBuffer 5000)) heap (7 :: xsZipped) xsBlob =
        .ok (some (List.replicate 4089 120)) := by
  have hread : pread (7 :: xsZipped) xsBlob.size xsBlob.offs = some xsZipped := by
    rw [pread_eq (by decide)]
    exact congrArg some (List.take_of_length_le length_xsZipped.le)
  have hsum : xsEnv.sha256 xsZipped = xsBlob.checksum := by
    unfold xsEnv
    simp only [if_true]
    rfl
  rw [unzipStored_xsZipped]
  refine ⟨hread, hsum, rfl, length_xs, ?_, ?_, fun heap => ?_⟩
  · intro pos count hpos hcount
    rw [length_xs] at hpos ⊢
    unfold firstBuffer
    omega
  · rw [List.length_replicate, length_xs]
    norm_num
  · have hfd : (7 :: xsZipped).length < 2 ^ 63 := by
      rw [List.length_cons, length_xsZipped]
      norm_num
    have htake : slice xs 0 4089 = List.replicate 4089 120 := by
      unfold slice xs
      rw [List.drop_zero, List.take_replicate, min_eq_left (by norm_num)]
    have hsize : xsBlob.uncompressedSize = 5000 := rfl
    rw [loadBlob_compressed hfd hread length_xsZipped hsum rfl, hsize]
    unfold readBytes streamRead
    rw [unzipStored_xsZipped, length_xs, if_neg (by norm_num), if_neg (by norm_num)]
    exact congrArg (fun bs => Except.ok (some bs)) htake

/-- **The stream of a compressed blob** gives the whole contents, however it is cut. -/
theorem getStream_reads_all (hoffs : blob.offs ≠ 0) (hflags : isCompressedZlib blob.flags = true)
    (hsize : blob.size < 2 ^ 63) (hfd : fd.length < 2 ^ 63)
    (hread : pread fd blob.size blob.offs = some stored) (hfull : stored.length = blob.size)
    (hchunk : Admissible (decompress stored) chunk) {calls : List (ℕ × Pread)}
    (hcalls : ∀ c ∈ calls, 0 < c.1 ∧ c.2.Lawful fd ∧ c.2.Full fd) (hlt : blob.size < calls.length)
    {counts : List ℕ} (hcounts : ∀ count ∈ counts, 0 < count)
    (hlt' : (decompress stored).length < counts.length) :
    ∃ stream, getStream blob = some (.decompressed stream) ∧
      readUntilEnd EosShardBlobStream.readCall stream calls = some stored ∧
      readUntilEnd (fun pos count => some (streamRead (decompress stored) chunk pos count,
        pos + (streamRead (decompress stored) chunk pos count).length)) 0 counts =
          some (decompress stored) := by
  refine ⟨.newForBlob blob, ?_, ?_, readUntilEnd_streamRead hchunk hcounts hlt'⟩
  · unfold getStream
    rw [if_neg hoffs, if_pos hflags]
  · exact (EosShardBlobStream.readUntilEnd_readCall (EosShardBlobStream.inside_newForBlob blob) rfl
      hsize hfd hread hfull hcalls).2 hlt

/-! ## What a load answers -/

/-- The pointer a call returns and what is in `*error` then, `none` if there is no return. -/
def answer : Result (Option Bytes) → Option (Option Bytes × Option GError)
  | .ok bytes => some (bytes, none)
  | .error (.gerror e) => some (none, some e)
  | .error .abort => none

/-- The buffer of `blob->size` bytes behind the read. -/
def loadBuffer (heap : Heap) (blob : EosShardBlob) (read : Bytes) : Bytes :=
  overlay (heap blob.size).toList read

/-- A load answers with `NULL` and an error, or with as many bytes as it should, from a buffer that
matches the checksum. -/
structure LoadsOrFails (env : Env) (heap : Heap) (fd : Bytes) (blob : EosShardBlob)
    (r : Option Bytes × Option GError) : Prop where
  null_iff : r.1 = none ↔ r.2 ≠ none
  verified : ∀ bytes, r.1 = some bytes → ∃ read, pread fd blob.size blob.offs = some read ∧
    env.sha256 (loadBuffer heap blob read) = blob.checksum ∧
    bytes.length = if isCompressedZlib blob.flags then blob.uncompressedSize else blob.size

/-- If the blob passes its checksum and is compressed, it decompresses to as many bytes as it says. -/
def Unpacks (env : Env) (inflate : Bytes → ℕ → Option Bytes) (heap : Heap) (fd : Bytes)
    (blob : EosShardBlob) : Prop :=
  ∀ read, pread fd blob.size blob.offs = some read →
    env.sha256 (loadBuffer heap blob read) = blob.checksum → isCompressedZlib blob.flags = true →
      ∃ bytes, inflate (loadBuffer heap blob read) blob.uncompressedSize = some bytes ∧
        bytes.length = blob.uncompressedSize

/-- The buffer has the size of the blob. -/
theorem length_loadBuffer {read : Bytes} (hread : pread fd blob.size blob.offs = some read) :
    (loadBuffer heap blob read).length = blob.size := by
  unfold pread at hread
  split_ifs at hread
  cases hread
  unfold loadBuffer
  rw [length_overlay (by rw [List.Vector.toList_length]; exact length_slice_le _ _ _),
    List.Vector.toList_length]

/-- The exits of a load in their order. -/
theorem answer_loadBlob (env : Env) (inflate : Bytes → ℕ → Option Bytes) (heap : Heap) (fd : Bytes)
    (hsize : blob.size < 2 ^ 63) :
    (pread fd blob.size blob.offs = none ∧
      ∃ e, answer (loadBlob env inflate heap fd blob) = some (none, some e)) ∨
    ∃ read, pread fd blob.size blob.offs = some read ∧
      ((env.sha256 (loadBuffer heap blob read) ≠ blob.checksum ∧
          ∃ e, answer (loadBlob env inflate heap fd blob) = some (none, some e)) ∨
        (env.sha256 (loadBuffer heap blob read) = blob.checksum ∧
          answer (loadBlob env inflate heap fd blob) =
            some (if isCompressedZlib blob.flags then
              inflate (loadBuffer heap blob read) blob.uncompressedSize
              else some (loadBuffer heap blob read), none))) := by
  unfold loadBlob
  rw [if_neg (not_le.mpr hsize)]
  cases hread : pread fd blob.size blob.offs with
  | none => exact Or.inl ⟨rfl, _, rfl⟩
  | some read =>
      refine Or.inr ⟨read, rfl, ?_⟩
      have hbuf : overlay (heap blob.size).toList read = loadBuffer heap blob read := rfl
      simp only [hbuf]
      by_cases hsum : env.sha256 (loadBuffer heap blob read) = blob.checksum
      · refine Or.inr ⟨hsum, ?_⟩
        rw [if_neg (not_not_intro hsum)]
        split_ifs <;> rfl
      · exact Or.inl ⟨hsum, _, congrArg answer (if_pos hsum)⟩

/-- An answer with an error is one of a load that fails. -/
theorem loadsOrFails_error (e : GError) : LoadsOrFails env heap fd blob (none, some e) where
  null_iff := iff_of_true rfl (Option.some_ne_none e)
  verified := fun _ h => by cases h

/-- **When a load fails with an error or succeeds with verified bytes**: unless the blob passes its
checksum, is compressed, and does not decompress to as many bytes as it says. -/
theorem loadsOrFails_iff {inflate : Bytes → ℕ → Option Bytes} (hsize : blob.size < 2 ^ 63) :
    (∃ r, answer (loadBlob env inflate heap fd blob) = some r ∧ LoadsOrFails env heap fd blob r) ↔
      Unpacks env inflate heap fd blob := by
  rcases answer_loadBlob env inflate heap fd hsize with
    ⟨hread, e, he⟩ | ⟨read, hread, ⟨hsum, e, he⟩ | ⟨hsum, hans⟩⟩
  · refine iff_of_true ⟨_, he, loadsOrFails_error e⟩ fun read h => ?_
    rw [hread] at h
    cases h
  · refine iff_of_true ⟨_, he, loadsOrFails_error e⟩ fun read' h hsum' => ?_
    obtain rfl := Option.some.inj (hread.symm.trans h)
    exact absurd hsum' hsum
  · have hunpacks : Unpacks env inflate heap fd blob ↔ (isCompressedZlib blob.flags = true →
        ∃ bytes, inflate (loadBuffer heap blob read) blob.uncompressedSize = some bytes ∧
          bytes.length = blob.uncompressedSize) := by
      refine ⟨fun h => h read hread hsum, fun h read' hread' _ => ?_⟩
      obtain rfl := Option.some.inj (hread.symm.trans hread')
      exact h
    rw [hunpacks, hans]
    by_cases hflags : isCompressedZlib blob.flags = true
    · rw [if_pos hflags]
      constructor
      · rintro ⟨r, hr, h⟩ -
        cases hr
        cases hout : inflate (loadBuffer heap blob read) blob.uncompressedSize with
        | none => exact absurd rfl (h.null_iff.mp hout)
        | some bytes =>
            obtain ⟨-, -, -, hlen⟩ := h.verified bytes hout
            exact ⟨bytes, rfl, hlen.trans (if_pos hflags)⟩
      · intro h
        obtain ⟨bytes, hout, hlen⟩ := h hflags
        rw [hout]
        refine ⟨_, rfl, iff_of_false (Option.some_ne_none _) (not_not_intro rfl), fun bytes' h => ?_⟩
        cases h
        exact ⟨read, hread, hsum, hlen.trans (if_pos hflags).symm⟩
    · rw [if_neg hflags]
      refine iff_of_true ⟨_, rfl, iff_of_false (Option.some_ne_none _) (not_not_intro rfl),
        fun bytes h => ?_⟩ fun h => absurd h hflags
      cases h
      exact ⟨read, hread, hsum, (length_loadBuffer hread).trans (if_neg hflags).symm⟩

/-- The zlib stream of one byte is loaded. -/
theorem loadsOrFails_iff_oneZipped :
    ∃ r, answer (loadBlob smallEnv (readBytes unzipOne (uncut 1))
        (fun n => List.Vector.replicate n 0) (7 :: oneZipped) oneZippedBlob) = some r ∧
      LoadsOrFails smallEnv (fun n => List.Vector.replicate n 0) (7 :: oneZipped) oneZippedBlob r := by
  refine (loadsOrFails_iff (by decide)).mpr fun read hread _ _ => ⟨[1], ?_, rfl⟩
  have hread' : pread (7 :: oneZipped) oneZippedBlob.size oneZippedBlob.offs = some oneZipped := by
    decide
  obtain rfl := Option.some.inj (hread'.symm.trans hread)
  decide

/-- A blob of the byte 1 that says it is compressed. -/
def brokenBlob : EosShardBlob := ⟨oneFile.contentType, 1, oneDigest, 1, 1, 1⟩

/-- The byte has the checksum and is no zlib stream: `NULL` is returned, and no error is set. -/
theorem not_loadsOrFails : ∃ r,
    answer (loadBlob smallEnv (fun _ _ => none) (fun n => List.Vector.replicate n 0) [7, 1]
      brokenBlob) = some r ∧ r = (none, none) ∧
    ¬ LoadsOrFails smallEnv (fun n => List.Vector.replicate n 0) [7, 1] brokenBlob r :=
  ⟨(none, none), by decide, rfl, fun h => h.null_iff.mp rfl rfl⟩

end EosShard
