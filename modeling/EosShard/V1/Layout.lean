import EosShard.Found.Extents
import EosShard.V1.RoundTrip

/-!
# The layout of a V1 shard

* `copyLoop_eq`: the copy loop of a blob, read by read. It counts what it writes in an `int`, so the
  stored size is right exactly below `2 ^ 31` (`writeBlob_size_iff`).
* `placed_writeBlobs`: every blob that is copied is placed at a multiple of 64 behind the one before.
* `layout_sound`: hence no two blobs meet, and none meets the header, which is as long as the first
  pass measured it.
-/

namespace EosShard.V1

open EosShard.Found

variable {env : Env}

/-! ## The copy loop of a blob -/

/-- The variables of the copy loop of `write_blob`. -/
structure CopyLoop where
  /-- The position of the descriptor. -/
  pos : ℕ
  /-- What has been written. -/
  log : List Write
  /-- What the checksum has been updated with. -/
  summed : Bytes
  /-- `total_size`, an `int`. -/
  totalSize : ℤ
  deriving DecidableEq

/-- One iteration, for the bytes of one read. -/
def copyStep (s : CopyLoop) (buf : Bytes) : CopyLoop where
  pos := s.pos + buf.length
  log := s.log ++ [⟨s.pos, buf⟩]
  summed := s.summed ++ buf
  totalSize := Int.bmod (s.totalSize + buf.length) (2 ^ 32)

/-- Source: `eos-shard-writer-v1.c`, the loop of `write_blob`. -/
def copyLoop (pos : ℕ) (reads : List Bytes) : CopyLoop := reads.foldl copyStep ⟨pos, [], [], 0⟩

/-- **The copy loop**, from any state: the low 32 bits of the size are what has been written. -/
theorem foldl_copyStep (s : CopyLoop) {n : ℕ} (hn : s.totalSize = asInt32 n) (reads : List Bytes) :
    reads.foldl copyStep s =
      ⟨s.pos + reads.flatten.length, s.log ++ seqWrites s.pos reads, s.summed ++ reads.flatten,
        asInt32 (n + reads.flatten.length)⟩ := by
  induction reads generalizing s n with
  | nil =>
      simp only [List.foldl_nil, List.flatten_nil, List.length_nil, seqWrites, List.append_nil,
        Nat.add_zero, ← hn]
  | cons buf reads ih =>
      have hstep : (copyStep s buf).totalSize = asInt32 (n + buf.length) := by
        simp only [copyStep, hn]
        exact bmod_asInt32_add n buf.length
      rw [List.foldl_cons, ih _ hstep]
      simp only [copyStep, List.flatten_cons, List.length_append, seqWrites, List.append_assoc,
        List.singleton_append, Nat.add_assoc]

/-- The copy loop writes what it reads, and counts it in an `int`. -/
theorem copyLoop_eq (pos : ℕ) (reads : List Bytes) :
    copyLoop pos reads =
      ⟨pos + reads.flatten.length, seqWrites pos reads, reads.flatten,
        asInt32 reads.flatten.length⟩ := by
  have hzero : (0 : ℤ) = asInt32 0 := (asInt32_of_lt (by norm_num)).symm
  have h := foldl_copyStep ⟨pos, [], [], 0⟩ hzero reads
  rwa [List.nil_append, List.nil_append, Nat.zero_add] at h

/-- A blob with a file is copied to the next aligned position. -/
theorem writeBlob_of_file {pos : ℕ} {b : WriterBlobEntry env} {c : AddBlob env}
    (hfile : b.file = some c) :
    writeBlob pos b =
      if align pos + c.stored.length < 2 ^ 63 then
        some ({ b with offs := align pos, checksum := env.sha256 c.stored,
                       size := uint64OfInt (asInt32 c.stored.length) },
          seqWrites (align pos) c.reads, align pos + c.stored.length)
      else none := by
  unfold writeBlob
  simp only [hfile]

/-- `write_blob` in terms of its loop. -/
theorem writeBlob_eq_copyLoop {pos : ℕ} {b : WriterBlobEntry env} {c : AddBlob env}
    (hfile : b.file = some c) (hend : align pos + c.stored.length < 2 ^ 63) :
    writeBlob pos b =
      some ({ b with offs := align pos, checksum := env.sha256 (copyLoop (align pos) c.reads).summed,
                     size := uint64OfInt (copyLoop (align pos) c.reads).totalSize },
        (copyLoop (align pos) c.reads).log, (copyLoop (align pos) c.reads).pos) := by
  have hreads : c.reads.flatten = c.stored := c.reads_flatten
  rw [writeBlob_of_file hfile, if_pos hend, copyLoop_eq, hreads]

/-! ## The stored size -/

/-- An `int` counter keeps a size that fits into memory exactly below `2 ^ 31`. -/
theorem uint64OfInt_asInt32_eq_iff {n : ℕ} (hn : n < 2 ^ 63) :
    uint64OfInt (asInt32 n) = n ↔ n < 2 ^ 31 := by
  constructor
  · intro h
    by_contra hc
    have hlo : -(2 ^ 31) ≤ asInt32 n := Int.le_bmod (by norm_num)
    have hhi : asInt32 n < 2 ^ 31 := Int.bmod_lt (by norm_num)
    unfold uint64OfInt at h
    omega
  · exact uint64OfInt_asInt32_of_lt

/-- Up to `2 ^ 32` the sign of the counter is extended into the size. -/
theorem uint64OfInt_asInt32_of_le {n : ℕ} (hle : 2 ^ 31 ≤ n) (hlt : n < 2 ^ 32) :
    uint64OfInt (asInt32 n) = 2 ^ 64 - 2 ^ 32 + n := by
  have hcount : asInt32 n = n - 2 ^ 32 := by
    unfold asInt32
    rw [Int.bmod_def]
    split_ifs <;> omega
  rw [hcount, uint64OfInt]
  omega

/-- What a copy that succeeds leaves in the entry and in the file. -/
theorem writeBlob_eq_some {pos pos' : ℕ} {b b' : WriterBlobEntry env} {c : AddBlob env}
    {ws : List Write} (hfile : b.file = some c) (h : writeBlob pos b = some (b', ws, pos')) :
    b' = { b with offs := align pos, checksum := env.sha256 c.stored,
                  size := uint64OfInt (asInt32 c.stored.length) } ∧
      ws = seqWrites (align pos) c.reads ∧ pos' = align pos + c.stored.length ∧
      align pos + c.stored.length < 2 ^ 63 := by
  rw [writeBlob_of_file hfile] at h
  split_ifs at h with hend
  cases h
  exact ⟨rfl, rfl, rfl, hend⟩

/-- The size of a copied blob is that of its data, through an `int`. -/
theorem size_writeBlob {pos pos' : ℕ} {b b' : WriterBlobEntry env} {c : AddBlob env}
    {ws : List Write} (hfile : b.file = some c) (h : writeBlob pos b = some (b', ws, pos')) :
    b'.size = uint64OfInt (asInt32 c.stored.length) := by
  rw [(writeBlob_eq_some hfile h).1]

/-- Sequential writes write the pieces. -/
theorem flatten_map_data_seqWrites (off : ℕ) (ps : List Bytes) :
    ((seqWrites off ps).map Write.data).flatten = ps.flatten := by
  induction ps generalizing off with
  | nil => rfl
  | cons p ps ih => rw [seqWrites, List.map_cons, List.flatten_cons, ih, List.flatten_cons]

/-- **When the stored size is right**: the size in the entry is the number of bytes that were written,
and the extent it makes is what the checksum was computed over, exactly if less than `2 ^ 31` bytes are
stored. -/
theorem writeBlob_size_iff {pos pos' : ℕ} {b b' : WriterBlobEntry env} {c : AddBlob env}
    {ws : List Write} (hfile : b.file = some c) (h : writeBlob pos b = some (b', ws, pos')) :
    (b'.size = (ws.map Write.data).flatten.length ∧
      ∀ prev, Holds (applyWrites prev ws) b'.offs (ws.map Write.data).flatten ∧
        b'.checksum = env.sha256 (slice (applyWrites prev ws) b'.offs b'.size)) ↔
      c.stored.length < 2 ^ 31 := by
  obtain ⟨rfl, rfl, -, hend⟩ := writeBlob_eq_some hfile h
  have hstored : ((seqWrites (align pos) c.reads).map Write.data).flatten = c.stored :=
    (flatten_map_data_seqWrites _ _).trans c.reads_flatten
  simp only [hstored]
  rw [uint64OfInt_asInt32_eq_iff (by omega)]
  refine ⟨fun hsize => hsize.1, fun hlt => ⟨hlt, fun prev => ?_⟩⟩
  have hreads : c.reads.flatten = c.stored := c.reads_flatten
  have hheld := holds_applyWrites_seqWrites prev (align pos) c.reads
  rw [hreads] at hheld
  rw [uint64OfInt_asInt32_of_lt hlt, hheld.slice_eq rfl]
  exact ⟨hheld, rfl⟩

/-- A blob of one read. -/
theorem writeBlob_size_iff_zipped : ∃ (b' : WriterBlobEntry smallEnv) (ws : List Write) (pos' : ℕ),
    writeBlob 72 (blobEntryInit.set zippedCall) = some (b', ws, pos') ∧
      b'.size = (ws.map Write.data).flatten.length ∧
      ∀ prev, Holds (applyWrites prev ws) b'.offs (ws.map Write.data).flatten ∧
        b'.checksum = smallEnv.sha256 (slice (applyWrites prev ws) b'.offs b'.size) := by
  have hfile : (blobEntryInit.set zippedCall).file = some zippedCall := rfl
  have hwrite := (writeBlob_of_file (b := blobEntryInit.set zippedCall) hfile).trans
    (if_pos (show align 72 + zippedCall.stored.length < 2 ^ 63 by decide))
  exact ⟨_, _, _, hwrite, (writeBlob_size_iff hfile hwrite).mpr (by decide)⟩

/-- Set the data of a record to `2 ^ 31` zero bytes. -/
def halfCall : AddBlob smallEnv where
  whichBlob := .data
  file := ⟨List.replicate (2 ^ 31) 0, octetStream, by rw [List.length_replicate]; norm_num⟩
  contentType := none
  flags := .none
  reads := List.replicate (2 ^ 17) (List.replicate (4096 * 4) 0)
  reads_flatten := by
    rw [List.flatten_replicate_replicate]
    rfl
  reads_size := fun _ hp => fullReads_size hp

/-- The call of the example stores 2 GiB. -/
theorem length_halfCall_stored : halfCall.stored.length = 2 ^ 31 := List.length_replicate

/-- All of the `2 ^ 31` bytes are written, and the entry says that there are `2 ^ 64 - 2 ^ 31`. -/
theorem not_writeBlob_size : ∃ (b' : WriterBlobEntry smallEnv) (ws : List Write) (pos' : ℕ),
    writeBlob 72 (blobEntryInit.set halfCall) = some (b', ws, pos') ∧
      (ws.map Write.data).flatten.length = 2 ^ 31 ∧ b'.size = 2 ^ 64 - 2 ^ 31 := by
  have hend : align 72 + halfCall.stored.length < 2 ^ 63 := by
    rw [length_halfCall_stored]
    decide
  have hfile : (blobEntryInit.set halfCall).file = some halfCall := rfl
  obtain ⟨⟨b', ws, pos'⟩, hwrite⟩ : ∃ r, writeBlob 72 (blobEntryInit.set halfCall) = some r :=
    ⟨_, (writeBlob_of_file hfile).trans (if_pos hend)⟩
  have hws := (writeBlob_eq_some hfile hwrite).2.1
  have hreads : halfCall.reads.flatten = halfCall.stored := halfCall.reads_flatten
  have hsize := size_writeBlob hfile hwrite
  refine ⟨b', ws, pos', hwrite, ?_, ?_⟩
  · rw [hws, flatten_map_data_seqWrites, hreads, length_halfCall_stored]
  · have hlen := length_halfCall_stored
    have hext := uint64OfInt_asInt32_of_le hlen.ge (by omega)
    omega

/-! ## The extents -/

/-- The blobs of the records, in the order in which they are copied. -/
def blobs (es : List (WriterRecordEntry env)) : List (WriterBlobEntry env) :=
  es.flatMap fun e => [e.metadata, e.data]

/-- The extent an entry says its data has. -/
def WriterBlobEntry.extent (b : WriterBlobEntry env) : ℕ × ℕ := (b.offs, b.size)

/-- The blobs `bs` have become `bs'`: those without a file are as they were, the others have their
data one behind the other between `lo` and `hi`, each from a multiple of 64 on. -/
structure Placed (lo hi : ℕ) (bs bs' : List (WriterBlobEntry env)) : Prop where
  files : bs'.map (·.file) = bs.map (·.file)
  missing : ∀ b' ∈ bs', b'.file = none → b' ∈ bs
  inOrder : InOrder lo hi ((bs'.filter fun b' => b'.file.isSome).map WriterBlobEntry.extent)
  aligned : ∀ b' ∈ bs', b'.file.isSome = true → 64 ∣ b'.offs
  sizes : ∀ b' ∈ bs', ∀ c, b'.file = some c → b'.size = c.stored.length

/-- Blobs up to a position, and others from there on. -/
theorem Placed.append {lo mid hi : ℕ} {bs bs' cs cs' : List (WriterBlobEntry env)}
    (h : Placed lo mid bs bs') (h' : Placed mid hi cs cs') :
    Placed lo hi (bs ++ cs) (bs' ++ cs') where
  files := by rw [List.map_append, List.map_append, h.files, h'.files]
  missing := List.forall_mem_append.mpr
    ⟨fun b' hb' hnone => List.mem_append_left _ (h.missing b' hb' hnone),
      fun b' hb' hnone => List.mem_append_right _ (h'.missing b' hb' hnone)⟩
  inOrder := by
    rw [List.filter_append, List.map_append]
    exact h.inOrder.append h'.inOrder
  aligned := List.forall_mem_append.mpr ⟨h.aligned, h'.aligned⟩
  sizes := List.forall_mem_append.mpr ⟨h.sizes, h'.sizes⟩

/-- All blobs of the records store less than `2 ^ 31` bytes. -/
def SmallBlobs (es : List (WriterRecordEntry env)) : Prop :=
  ∀ b ∈ blobs es, ∀ c, b.file = some c → c.stored.length < 2 ^ 31

/-- An aligned position is a multiple of 64. -/
theorem dvd_align (n : ℕ) : 64 ∣ align n := dvd_alignUp 64 n

/-- One blob. -/
theorem placed_writeBlob {pos pos' : ℕ} {b b' : WriterBlobEntry env} {ws : List Write}
    (h : writeBlob pos b = some (b', ws, pos'))
    (hsmall : ∀ c, b.file = some c → c.stored.length < 2 ^ 31) : Placed pos pos' [b] [b'] := by
  cases hfile : b.file with
  | none =>
      have hkeep : b' = b ∧ pos' = pos := by
        unfold writeBlob at h
        rw [hfile] at h
        cases h
        exact ⟨rfl, rfl⟩
      obtain ⟨rfl, rfl⟩ := hkeep
      have hnil : ([b'].filter fun b => b.file.isSome) = [] := by simp [hfile]
      have hsome : ¬ b'.file.isSome = true := by simp [hfile]
      have hne : ∀ c, b'.file ≠ some c := by simp [hfile]
      refine ⟨rfl, fun b hb _ => hb, ?_, List.forall_mem_singleton.mpr fun h => absurd h hsome,
        List.forall_mem_singleton.mpr fun c h => absurd h (hne c)⟩
      rw [hnil]
      exact .nil (le_refl _)
  | some c =>
      obtain ⟨hb', -, rfl, -⟩ := writeBlob_eq_some hfile h
      have hoffs : b'.offs = align pos := by rw [hb']
      have hcount := uint64OfInt_asInt32_of_lt (hsmall c hfile)
      have hsize := (size_writeBlob hfile h).trans hcount
      have hfile' : b'.file = some c := by rw [hb', hfile]
      have hkeep : ([b'].filter fun b => b.file.isSome) = [b'] := by simp [hfile']
      constructor
      · exact congrArg (fun o => [o]) (hfile'.trans hfile.symm)
      · refine List.forall_mem_singleton.mpr fun hnone => ?_
        rw [hfile'] at hnone
        cases hnone
      · rw [hkeep]
        refine .singleton ((le_align pos).trans_eq hoffs.symm) ?_
        exact (congrArg₂ (· + ·) hoffs hsize).le
      · exact List.forall_mem_singleton.mpr fun _ => (dvd_align pos).trans (dvd_of_eq hoffs.symm)
      · refine List.forall_mem_singleton.mpr fun c' hc' => ?_
        obtain rfl := Option.some.inj (hfile'.symm.trans hc')
        exact hsize

/-- **The loop over the records** places one blob behind the other. -/
theorem placed_writeBlobs {pos pos' : ℕ} {es es' : List (WriterRecordEntry env)} {ws : List Write}
    (h : writeBlobs pos es = some (es', ws, pos')) (hsmall : SmallBlobs es) :
    Placed pos pos' (blobs es) (blobs es') := by
  induction es generalizing pos es' ws with
  | nil =>
      cases h
      exact ⟨rfl, fun b hb _ => hb, .nil (le_refl _), List.forall_mem_nil _, List.forall_mem_nil _⟩
  | cons e es ih =>
      rw [writeBlobs] at h
      obtain ⟨⟨m, ws₁, pos₁⟩, hm, h⟩ := Option.bind_eq_some_iff.mp h
      obtain ⟨⟨d, ws₂, pos₂⟩, hd, h⟩ := Option.bind_eq_some_iff.mp h
      obtain ⟨⟨es₁, ws₃, pos₃⟩, hes, h⟩ := Option.bind_eq_some_iff.mp h
      cases h
      have hcons : blobs (e :: es) = [e.metadata] ++ ([e.data] ++ blobs es) := rfl
      rw [SmallBlobs, hcons] at hsmall
      obtain ⟨hsm, hsmall⟩ := List.forall_mem_append.mp hsmall
      obtain ⟨hsd, hsmall⟩ := List.forall_mem_append.mp hsmall
      rw [List.forall_mem_singleton] at hsm hsd
      exact (placed_writeBlob hm hsm).append ((placed_writeBlob hd hsd).append (ih hes hsmall))

/-! ## The layout of a shard -/

/-- The layout of the shard that `writeToFd` has made of the records of `w`. -/
structure LayoutSound (gv : GVariantFormat) (w w' : WriterV1 env) (log : List Write) : Prop where
  /-- The last two writes are the length and the header. -/
  header : ∃ ws, log = ws ++ [⟨0, le 8 (headerSize gv w)⟩,
    ⟨8, gv.serialise (headerEntryVariant w'.entries)⟩]
  /-- The second pass writes as many bytes as the first has measured. -/
  length_header : (gv.serialise (headerEntryVariant w'.entries)).length = headerSize gv w
  /-- The blobs are those of the sorted records. -/
  files : (blobs w'.entries).map (·.file) =
    (blobs (w.entries.insertionSort rawNameLe)).map (·.file)
  sizes : ∀ b ∈ blobs w'.entries, ∀ c, b.file = some c → b.size = c.stored.length
  offs : ∀ b ∈ blobs w'.entries, b.file.isSome = true →
    b.offs ≠ 0 ∧ 64 ∣ b.offs ∧ 8 + headerSize gv w ≤ b.offs
  disjoint : ((0, 8 + headerSize gv w) :: (blobs w'.entries).map WriterBlobEntry.extent).Pairwise
    fun x y => Disjoint (positions x) (positions y)

/-- The loop behind a `writeToFd`. -/
theorem writeBlobs_of_writeToFd {gv : GVariantFormat} {w w' : WriterV1 env} {log : List Write}
    (h : writeToFd gv w = some (w', log)) : ∃ ws pos',
      writeBlobs (align (8 + headerSize gv w)) (w.entries.insertionSort rawNameLe) =
        some (w'.entries, ws, pos') := by
  unfold writeToFd at h
  simp only at h
  rw [← headerSize] at h
  split_ifs at h
  obtain ⟨⟨es', ws, pos'⟩, hes, h⟩ := Option.bind_eq_some_iff.mp h
  cases h
  exact ⟨ws, pos', hes⟩

/-- To sort the records keeps their blobs. -/
theorem mem_blobs_insertionSort {es : List (WriterRecordEntry env)} {b : WriterBlobEntry env} :
    b ∈ blobs (es.insertionSort rawNameLe) ↔ b ∈ blobs es := by
  simp only [blobs, List.mem_flatMap, List.mem_insertionSort]

/-- The blobs of a run are as the calls have left them. -/
theorem exists_of_mem_blobs {ops : List (Op env)} {w : WriterV1 env}
    (hrun : run writerV1New ops = some w) {b : WriterBlobEntry env} (hb : b ∈ blobs w.entries) :
    ∃ o : Option (AddBlob env), b = blobEntryOf o ∧ ∀ c, o = some c → Op.addBlob c ∈ ops := by
  rw [entries_of_run hrun] at hb
  simp only [blobs, List.mem_flatMap, List.mem_map, List.mem_cons, List.not_mem_nil,
    or_false] at hb
  obtain ⟨_, ⟨r, hr, rfl⟩, rfl | rfl⟩ := hb
  · exact ⟨_, rfl, fun c hc => mem_of_lastSet hr hc⟩
  · exact ⟨_, rfl, fun c hc => mem_of_lastSet hr hc⟩

/-- A blob without a file is empty. -/
theorem size_of_file_eq_none {ops : List (Op env)} {w : WriterV1 env}
    (hrun : run writerV1New ops = some w) {b : WriterBlobEntry env} (hb : b ∈ blobs w.entries)
    (hfile : b.file = none) : b.size = 0 := by
  obtain ⟨o, rfl, -⟩ := exists_of_mem_blobs hrun hb
  cases o with
  | none => rfl
  | some c => cases hfile

/-- The blobs are small if all calls are. -/
theorem smallBlobs_of_run {ops : List (Op env)} {w : WriterV1 env}
    (hrun : run writerV1New ops = some w)
    (hsize : ∀ c, Op.addBlob c ∈ ops → c.stored.length < 2 ^ 31) : SmallBlobs w.entries := by
  intro b hb c hc
  obtain ⟨o, rfl, ho⟩ := exists_of_mem_blobs hrun hb
  cases o with
  | none => cases hc
  | some c' =>
      obtain rfl := Option.some.inj hc
      exact hsize c' (ho c' rfl)

/-- **The V1 layout is sound.** Whenever `writeToFd` finishes after a run, for blobs that store less
than `2 ^ 31` bytes, the header fits in front of the data, all data is aligned, and no two extents
meet. -/
theorem layout_sound {gv : GVariantFormat} (hgv : gv.Lawful) {ops : List (Op env)}
    {w w' : WriterV1 env} {log : List Write} (hrun : run writerV1New ops = some w)
    (hwrite : writeToFd gv w = some (w', log)) (hsmall : SmallBlobs w.entries) :
    LayoutSound gv w w' log := by
  obtain ⟨⟨ws, -, hlog⟩, hwritten⟩ := writeToFd_spec hgv hwrite
  obtain ⟨ws', pos', hblobs⟩ := writeBlobs_of_writeToFd hwrite
  have hplaced := placed_writeBlobs hblobs fun b hb => hsmall b (mem_blobs_insertionSort.mp hb)
  have hempty : ∀ b ∈ blobs w'.entries, b.file.isSome = false → b.extent.2 = 0 := by
    intro b hb hnone
    have hfile : b.file = none := Option.not_isSome_iff_eq_none.mp (Bool.eq_false_iff.mp hnone)
    exact size_of_file_eq_none hrun (mem_blobs_insertionSort.mp (hplaced.missing b hb hfile)) hfile
  have hfrom : ∀ b ∈ blobs w'.entries, b.file.isSome = true → 8 + headerSize gv w ≤ b.offs := by
    intro b hb hsome
    have hmem : b.extent ∈
        ((blobs w'.entries).filter fun b => b.file.isSome).map WriterBlobEntry.extent :=
      List.mem_map_of_mem (List.mem_filter.mpr ⟨hb, hsome⟩)
    exact (le_align _).trans (hplaced.inOrder.bounds _ hmem).1
  refine ⟨⟨ws, hlog⟩, (hwritten []).length_header, hplaced.files, hplaced.sizes,
    fun b hb hsome => ?_, List.pairwise_cons.mpr ⟨List.forall_mem_map.mpr fun b hb => ?_, ?_⟩⟩
  · have hle := hfrom b hb hsome
    exact ⟨by omega, hplaced.aligned b hb hsome, hle⟩
  · cases hsome : b.file.isSome with
    | true => exact disjoint_positions ((Nat.zero_add _).trans_le (hfrom b hb hsome))
    | false =>
        rw [positions_eq_empty (hempty b hb hsome)]
        exact Set.disjoint_empty _
  · exact pairwise_disjoint_of_filter hplaced.inOrder hempty

/-- The archive of three records. -/
theorem layout_sound_archiveRun : ∃ w w' log, run writerV1New archiveRun = some w ∧
    writeToFd gvariant w = some (w', log) ∧ LayoutSound gvariant w w' log := by
  obtain ⟨w, w', log, hrun, hwrite, -⟩ := written_archiveRun
  refine ⟨w, w', log, hrun, hwrite, layout_sound gvariant_lawful hrun hwrite ?_⟩
  exact smallBlobs_of_run hrun fun c hc => (callsOk_archiveRun c hc).2

end EosShard.V1
