import EosShard.V2.Filed

/-!
# The strings of a blob

The writer accepts names and content types of at most 255 bytes. The reader has 256 bytes for a name,
but 255 for a content type, and one of them is for the NUL: a content type of exactly 255 bytes comes
back without its last byte.

* `StringsReadBack impl sblob c` is what is meant: the two lookups of the reader yield the name and the
  content type of the call.
* `Filed.stringsReadBack_reread_iff` is one blob, `stringsReadBack_iff` **every blob of every run**, on top
  of any previous contents of the file.
* `typedRun_not_stringsReadBack`: a content type of 255 bytes.
-/

namespace EosShard.V2

open EosShard.Found

variable {env : Env}

/-- What the reader gets for the strings of a blob header: for the name as `find_blob` looks it up and
for the content type as `blob_new` does, exactly those of the call. -/
structure StringsReadBack (impl : ShardFileImplV2) (sblob : Blob) (c : AddBlob env) : Prop where
  name : ∃ buf, lookupStringConstant impl (maxNameSize + 1) sblob.nameOffs = some buf ∧
    cstr buf = c.name
  type : ∃ buf, lookupStringConstant impl maxContentTypeSize sblob.contentTypeOffs = some buf ∧
    cstr buf = c.type

/-- A string of the pool is read back exactly if all its characters fit in front of the NUL. -/
theorem Filed.exists_lookupStringConstant_iff {f : Bytes} {ops : List (Op env)} {w : WriterV2}
    {impl : ShardFileImplV2} (h : Filed f ops w) (ho : Opened f w impl) {S : CString}
    (hS : S ∈ w.cpool.strings) {bufSize : ℕ} (hbuf : 1 < bufSize) :
    (∃ buf, V2.lookupStringConstant impl bufSize (poolOffset w.cpool.strings S) = some buf ∧
      cstr buf = S) ↔ S.length < bufSize := by
  obtain ⟨buf, hlook, hcut, -⟩ := h.lookupStringConstant ho hS hbuf
  constructor
  · rintro ⟨buf', hlook', hread⟩
    rw [hlook] at hlook'
    cases hlook'
    rw [hread] at hcut
    have hlen := congrArg List.length hcut
    rw [List.length_take] at hlen
    unfold CString.length
    omega
  · intro hlt
    refine ⟨buf, hlook, ?_⟩
    apply CString.ext
    rw [hcut]
    exact List.take_of_length_le (Nat.le_sub_one_of_lt hlt)

/-- The strings of one blob, in a pool of at most 4 GiB. -/
theorem Filed.stringsReadBack_reread_iff {f : Bytes} {ops : List (Op env)} {w : WriterV2}
    {impl : ShardFileImplV2} (h : Filed f ops w) (ho : Opened f w impl)
    (hpool : (poolBytes w.cpool.strings).length ≤ 2 ^ 32) {c : AddBlob env} {b : BlobEntry}
    (hp : (c, b) ∈ placements ops w) :
    StringsReadBack impl b.sblob.reread c ↔ c.type.length < maxContentTypeSize := by
  have hs : StringsPlaced w.cpool c b.sblob.nameOffs b.sblob.contentTypeOffs := h.strings _ hp
  obtain ⟨hno, hco⟩ := hs.offsets hpool
  have hname := poolOffset_lt hs.name_mem
  have htype := poolOffset_lt hs.type_mem
  have hno' : b.sblob.reread.nameOffs = poolOffset w.cpool.strings c.name := by
    rw [Blob.reread_nameOffs (by omega), hno]
  have hco' : b.sblob.reread.contentTypeOffs = poolOffset w.cpool.strings c.type := by
    rw [Blob.reread_contentTypeOffs (by omega), hco]
  have hacc : c.name.length ≤ maxNameSize := (accepted_of_mem_calls (mem_calls_of_mem_placements hp)).1
  rw [← h.exists_lookupStringConstant_iff ho hs.type_mem (by norm_num), ← hco']
  constructor
  · exact fun hread => hread.type
  · intro hread
    refine ⟨?_, hread⟩
    rw [hno', h.exists_lookupStringConstant_iff ho hs.name_mem (by norm_num)]
    exact Nat.lt_succ_of_le hacc

/-- **The strings of a blob read back exactly if its content type has at most 254 bytes**, for every
blob of every run, in a shard on top of any previous contents that stays in the range of `off_t` and
has at most 4 GiB of strings. The header is read where `finish` has put it, and the shard opens as long
as its record table has less than 2 GiB. -/
theorem stringsReadBack_iff (prev : Bytes) {ops : List (Op env)} {w : WriterV2} {log : List Write}
    (hrun : run writerV2New ops = some (w, log)) (hend : shardEnd w < 2 ^ 63)
    (hpool : (poolBytes w.cpool.strings).length ≤ 2 ^ 32) :
    ((recordNames ops).length * Record.sizeof < 2 ^ 31 →
      ∃ impl, implV2New (applyWrites prev (log ++ finish w)) = .ok impl) ∧
      ∀ impl, implV2New (applyWrites prev (log ++ finish w)) = .ok impl →
        ∀ i c, (calls ops)[i]? = some c →
          ∃ header, preadExact impl.fd Blob.sizeof ((finishedBlobs w).getD i default).offs =
              some header ∧
            (StringsReadBack impl (Blob.ofBytes header) c ↔ c.type.length < maxContentTypeSize) := by
  have h := filed_finish prev hrun hend
  refine ⟨fun hrec => ?_, fun impl hopen i c hc => ?_⟩
  · rw [← h.length_records] at hrec
    exact ⟨_, h.laidOut.implV2New hend hrec⟩
  · have ho := h.laidOut.opened hend hopen
    obtain ⟨b, hb, -, hp⟩ := h.entry hc
    refine ⟨b.sblob.toBytes, ?_, h.stringsReadBack_reread_iff ho hpool hp⟩
    rw [ho.fd]
    exact h.preadExact_header hb

/-! ## A content type of 255 bytes -/

/-- The byte 1 with a content type of `n` characters. -/
def typedCall (n : ℕ) : AddBlob smallEnv :=
  { dataCall with
    contentType := some ⟨List.replicate n 120, fun h =>
      absurd (List.eq_of_mem_replicate h) (by decide)⟩ }

/-- The length of the content type. -/
theorem length_type_typedCall (n : ℕ) : (typedCall n).type.length = n := List.length_replicate

/-- A run of one blob. -/
def typedRun (n : ℕ) : List (Op smallEnv) := [.addBlob (typedCall n)]

set_option maxRecDepth 4000 in
/-- The longest content type that reads back. -/
theorem stringsReadBack_iff_typedRun :
    ∃ w log impl header, run writerV2New (typedRun 254) = some (w, log) ∧
      implV2New (applyWrites [] (log ++ finish w)) = .ok impl ∧
      preadExact impl.fd Blob.sizeof ((finishedBlobs w).getD 0 default).offs = some header ∧
      StringsReadBack impl (Blob.ofBytes header) (typedCall 254) := by
  obtain ⟨w, log, impl, h⟩ := exists_sample (typedRun 254) (by decide +kernel)
  obtain ⟨header, hheader, hiff⟩ :=
    (stringsReadBack_iff [] h.run h.end_lt h.pool_le).2 impl h.opens 0 (typedCall 254) rfl
  exact ⟨w, log, impl, header, h.run, h.opens, hheader,
    hiff.mpr (by rw [length_type_typedCall]; norm_num)⟩

set_option maxRecDepth 4000 in
/-- One character more is accepted, and comes back without its last character. -/
theorem typedRun_not_stringsReadBack :
    ∃ w log impl header, (typedCall 255).Accepted ∧ run writerV2New (typedRun 255) = some (w, log) ∧
      implV2New (applyWrites [] (log ++ finish w)) = .ok impl ∧
      preadExact impl.fd Blob.sizeof ((finishedBlobs w).getD 0 default).offs = some header ∧
      ¬ StringsReadBack impl (Blob.ofBytes header) (typedCall 255) := by
  obtain ⟨w, log, impl, h⟩ := exists_sample (typedRun 255) (by decide +kernel)
  obtain ⟨b, hb, -, hp⟩ := h.filed.entry (i := 0) (c := typedCall 255) rfl
  have hacc : (typedCall 255).Accepted := ⟨show blobData.length ≤ maxNameSize by decide,
    (length_type_typedCall 255).le⟩
  have hheader := h.filed.preadExact_header hb
  rw [← h.loaded.fd] at hheader
  refine ⟨w, log, impl, b.sblob.toBytes, hacc, h.run, h.opens, hheader, fun hread => ?_⟩
  have hlt := (h.filed.stringsReadBack_reread_iff h.loaded.toOpened h.pool_le hp).mp hread
  rw [length_type_typedCall] at hlt
  exact absurd hlt (lt_irrefl _)

end EosShard.V2
