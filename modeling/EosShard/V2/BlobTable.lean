import EosShard.V2.RoundTrip

/-!
# The blob table of a record

The writer writes the table of a record in full, but its length into eight bits, and the reader goes by
the length. `list_blobs` and the lookups walk the same table and make their blobs with the same
constructor, which answers `NULL` for an empty file; `list_blobs` prepends what it gets.

* `tableEntries` are the headers the two loops of the reader come to; `Filed.tableEntries_eq`: the
  first `k % 256` of the `k` that were attached, in the order of their names.
* `blobTable_complete_iff`: **no entry is lost exactly if a record has at most 255 blobs**, and then
  every blob with a public name of its own is found.
* `listBlobs_agrees_iff`: **the listing agrees with the lookups exactly if no attached file is
  empty**.
* `crowdedRun_loses_blobs` and `listBlobs_null`: 256 blobs, and an empty file.
-/

namespace EosShard.V2

open EosShard.Found

variable {env : Env}

/-! ## What is meant -/

/-- The blob headers that `find_blob` and `list_blobs` come to in the table of a record. -/
def tableEntries (impl : ShardFileImplV2) (srecord : Record) : List Blob :=
  (List.range srecord.blobTableLength).filterMap (tableBlob impl srecord)

/-- The names under which the library hands out blobs. -/
def PublicName (name : CString) : Prop :=
  name = blobMetadata ∨ name = blobData ∨ name.chars.head? ≠ some 36

/-- Whether a name is public can be decided. -/
instance (name : CString) : Decidable (PublicName name) := inferInstanceAs (Decidable (_ ∨ _))

/-- The blob of a public name: the two internal ones are fields of the record, the others are looked
up. -/
def blobOfName (impl : ShardFileImplV2) (rec : EosShardRecord Record) (name : CString) :
    Option EosShardBlob :=
  if name = blobMetadata then rec.metadata
  else if name = blobData then rec.data
  else lookupBlob impl rec name

/-- What the record answers to the name of a call is its blob. -/
def FoundByName (impl : ShardFileImplV2) (rec : EosShardRecord Record) (c : AddBlob env) : Prop :=
  ∃ blob, blobOfName impl rec c.name = some blob ∧ blob.checksum = c.csum ∧
    blob.uncompressedSize = c.file.contents.length

/-- The listing has no `NULL`, and the same blobs as the lookups under the given names, each as often. -/
def ListingAgrees (impl : ShardFileImplV2) (rec : EosShardRecord Record) (names : List CString) :
    Prop :=
  ∃ blobs : List EosShardBlob, listBlobs impl rec = blobs.map some ∧
    blobs.Perm (names.filterMap (blobOfName impl rec))

/-- A record answers to a public name with what its blob table has under it. -/
theorem blobOfName_recordOf (impl : ShardFileImplV2) (srecord : Record) {name : CString}
    (h : PublicName name) : blobOfName impl (recordOf impl srecord) name = readBlob impl srecord name := by
  unfold blobOfName
  by_cases hm : name = blobMetadata
  · rw [if_pos hm, hm]
    rfl
  · by_cases hd : name = blobData
    · rw [if_neg hm, if_pos hd, hd]
      rfl
    · have hhead := (h.resolve_left hm).resolve_left hd
      rw [if_neg hm, if_neg hd, lookupBlob, if_neg hhead]
      rfl

/-- The other names are turned away. -/
theorem blobOfName_of_not_publicName (impl : ShardFileImplV2) (rec : EosShardRecord Record) {name : CString}
    (h : ¬ PublicName name) : blobOfName impl rec name = none := by
  obtain ⟨hm, h⟩ := not_or.mp h
  obtain ⟨hd, hhead⟩ := not_or.mp h
  rw [blobOfName, if_neg hm, if_neg hd, lookupBlob, if_pos (not_not.mp hhead)]

/-- A listing has the entries of the table, the last one first. -/
theorem listBlobs_eq (impl : ShardFileImplV2) (rec : EosShardRecord Record) :
    listBlobs impl rec = ((tableEntries impl rec.privateData).map (blobNew impl)).reverse := by
  unfold listBlobs tableEntries
  rw [foldl_prepend (f := tableBlob impl rec.privateData) (g := blobNew impl) ?_ ?_, List.append_nil]
  · intro acc i hnone
    rw [hnone]
  · intro acc i sblob hsome
    rw [hsome]

/-- The header of blob `i`, as it is read. -/
abbrev headerAt (w : WriterV2) (i : ℕ) : Blob := ((finishedBlobs w).getD i default).sblob.reread

/-- The ids of a blob table, in the order of the table. -/
abbrev sortedIds (ops : List (Op env)) (w : WriterV2) (r : ℕ) : List ℕ :=
  (attachedIds ops r).insertionSort (blobNameLe (finishedBlobs w))

namespace Filed

variable {f : Bytes} {ops : List (Op env)} {w : WriterV2} {impl : ShardFileImplV2} {r : ℕ}
  {hexName : CString} {e' : RecordEntry}

/-! ## The entries -/

/-- The entries that are read are as many as the eight bits of the length say. -/
theorem tableEntries_eq (h : Filed f ops w) (ho : Opened f w impl)
    (ht : TableWritten f (finishedBlobs w) (archiveEntry ops r hexName) e')
    (he : e' ∈ finishedRecords w) :
    tableEntries impl e'.srecord =
      ((sortedIds ops w r).take ((attachedIds ops r).length % 2 ^ 8)).map (headerAt w) := by
  have hcount : e'.srecord.blobTableLength =
      ((sortedIds ops w r).take ((attachedIds ops r).length % 2 ^ 8)).length := by
    rw [blobTableLength_eq ht, List.length_take, List.length_insertionSort]
    exact (Nat.min_eq_left (Nat.mod_le _ _)).symm
  unfold tableEntries
  rw [hcount, filterMap_range _ _ fun i => some (headerAt w i)]
  · rw [List.filterMap_eq_map']
  · intro j i hj
    have hj' : (sortedIds ops w r)[j]? = some i := by
      rw [List.getElem?_take] at hj
      split_ifs at hj
      exact hj
    exact h.tableBlob_attached ho ht he hj'

/-- A table has the number of the attachments, modulo 256. -/
theorem length_tableEntries (h : Filed f ops w) (ho : Opened f w impl)
    (ht : TableWritten f (finishedBlobs w) (archiveEntry ops r hexName) e')
    (he : e' ∈ finishedRecords w) :
    (tableEntries impl e'.srecord).length = (attachedIds ops r).length % 2 ^ 8 := by
  rw [h.tableEntries_eq ho ht he, List.length_map, List.length_take, List.length_insertionSort]
  exact Nat.min_eq_left (Nat.mod_le _ _)

/-- At most 255 entries are all read. -/
theorem tableEntries_perm (h : Filed f ops w) (ho : Opened f w impl)
    (ht : TableWritten f (finishedBlobs w) (archiveEntry ops r hexName) e')
    (he : e' ∈ finishedRecords w) (hlen : (attachedIds ops r).length ≤ 255) :
    (tableEntries impl e'.srecord).Perm ((attachedIds ops r).map (headerAt w)) := by
  have hall : (sortedIds ops w r).length ≤ (attachedIds ops r).length % 2 ^ 8 := by
    rw [List.length_insertionSort]
    omega
  rw [h.tableEntries_eq ho ht he, List.take_of_length_le hall]
  exact (List.perm_insertionSort _ _).map _

/-! ## Blobs -/

/-- The empty file, and no other as long as the strings are in place, makes the constructor answer
`NULL`. -/
theorem blobNew_headerAt (h : Filed f ops w) (ho : Opened f w impl) {i : ℕ} {c : AddBlob env}
    {b : BlobEntry} (hb : w.blobs[i]? = some b) (hcarries : Carries c b)
    (hp : (c, b) ∈ placements ops w) :
    (c.file.contents = [] → blobNew impl (headerAt w i) = none) ∧
      ((poolBytes w.cpool.strings).length ≤ 2 ^ 32 → c.file.contents ≠ [] →
        ∃ blob, blobNew impl (headerAt w i) = some blob ∧ blob.checksum = c.csum ∧
          blob.uncompressedSize = c.file.contents.length) := by
  have hsize : b.sblob.reread.uncompressedSize = c.file.contents.length := by
    have hlt := c.file.size_lt
    rw [Blob.reread_uncompressedSize (by rw [hcarries.uncompressedSize]; omega),
      hcarries.uncompressedSize]
  unfold headerAt blobNew
  rw [finishedBlobs_getD w hb]
  refine ⟨fun hnil => ?_, fun hpool hne => ?_⟩
  · rw [if_pos (by rw [hsize, hnil]; rfl)]
  · have hs : StringsPlaced w.cpool c b.sblob.nameOffs b.sblob.contentTypeOffs := h.strings _ hp
    have htype := poolOffset_lt hs.type_mem
    have hco : b.sblob.reread.contentTypeOffs = poolOffset w.cpool.strings c.type := by
      have := (hs.offsets hpool).2
      rw [Blob.reread_contentTypeOffs (by omega), this]
    obtain ⟨buf, hlook, -, -⟩ := h.lookupStringConstant ho hs.type_mem
      (show 1 < maxContentTypeSize by norm_num)
    have hne' : ¬ b.sblob.reread.uncompressedSize = 0 := by
      rw [hsize]
      exact fun h0 => hne (List.length_eq_zero_iff.mp h0)
    simp only [if_neg hne', hco, hlook]
    refine ⟨_, rfl, ?_, hsize⟩
    rw [← hcarries.csum]
    exact Blob.reread_csum _

/-- A blob with a name of its own in the record is found exactly if the name is public. -/
theorem foundByName_iff (h : Filed f ops w) (ho : Opened f w impl)
    (hpool : (poolBytes w.cpool.strings).length ≤ 2 ^ 32)
    (ht : TableWritten f (finishedBlobs w) (archiveEntry ops r hexName) e')
    (he : e' ∈ finishedRecords w) (hlen : (attachedIds ops r).length ≤ 255) {c : AddBlob env}
    (hc : c ∈ attachedCalls ops r) (hne : c.file.contents ≠ [])
    (hown : ∀ c' ∈ attachedCalls ops r, c'.name = c.name → c' = c) :
    FoundByName impl (recordOf impl e'.srecord) c ↔ PublicName c.name := by
  refine ⟨fun ⟨blob, hblob, _⟩ => ?_, fun hpublic => ?_⟩
  · by_contra hname
    rw [blobOfName_of_not_publicName _ _ hname] at hblob
    cases hblob
  -- the first call of the name is `c`
  have hfirst : firstAttached ops r c.name = some c := by
    cases hfind : firstAttached ops r c.name with
    | none => exact absurd (decide_eq_true rfl) (List.find?_eq_none.mp hfind c hc)
    | some c' =>
        have hname : c'.name = c.name := by
          unfold firstAttached at hfind
          simpa using List.find?_some hfind
        rw [hown c' (List.mem_of_find?_eq_some hfind) hname]
  rw [h.firstAttached_eq, Option.bind_eq_some_iff] at hfirst
  obtain ⟨i, hfind, hci⟩ := hfirst
  obtain ⟨c', b, hc', hb, hcarries, hp, -⟩ := h.attached_entry (List.mem_of_find?_eq_some hfind)
  rw [hci] at hc'
  cases hc'
  obtain ⟨blob, hblob, hread⟩ := (h.blobNew_headerAt ho hb hcarries hp).2 hpool hne
  refine ⟨blob, ?_, hread⟩
  rw [blobOfName_recordOf _ _ hpublic, readBlob, h.findBlob ho hpool ht he hlen, hfind]
  exact hblob

/-- Where no name occurs twice, the lookups of all names make the blobs of all ids. -/
theorem filterMap_blobOfName (h : Filed f ops w) (ho : Opened f w impl)
    (hpool : (poolBytes w.cpool.strings).length ≤ 2 ^ 32)
    (ht : TableWritten f (finishedBlobs w) (archiveEntry ops r hexName) e')
    (he : e' ∈ finishedRecords w) (hlen : (attachedIds ops r).length ≤ 255)
    (hnodup : ((attachedCalls ops r).map fun c => c.name).Nodup)
    (hpublic : ∀ c ∈ attachedCalls ops r, PublicName c.name) :
    ((attachedCalls ops r).map fun c => c.name).filterMap
        (blobOfName impl (recordOf impl e'.srecord)) =
      ((attachedIds ops r).map fun i => blobNew impl (headerAt w i)).reduceOption := by
  rw [h.names_attachedCalls] at hnodup ⊢
  unfold List.reduceOption
  rw [List.filterMap_map, List.filterMap_map]
  refine List.filterMap_congr fun i hi => ?_
  obtain ⟨c, b, hc, -, -, -, hname⟩ := h.attached_entry hi
  have hfind := find?_key_of_nodup hnodup hi
  show blobOfName impl _ ((finishedBlobs w).getD i default).name = blobNew impl (headerAt w i)
  rw [blobOfName_recordOf _ _ (hname ▸ hpublic c (List.mem_filterMap.mpr ⟨i, hi, hc⟩)), readBlob,
    h.findBlob ho hpool ht he hlen, hfind]
  rfl

/-- The listing is made of the blobs of all ids. -/
theorem listBlobs_perm (h : Filed f ops w) (ho : Opened f w impl)
    (ht : TableWritten f (finishedBlobs w) (archiveEntry ops r hexName) e')
    (he : e' ∈ finishedRecords w) (hlen : (attachedIds ops r).length ≤ 255) :
    (listBlobs impl (recordOf impl e'.srecord)).Perm
      ((attachedIds ops r).map fun i => blobNew impl (headerAt w i)) := by
  rw [listBlobs_eq]
  refine (List.reverse_perm _).trans ?_
  have hmap := (h.tableEntries_perm ho ht he hlen).map (blobNew impl)
  rw [List.map_map] at hmap
  exact hmap

end Filed

/-! ## No blob is lost -/

/-- **The table of a record is read in full exactly if it has at most 255 entries**, in every finished
shard, for every record that the open has loaded; and then a blob that is not empty and has a name of its
own is found exactly if the name is public. -/
theorem blobTable_complete_iff (prev : Bytes) {ops : List (Op env)} {w : WriterV2} {log : List Write}
    (hrun : run writerV2New ops = some (w, log)) (hend : shardEnd w < 2 ^ 63) {impl : ShardFileImplV2}
    (hopen : implV2New (applyWrites prev (log ++ finish w)) = .ok impl) {k r : ℕ}
    (hr : (tableOrder ops)[k]? = some r) (hload : (k + 1) * Record.sizeof ≤ impl.records.length)
    {rec : EosShardRecord Record} (hrec : recordNew impl (recordAt impl k) = some rec) :
    ((tableEntries impl (recordAt impl k)).length = (attachedIds ops r).length ↔
        (attachedIds ops r).length ≤ 255) ∧
      ((attachedIds ops r).length ≤ 255 → (poolBytes w.cpool.strings).length ≤ 2 ^ 32 →
        ∀ c ∈ attachedCalls ops r, c.file.contents ≠ [] →
          (∀ c' ∈ attachedCalls ops r, c'.name = c.name → c' = c) →
            (FoundByName impl rec c ↔ PublicName c.name)) := by
  have h := filed_finish prev hrun hend
  have ho := h.laidOut.opened hend hopen
  obtain ⟨e', he, ht⟩ := h.exists_finishedRecord hr
  have hmem := List.mem_of_getElem? he
  rw [h.recordAt ho he hload] at hrec ⊢
  rw [recordNew_of_live (Filed.not_recordIsTombstone e')] at hrec
  cases hrec
  constructor
  · rw [h.length_tableEntries ho ht hmem]
    constructor
    · intro hmod
      have hlt := Nat.mod_lt (attachedIds ops r).length (show 0 < 2 ^ 8 by norm_num)
      omega
    · intro hle
      exact Nat.mod_eq_of_lt (by omega)
  · intro hle hpool c hc hne hown
    exact h.foundByName_iff ho hpool ht hmem hle hc hne hown

/-- Record 1 of the archive has all its three blobs, and `$data` is found. -/
theorem blobTable_complete_iff_archiveRun :
    ∃ w log impl rec, run writerV2New archiveRun = some (w, log) ∧
      implV2New (applyWrites [] (log ++ finish w)) = .ok impl ∧
      recordNew impl (recordAt impl 0) = some rec ∧
      (tableEntries impl (recordAt impl 0)).length = 3 ∧ FoundByName impl rec dataCall := by
  obtain ⟨w, log, impl, h⟩ := exists_sample archiveRun (by decide +kernel)
  have hr : (tableOrder archiveRun)[0]? = some 1 := by decide +kernel
  obtain ⟨e', -, -, -, hnew⟩ := h.exists_record hr
  obtain ⟨hcount, hfound⟩ := blobTable_complete_iff [] h.run h.end_lt h.opens hr
    (h.filed.recordEnd_le h.loaded hr) hnew
  have hlen : (attachedIds archiveRun 1).length = 3 := by decide
  have hcalls : attachedCalls archiveRun 1 = [zippedCall, dataCall, emptyCall] := rfl
  refine ⟨w, log, impl, _, h.run, h.opens, hnew, (hcount.mpr (by omega)).trans hlen, ?_⟩
  refine (hfound (by omega) h.pool_le dataCall (by simp [hcalls]) (by decide) ?_).mpr (by decide)
  intro c' hc' hname
  rw [hcalls] at hc'
  simp only [List.mem_cons, List.not_mem_nil, or_false] at hc'
  rcases hc' with rfl | rfl | rfl
  · exact absurd hname (by decide)
  · rfl
  · exact absurd hname (by decide)

/-- One blob, attached 256 times. -/
def crowdedRun : List (Op smallEnv) :=
  .addRecord digitsName ::
    .addBlob dataCall :: List.replicate 256 (.addBlobToRecord 0 0)

set_option maxRecDepth 4000 in
/-- Nothing of it is read: the table looks empty, and the data of the record is `NULL`. -/
theorem crowdedRun_loses_blobs :
    ∃ w log impl rec, run writerV2New crowdedRun = some (w, log) ∧
      implV2New (applyWrites [] (log ++ finish w)) = .ok impl ∧
      (tableOrder crowdedRun)[0]? = some 0 ∧ (attachedIds crowdedRun 0).length = 256 ∧
      dataCall ∈ attachedCalls crowdedRun 0 ∧ dataCall.file.contents ≠ [] ∧
      tableEntries impl (recordAt impl 0) = [] ∧
      recordNew impl (recordAt impl 0) = some rec ∧ rec.data = none := by
  obtain ⟨w, log, impl, h⟩ := exists_sample crowdedRun (by decide +kernel)
  have hr : (tableOrder crowdedRun)[0]? = some 0 := by decide +kernel
  obtain ⟨e', he, ht, hat, hnew⟩ := h.exists_record hr
  have hlen : (attachedIds crowdedRun 0).length = 256 := by decide +kernel
  have hattached : 0 ∈ attachedIds crowdedRun 0 := by decide +kernel
  have hdata : dataCall ∈ attachedCalls crowdedRun 0 := List.mem_filterMap.mpr ⟨0, hattached, rfl⟩
  have hne : dataCall.file.contents ≠ [] := by decide
  have hcount : e'.srecord.blobTableLength = 0 := by
    rw [Filed.blobTableLength_eq ht, hlen]
    norm_num
  refine ⟨w, log, impl, _, h.run, h.opens, hr, hlen, hdata, hne, ?_, hnew, ?_⟩
  · unfold tableEntries
    rw [hat, hcount]
    rfl
  · show readBlob impl e'.srecord blobData = none
    unfold readBlob findBlob
    rw [hcount]
    rfl

/-! ## The listing and the lookups -/

/-- **The listing agrees with the lookups exactly if no attached file is empty**, in every finished
shard, for every record that the open has loaded and whose at most 255 blobs have different public
names. For the one direction the shard has at most 4 GiB of strings. -/
theorem listBlobs_agrees_iff (prev : Bytes) {ops : List (Op env)} {w : WriterV2} {log : List Write}
    (hrun : run writerV2New ops = some (w, log)) (hend : shardEnd w < 2 ^ 63) {impl : ShardFileImplV2}
    (hopen : implV2New (applyWrites prev (log ++ finish w)) = .ok impl) {k r : ℕ}
    (hr : (tableOrder ops)[k]? = some r) (hload : (k + 1) * Record.sizeof ≤ impl.records.length)
    (hlen : (attachedIds ops r).length ≤ 255)
    (hnodup : ((attachedCalls ops r).map fun c => c.name).Nodup)
    (hpublic : ∀ c ∈ attachedCalls ops r, PublicName c.name) {rec : EosShardRecord Record}
    (hrec : recordNew impl (recordAt impl k) = some rec) :
    (ListingAgrees impl rec ((attachedCalls ops r).map fun c => c.name) →
        ∀ c ∈ attachedCalls ops r, c.file.contents ≠ []) ∧
      ((poolBytes w.cpool.strings).length ≤ 2 ^ 32 →
        (∀ c ∈ attachedCalls ops r, c.file.contents ≠ []) →
          ListingAgrees impl rec ((attachedCalls ops r).map fun c => c.name)) := by
  have h := filed_finish prev hrun hend
  have ho := h.laidOut.opened hend hopen
  obtain ⟨e', he, ht⟩ := h.exists_finishedRecord hr
  have hmem := List.mem_of_getElem? he
  rw [h.recordAt ho he hload, recordNew_of_live (Filed.not_recordIsTombstone e')] at hrec
  cases hrec
  have hperm := h.listBlobs_perm ho ht hmem hlen
  constructor
  · rintro ⟨blobs, hlist, -⟩ c hc hnil
    -- an empty file would put a `NULL` into the listing
    obtain ⟨i, hi, hci⟩ := List.mem_filterMap.mp hc
    obtain ⟨c', b, hc', hb, hcarries, hp, -⟩ := h.attached_entry hi
    rw [hci] at hc'
    cases hc'
    have hnull := (h.blobNew_headerAt ho hb hcarries hp).1 hnil
    have hin := hperm.mem_iff.mpr (List.mem_map.mpr ⟨i, hi, hnull⟩)
    rw [hlist] at hin
    obtain ⟨blob, -, hblob⟩ := List.mem_map.mp hin
    cases hblob
  · intro hpool hne
    have hnone : none ∉ listBlobs impl (recordOf impl e'.srecord) := by
      intro hin
      obtain ⟨i, hi, hnull⟩ := List.mem_map.mp (hperm.mem_iff.mp hin)
      obtain ⟨c, b, hc, hb, hcarries, hp, -⟩ := h.attached_entry hi
      obtain ⟨blob, hblob, -⟩ := (h.blobNew_headerAt ho hb hcarries hp).2 hpool
        (hne c (List.mem_filterMap.mpr ⟨i, hi, hc⟩))
      rw [hblob] at hnull
      cases hnull
    refine ⟨_, eq_map_some_reduceOption hnone, ?_⟩
    rw [h.filterMap_blobOfName ho hpool ht hmem hlen hnodup hpublic]
    exact hperm.filterMap _

/-- A record with two blobs. -/
def pairRun : List (Op smallEnv) :=
  [.addRecord digitsName,
    .addBlob dataCall, .addBlob zippedCall, .addBlobToRecord 0 1, .addBlobToRecord 0 0]

/-- Its listing. -/
theorem listBlobs_agrees_iff_pairRun :
    ∃ w log impl rec, run writerV2New pairRun = some (w, log) ∧
      implV2New (applyWrites [] (log ++ finish w)) = .ok impl ∧
      recordNew impl (recordAt impl 0) = some rec ∧
      ListingAgrees impl rec [zippedCall.name, dataCall.name] := by
  obtain ⟨w, log, impl, h⟩ := exists_sample pairRun (by decide +kernel)
  have hr : (tableOrder pairRun)[0]? = some 0 := by decide +kernel
  obtain ⟨e', he, ht, hat, hnew⟩ := h.exists_record hr
  have hcalls : attachedCalls pairRun 0 = [zippedCall, dataCall] := rfl
  have hagrees := (listBlobs_agrees_iff [] h.run h.end_lt h.opens hr
    (h.filed.recordEnd_le h.loaded hr) (by decide)
    (by rw [hcalls]; decide) (by rw [hcalls]; decide) hnew).2 h.pool_le (by rw [hcalls]; decide)
  exact ⟨w, log, impl, _, h.run, h.opens, hnew, hagrees⟩

/-- The listing of record 1 of the archive has a `NULL` for the empty file. -/
theorem listBlobs_null :
    ∃ w log impl rec, run writerV2New archiveRun = some (w, log) ∧
      implV2New (applyWrites [] (log ++ finish w)) = .ok impl ∧
      recordNew impl (recordAt impl 0) = some rec ∧ none ∈ listBlobs impl rec ∧
      ¬ ListingAgrees impl rec ((attachedCalls archiveRun 1).map fun c => c.name) := by
  obtain ⟨w, log, impl, h⟩ := exists_sample archiveRun (by decide +kernel)
  have hr : (tableOrder archiveRun)[0]? = some 1 := by decide +kernel
  obtain ⟨e', he, ht, hat, hnew⟩ := h.exists_record hr
  have ho := h.loaded.toOpened
  have hi : 2 ∈ attachedIds archiveRun 1 := by decide
  obtain ⟨c, b, hc, hb, hcarries, hp, -⟩ := h.filed.attached_entry hi
  cases hc
  have hnull := (h.filed.blobNew_headerAt ho hb hcarries hp).1 rfl
  have hin : none ∈ listBlobs impl (recordOf impl e'.srecord) :=
    (h.filed.listBlobs_perm ho ht he (by decide)).mem_iff.mpr
      (List.mem_map.mpr ⟨2, hi, hnull⟩)
  refine ⟨w, log, impl, _, h.run, h.opens, hnew, hin, ?_⟩
  rintro ⟨blobs, hlist, -⟩
  rw [hlist] at hin
  obtain ⟨blob, -, hblob⟩ := List.mem_map.mp hin
  cases hblob

end EosShard.V2
