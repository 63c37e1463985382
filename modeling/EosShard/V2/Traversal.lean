import EosShard.V2.Open

/-!
# The three traversals of the record table agree

`findRecordByRawName` bisects, `listRecords` walks down and prepends, `recordsForeach` walks up; each
skips tombstones by its own test. They are compared with one description of the table,
`liveRecords`: the records without the tombstone flag, in table order.

* `listRecords_eq` and `recordsForeach_eq`: listing and iteration are `liveRecords`.
* `findRecordByRawName_eq_some_iff`: on a strictly increasing table the search finds exactly the
  members of the listing. A tombstone at a probe only steers the search; one at the match ends it.
* `traversals_agree`: the three together, for any file that opens.
-/

namespace EosShard.V2

open EosShard.Found

/-- The records of the table, as far as the header counts them. -/
def table (impl : ShardFileImplV2) : List Record :=
  (List.range impl.hdr.recordsLength).map (recordAt impl)

/-- The records that are not deleted, in table order. -/
def liveRecords (impl : ShardFileImplV2) : List Record :=
  (table impl).filter fun r => !recordIsTombstone r

/-- The table is strictly increasing by raw name. -/
def StrictTable (impl : ShardFileImplV2) : Prop :=
  ∀ j < impl.hdr.recordsLength, ∀ i < j,
    (recordAt impl i).rawName.toList < (recordAt impl j).rawName.toList

/-- The record object of a record that is not a tombstone. -/
def recordOf (impl : ShardFileImplV2) (srecord : Record) : EosShardRecord Record where
  rawName := srecord.rawName
  privateData := srecord
  metadata := readBlob impl srecord blobMetadata
  data := readBlob impl srecord blobData

/-- A record that is not a tombstone can be constructed. -/
theorem recordNew_of_live {impl : ShardFileImplV2} {r : Record} (h : recordIsTombstone r = false) :
    recordNew impl r = some (recordOf impl r) := by
  simp [recordNew, h, recordOf]

/-- The records of the table. -/
theorem mem_table {impl : ShardFileImplV2} {r : Record} :
    r ∈ table impl ↔ ∃ i, i < impl.hdr.recordsLength ∧ recordAt impl i = r := by
  simp [table]

/-- The records of the table that are not tombstones. -/
theorem mem_liveRecords {impl : ShardFileImplV2} {r : Record} :
    r ∈ liveRecords impl ↔ r ∈ table impl ∧ recordIsTombstone r = false := by
  simp [liveRecords]

/-! ## Listing and iteration -/

/-- The descending loop prepends the live records below its counter. -/
theorem listRecordsLoop_eq (impl : ShardFileImplV2) (n : ℕ)
    (l : List (Option (EosShardRecord Record))) :
    listRecordsLoop impl n l =
      (((List.range n).map (recordAt impl)).filter fun r => !recordIsTombstone r).map
        (some ∘ recordOf impl) ++ l := by
  induction n generalizing l with
  | zero => rfl
  | succ n ih =>
      rw [List.range_succ, List.map_append, List.filter_append, List.map_append, listRecordsLoop]
      by_cases h : recordIsTombstone (recordAt impl n) = true
      · simp [h, ih]
      · rw [Bool.not_eq_true] at h
        simp [h, ih, recordNew_of_live h]

/-- A listing has the records that are not tombstones, in the order of the table. -/
theorem listRecords_eq {impl : ShardFileImplV2} (h : impl.hdr.recordsLength < 2 ^ 31) :
    listRecords impl = (liveRecords impl).map (some ∘ recordOf impl) := by
  rw [listRecords, asInt32_of_lt h, Int.toNat_natCast, listRecordsLoop_eq, List.append_nil]
  rfl

/-- The ascending loop hands the live records to the callback, in table order. -/
theorem recordsForeach_eq {σ : Type} (impl : ShardFileImplV2)
    (func : σ → Option (EosShardRecord Record) → σ) (s : σ) :
    recordsForeach impl func s = ((liveRecords impl).map (some ∘ recordOf impl)).foldl func s := by
  unfold recordsForeach liveRecords table
  generalize List.range impl.hdr.recordsLength = is
  induction is generalizing s with
  | nil => rfl
  | cons i is ih =>
      rw [List.foldl_cons, ih]
      by_cases h : recordIsTombstone (recordAt impl i) = true
      · simp [h]
      · rw [Bool.not_eq_true] at h
        simp [h, recordNew_of_live h]

/-! ## The search -/

/-- On a strictly increasing table the comparison with any key is strict. -/
theorem StrictTable.strictFor {impl : ShardFileImplV2} (h : StrictTable impl) (rawName : RawName) :
    StrictFor (findRecordByRawNameCompar impl rawName) impl.hdr.recordsLength := by
  intro i j hij hj hi
  have hle : rawName.toList ≤ (recordAt impl i).rawName.toList := by
    rw [← not_lt]
    exact fun hc => hi ((memcmp_eq_gt _ _).mpr hc)
  exact (memcmp_eq_lt _ _).mpr (hle.trans_lt (h j hj i hij))

/-- The comparison tells when the name is that of the record. -/
theorem findRecordByRawNameCompar_eq_eq {impl : ShardFileImplV2} {rawName : RawName} {i : ℕ} :
    findRecordByRawNameCompar impl rawName i = .eq ↔ (recordAt impl i).rawName = rawName := by
  rw [findRecordByRawNameCompar, memcmp_eq_eq]
  exact ⟨fun h => (List.Vector.eq _ _ h).symm, fun h => congrArg _ h.symm⟩

/-- **The search finds exactly the live record of that name.** -/
theorem findRecordByRawName_eq_some_iff {impl : ShardFileImplV2} (hs : StrictTable impl)
    {rawName : RawName} {rec : EosShardRecord Record} :
    findRecordByRawName impl rawName = some rec ↔
      ∃ r ∈ liveRecords impl, r.rawName = rawName ∧ rec = recordOf impl r := by
  unfold findRecordByRawName
  rcases hb : bsearch (findRecordByRawNameCompar impl rawName) 0 impl.hdr.recordsLength with _ | i
  · -- no element compares equal, so no record has the name
    rw [bsearch_eq_none_iff (hs.strictFor rawName)] at hb
    simp only [reduceCtorEq, false_iff, not_exists, not_and]
    intro r hr hname
    obtain ⟨i, hi, rfl⟩ := mem_table.mp (mem_liveRecords.mp hr).1
    exact absurd (findRecordByRawNameCompar_eq_eq.mpr hname) (hb i hi)
  · obtain ⟨hi, hcmp⟩ := (bsearch_eq_some_iff (hs.strictFor rawName)).mp hb
    have hname := findRecordByRawNameCompar_eq_eq.mp hcmp
    have huniq : ∀ r ∈ liveRecords impl, r.rawName = rawName → r = recordAt impl i := by
      intro r hr hr'
      obtain ⟨j, hj, rfl⟩ := mem_table.mp (mem_liveRecords.mp hr).1
      have hj' := (bsearch_eq_some_iff (hs.strictFor rawName)).mpr
        ⟨hj, findRecordByRawNameCompar_eq_eq.mpr hr'⟩
      rw [hb] at hj'
      rw [Option.some.inj hj']
    by_cases ht : recordIsTombstone (recordAt impl i) = true
    · simp only [ht, if_true, reduceCtorEq, false_iff, not_exists, not_and]
      intro r hr hr'
      have hlive := (mem_liveRecords.mp hr).2
      rw [huniq r hr hr', ht] at hlive
      cases hlive
    · rw [Bool.not_eq_true] at ht
      simp only [ht, Bool.false_eq_true, if_false, recordNew_of_live ht, Option.some.injEq]
      constructor
      · rintro rfl
        exact ⟨_, mem_liveRecords.mpr ⟨mem_table.mpr ⟨i, hi, rfl⟩, ht⟩, hname, rfl⟩
      · rintro ⟨r, hr, hr', rfl⟩
        rw [huniq r hr hr']

/-! ## Agreement -/

/-- **Search, listing and iteration agree**, tombstones included, on every V2 file that opens with
fewer than `2 ^ 31 / 36` records and whose table is strictly increasing:

* every record the header counts lies in the loaded buffer;
* the listing consists of the record objects of the records without the tombstone flag, each once,
  in table order;
* the iteration passes its callback the same objects in the same order;
* the search for a raw name returns a record iff the listing contains one of that name, and then
  that one;
* no object handed out belongs to a tombstone. -/
theorem traversals_agree {fd : Bytes} {impl : ShardFileImplV2} (hopen : implV2New fd = .ok impl)
    (hlt : impl.hdr.recordsLength * Record.sizeof < 2 ^ 31) (hs : StrictTable impl) :
    (∀ i, i < impl.hdr.recordsLength → (i + 1) * Record.sizeof ≤ impl.records.length) ∧
      listRecords impl = (liveRecords impl).map (some ∘ recordOf impl) ∧
      (∀ (σ : Type) (func : σ → Option (EosShardRecord Record) → σ) (s : σ),
        recordsForeach impl func s = (listRecords impl).foldl func s) ∧
      (∀ rawName rec, findRecordByRawName impl rawName = some rec ↔
        some rec ∈ listRecords impl ∧ rec.rawName = rawName) ∧
      ∀ r ∈ listRecords impl, ∃ rec, r = some rec ∧ recordIsTombstone rec.privateData = false := by
  have hn : impl.hdr.recordsLength < 2 ^ 31 := by
    have : impl.hdr.recordsLength ≤ impl.hdr.recordsLength * Record.sizeof :=
      Nat.le_mul_of_pos_right _ (by norm_num)
    omega
  have hlist := listRecords_eq hn
  refine ⟨fun i hi => ?_, hlist, fun σ func s => ?_, fun rawName rec => ?_, fun r hr => ?_⟩
  · rw [(loaded_of_implV2New hopen hlt).2.2.2]
    exact Nat.mul_le_mul_right _ hi
  · rw [hlist, recordsForeach_eq]
  · rw [findRecordByRawName_eq_some_iff hs, hlist]
    constructor
    · rintro ⟨r, hr, hname, rfl⟩
      exact ⟨List.mem_map.mpr ⟨r, hr, rfl⟩, hname⟩
    · rintro ⟨hmem, hname⟩
      obtain ⟨r, hr, hr'⟩ := List.mem_map.mp hmem
      cases hr'
      exact ⟨r, hr, hname, rfl⟩
  · rw [hlist] at hr
    obtain ⟨r', hr', rfl⟩ := List.mem_map.mp hr
    exact ⟨recordOf impl r', rfl, (mem_liveRecords.mp hr').2⟩

/-- A shard of three records without blobs, the middle one deleted. -/
def tombstoneFile : Bytes :=
  let record (name flags : ℕ) : Record :=
    { rawName := byteArray 20 (le 20 name), flags := flags, blobTableLength := 0,
      blobTableStart := 36 }
  ({ magic := magic, flags := 0, recordsLength := 3, recordsStart := 36,
     stringConstantTableStart := 144 } : Hdr).toBytes ++
    ((record 1 0).toBytes ++ ((record 2 1).toBytes ++ (record 3 0).toBytes))

/-- The three traversals on `tombstoneFile`, which has two live records. -/
theorem traversals_agree_tombstoneFile :
    ∃ impl, implV2New tombstoneFile = .ok impl ∧ (liveRecords impl).length = 2 ∧
      listRecords impl = (liveRecords impl).map (some ∘ recordOf impl) ∧
      (∀ rawName rec, findRecordByRawName impl rawName = some rec ↔
        some rec ∈ listRecords impl ∧ rec.rawName = rawName) := by
  have hopen : implV2New tombstoneFile =
      .ok ⟨tombstoneFile, headerOf tombstoneFile, slice tombstoneFile 36 108⟩ := by decide +kernel
  have h := traversals_agree hopen (by decide +kernel) (by unfold StrictTable; decide +kernel)
  exact ⟨_, hopen, by decide +kernel, h.2.1, h.2.2.2.1⟩

end EosShard.V2
