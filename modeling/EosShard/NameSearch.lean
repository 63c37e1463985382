import EosShard.HexNames
import EosShard.V1.RoundTrip
import EosShard.V2.RoundTrip

/-!
# The search by name is a scan of the listing

A client can look a record up by its hexadecimal name, which bisects a sorted table, or it can go
through the listing and compare the names that the records tell.

* `GoesBy`: a record tells the digits of a name, up to the case.
* `SearchIsScan`: both ways come to the same, for every name, whatever the conversions find in the
  buffers they use.
* `search_is_scan`: **they do in every finished shard** of either version.
-/

namespace EosShard

open EosShard.Found

variable {env : Env}

/-! ## What is meant -/

/-- The record tells the 40 digits that the name starts with, in lower case. -/
def GoesBy {π : Type} (heap : Heap) (hexName : CString) (rec : EosShardRecord π) : Prop :=
  (recordGetHexName heap rec).chars = (hexName.chars.take hexNameSize).map asciiTolower

/-- Searching by name is scanning the listing. -/
structure SearchIsScan (impl : ShardFileImpl) : Prop where
  /-- An accepted name is not found exactly if no listed record goes by it. -/
  none_iff : ∀ heap stack hexName, findRecordByHexName impl stack hexName = none ↔
    (AcceptedName hexName → ∀ rec, some rec ∈ listRecords impl → ¬ GoesBy heap hexName rec)
  /-- What is found is listed, and goes by the name. -/
  found : ∀ heap stack hexName rec, findRecordByHexName impl stack hexName = some rec →
    some rec ∈ listRecords impl ∧ GoesBy heap hexName rec
  /-- Every listed record is found by the name it tells, if no other one has its raw name. -/
  own_name : ∀ heap stack rec, some rec ∈ listRecords impl →
    (∀ rec', some rec' ∈ listRecords impl → rec'.rawName = rec.rawName → rec' = rec) →
      findRecordByHexName impl stack (recordGetHexName heap rec) = some rec

/-! ## Names -/

/-- A record goes by an accepted name if that converts to its raw name. -/
theorem goesBy_iff {π : Type} {heap : Heap} {hexName : CString} (hacc : AcceptedName hexName)
    {rec : EosShardRecord π} : GoesBy heap hexName rec ↔ rec.rawName = rawNameOf hexName := by
  rw [GoesBy, recordGetHexName_eq, ← chars_cstr_of_accepted hacc (heap 41),
    chars_cstr_rawNameToHexName, chars_cstr_rawNameToHexName, flatMap_sprintf02x_inj (by simp)]
  exact ⟨fun h => List.Vector.eq _ _ h, fun h => by rw [h]; rfl⟩

/-- The name that a record tells converts to its raw name. -/
theorem rawNameOf_recordGetHexName {π : Type} (heap : Heap) (rec : EosShardRecord π) :
    AcceptedName (recordGetHexName heap rec) ∧ rawNameOf (recordGetHexName heap rec) = rec.rawName := by
  have h : hexNameToRawName zeroRawName (recordGetHexName heap rec) = (true, rec.rawName) := by
    rw [recordGetHexName_eq]
    exact hexNameToRawName_rawNameToHexName _ _ _
  rw [AcceptedName, rawNameOf, h]
  exact ⟨rfl, rfl⟩

/-- It is enough that the search by raw names agrees with the listing. -/
theorem searchIsScan_of {impl : ShardFileImpl}
    (hnone : ∀ x, findRecordByRawName impl x = none ↔
      ∀ rec, some rec ∈ listRecords impl → rec.rawName ≠ x)
    (hsome : ∀ x rec, findRecordByRawName impl x = some rec →
      some rec ∈ listRecords impl ∧ rec.rawName = x) : SearchIsScan impl where
  none_iff := by
    intro heap stack hexName
    rw [findRecordByHexName_eq]
    by_cases hacc : AcceptedName hexName
    · rw [if_pos hacc, hnone]
      simp only [hacc, true_imp_iff, goesBy_iff hacc, ne_eq]
    · rw [if_neg hacc]
      exact iff_of_true rfl fun h => absurd h hacc
  found := by
    intro heap stack hexName rec h
    rw [findRecordByHexName_eq] at h
    split_ifs at h with hacc
    obtain ⟨hlisted, hname⟩ := hsome _ _ h
    exact ⟨hlisted, (goesBy_iff hacc).mpr hname⟩
  own_name := by
    intro heap stack rec hrec honly
    obtain ⟨hacc, hraw⟩ := rawNameOf_recordGetHexName heap rec
    rw [findRecordByHexName_eq, if_pos hacc, hraw]
    cases hfind : findRecordByRawName impl rec.rawName with
    | none => exact absurd rfl ((hnone _).mp hfind rec hrec)
    | some rec' =>
        obtain ⟨hlisted, hname⟩ := hsome _ _ hfind
        rw [honly rec' hlisted hname]

/-! ## The two versions -/

/-- The search of a finished V2 shard. -/
theorem searchIsScan_v2 {f : Bytes} {ops : List (V2.Op env)} {w : V2.WriterV2}
    {impl : V2.ShardFileImplV2} (h : V2.Filed f ops w) (ho : V2.Loaded f w impl)
    (hrec : w.records.length * V2.Record.sizeof < 2 ^ 31) : SearchIsScan (.v2 impl) := by
  have hlisted : ∀ rec, some rec ∈ listRecords (.v2 impl) ↔ ∃ e ∈ V2.finishedRecords w,
      (V2.recordOf impl e.srecord).withPrivateData some = rec := by
    intro rec
    rw [listRecords_v2, h.listRecords_eq ho hrec, List.map_map, List.mem_map]
    simp only [Function.comp_apply, Option.map_some, Option.some.injEq]
  refine searchIsScan_of (fun x => ?_) fun x rec hfind => ?_
  · have hnames : (∀ n ∈ V2.recordNames ops, rawNameOf n ≠ x) ↔
        ∀ y ∈ (V2.finishedRecords w).map V2.RecordEntry.rawName, y ≠ x := by
      simp only [h.rawNames_perm.mem_iff, List.forall_mem_map]
    show (V2.findRecordByRawName impl x).map _ = none ↔ _
    rw [Option.map_eq_none_iff, h.findRecordByRawName_eq_none_iff ho, hnames, List.forall_mem_map]
    constructor
    · intro hne rec hrec
      obtain ⟨e, he, rfl⟩ := (hlisted rec).mp hrec
      exact hne e he
    · intro hne e he
      exact hne _ ((hlisted _).mpr ⟨e, he, rfl⟩)
  · obtain ⟨rec₂, hrec₂, rfl⟩ := Option.map_eq_some_iff.mp hfind
    obtain ⟨hname, e, he, rfl⟩ := h.findRecordByRawName_eq_some ho hrec₂
    exact ⟨(hlisted _).mpr ⟨e, he, rfl⟩, hname⟩

/-- The search of a finished V1 shard. -/
theorem searchIsScan_v1 {gv : V1.GVariantFormat} {f : Bytes} {ops : List (V1.Op env)}
    {es : List (V1.WriterRecordEntry env)} (h : V1.Finished gv f ops es) :
    SearchIsScan (.v1 ⟨f, V1.headerEntryVariant es⟩) := by
  have hlisted : ∀ rec, some rec ∈ listRecords (.v1 ⟨f, V1.headerEntryVariant es⟩) ↔ ∃ e ∈ es,
      (V1.recordOf e).withPrivateData (fun _ => none) = rec := by
    intro rec
    rw [listRecords_v1, V1.Finished.listRecords_eq, List.map_map, List.mem_map]
    simp only [Function.comp_apply, Option.some.injEq]
  refine searchIsScan_of (fun x => ?_) fun x rec hfind => ?_
  · have hnames : (∀ r ∈ (V1.sections ops).2, rawNameOf r.1 ≠ x) ↔
        ∀ y ∈ es.map (·.rawName), y ≠ x := by
      simp only [h.rawNames_eq, List.forall_mem_map, V1.mem_tableOrder]
    show (V1.findRecordByRawName _ x).map _ = none ↔ _
    rw [Option.map_eq_none_iff, h.findRecordByRawName_eq_none_iff, hnames, List.forall_mem_map]
    constructor
    · intro hne rec hrec
      obtain ⟨e, he, rfl⟩ := (hlisted rec).mp hrec
      exact hne e he
    · intro hne e he
      exact hne _ ((hlisted _).mpr ⟨e, he, rfl⟩)
  · obtain ⟨rec₁, hrec₁, rfl⟩ := Option.map_eq_some_iff.mp hfind
    obtain ⟨hname, hmem⟩ := h.findRecordByRawName_eq_some hrec₁
    rw [V1.Finished.listRecords_eq] at hmem
    obtain ⟨e, he, rfl⟩ := List.mem_map.mp hmem
    exact ⟨(hlisted _).mpr ⟨e, he, rfl⟩, hname⟩

/-- **In every finished shard the search by name is a scan of the listing**, for every run of either
writer on top of any previous contents, with names of any kind and any number of records of one name. -/
theorem search_is_scan {gv : V1.GVariantFormat} (hgv : gv.Lawful) (prev : Bytes) :
    (∀ (ops : List (V2.Op env)) (w : V2.WriterV2) (log : List Write),
      V2.run V2.writerV2New ops = some (w, log) → V2.shardEnd w < 2 ^ 63 →
      (V2.recordNames ops).length * V2.Record.sizeof < 2 ^ 31 → ∃ impl,
        (∀ heap, detectVersion gv heap (applyWrites prev (log ++ V2.finish w)) = .ok impl) ∧
          SearchIsScan impl) ∧
      ∀ (ops : List (V1.Op env)) (w w' : V1.WriterV1 env) (log : List Write),
        V1.run V1.writerV1New ops = some w → V1.writeToFd gv w = some (w', log) →
        (∀ c, V1.Op.addBlob c ∈ ops → V1.utf8Validate c.type.chars = true) → ∃ impl,
          (∀ heap, detectVersion gv heap (applyWrites prev log) = .ok impl) ∧ SearchIsScan impl := by
  constructor
  · intro ops w log hrun hend hrec
    have h := V2.filed_finish prev hrun hend
    rw [← h.length_records] at hrec
    refine ⟨_, fun heap => ?_, searchIsScan_v2 h h.laidOut.loaded_implOf hrec⟩
    rw [h.laidOut.detectVersion_eq, h.laidOut.implV2New hend hrec]
    rfl
  · intro ops w w' log hrun hwrite hutf8
    have h := V1.finished_of_run hgv prev hrun hwrite hutf8
    exact ⟨_, h.detectVersion hgv, searchIsScan_v1 h⟩

/-- The two archives, on top of eight bytes. -/
theorem search_is_scan_archiveRun : ∃ w log w₁ w₁' log₁ impl impl₁,
    V2.run V2.writerV2New V2.archiveRun = some (w, log) ∧
      V1.run V1.writerV1New V1.archiveRun = some w₁ ∧
      V1.writeToFd V1.gvariant w₁ = some (w₁', log₁) ∧
      (∀ heap, detectVersion V1.gvariant heap
        (applyWrites (List.replicate 8 255) (log ++ V2.finish w)) = .ok impl) ∧
      (∀ heap, detectVersion V1.gvariant heap (applyWrites (List.replicate 8 255) log₁) = .ok impl₁) ∧
      SearchIsScan impl ∧ SearchIsScan impl₁ := by
  obtain ⟨w, log, _, h⟩ := V2.exists_sample V2.archiveRun (by decide +kernel)
  obtain ⟨w₁, w₁', log₁, hrun₁, hwrite₁, -⟩ := V1.written_archiveRun
  obtain ⟨h₂, h₁⟩ := search_is_scan V1.gvariant_lawful (List.replicate 8 255)
  obtain ⟨impl, hopen, hscan⟩ := h₂ _ w log h.run h.end_lt (by decide)
  obtain ⟨impl₁, hopen₁, hscan₁⟩ := h₁ _ w₁ w₁' log₁ hrun₁ hwrite₁
    fun c hc => (V1.callsOk_archiveRun c hc).1
  exact ⟨w, log, w₁, w₁', log₁, impl, impl₁, h.run, hrun₁, hwrite₁, hopen, hopen₁, hscan, hscan₁⟩

end EosShard
