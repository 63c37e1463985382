import EosShard.V2.Session

/-!
# Record ids

`add_record` answers with an index into the array of records, and `finish` sorts the array: an id that
was given out before names another record afterwards. `add_blob_to_record` does not notice.

* `FreshIds`: no id is used behind a `finish` that was given out before it.
* `view`: what a reader can tell of a record, its name and the first blob of every name. `finish`
  changes the order of the views only (`views_finish`).
* `Follows`: with fresh ids, the records are those of the calls, in another order.
* `refinished_reads_back`: **every `finish` of a session** leaves a shard that reads back.
-/

namespace EosShard.V2

open EosShard.Found

variable {env : Env}

/-! ## Fresh ids -/

/-- How many records the last `finish` has sorted, and how many there are. -/
def counts (sops : List (SessionOp env)) : ℕ × ℕ :=
  sops.foldl (fun n sop => match sop with
    | .finish => (n.2, n.2)
    | .call (.addRecord _) => (n.1, n.2 + 1)
    | .call _ => n) (0, 0)

/-- Every id that is used was given out after the last `finish`. -/
def FreshIds (sops : List (SessionOp env)) : Prop :=
  ∀ pre r i, pre ++ [.call (.addBlobToRecord r i)] <+: sops → (counts pre).1 ≤ r

/-- The ids of a session were fresh in front of its last step. -/
theorem FreshIds.of_concat {sops : List (SessionOp env)} {sop : SessionOp env}
    (h : FreshIds (sops ++ [sop])) : FreshIds sops :=
  fun pre r i hpre => h pre r i (hpre.trans (List.prefix_append _ _))

/-! ## What a reader can tell of a record -/

/-- The name of a record, and the first blob of every name. -/
def view (cs : List (AddBlob env)) (r : CString × List ℕ) :
    CString × (CString → Option (AddBlob env)) :=
  (r.1, fun name => (r.2.filterMap fun i => cs[i]?).find? fun c => c.name = name)

/-- A new blob is not seen. -/
theorem view_concat {cs : List (AddBlob env)} {r : CString × List ℕ} (hr : ∀ i ∈ r.2, i < cs.length)
    (c : AddBlob env) : view (cs ++ [c]) r = view cs r := by
  refine Prod.ext rfl (funext fun name => congrArg (List.find? _) ?_)
  exact List.filterMap_congr fun i hi => List.getElem?_append_left (hr i hi)

/-- A blob table can be sorted. -/
theorem view_sort (A : Archive env) {r : CString × List ℕ} (hr : ∀ i ∈ r.2, i < A.blobs.length) :
    view A.blobs (r.1, r.2.insertionSort A.nameLe) = view A.blobs r := by
  refine Prod.ext rfl (funext fun name => ?_)
  have hname : ∀ i, i < A.blobs.length → (A.blobs[i]?.any fun c => c.name = name) =
      decide ((A.blobs.map (·.name)).getD i .empty = name) := by
    intro i hi
    rw [List.getElem?_eq_getElem hi, Option.any_some,
      List.getD_eq_getElem _ _ (by rwa [List.length_map]), List.getElem_map]
  show (List.filterMap _ _).find? _ = (List.filterMap _ _).find? _
  rw [List.find?_filterMap, List.find?_filterMap]
  refine congrArg (Option.bind · _) ?_
  rw [List.find?_congr fun i hi => hname i (hr i ((List.mem_insertionSort _).mp hi)),
    List.find?_congr fun i hi => hname i (hr i hi)]
  convert find?_insertionSort (fun i => (A.blobs.map (·.name)).getD i .empty) A.nameLe
    (fun _ _ => Iff.rfl) name r.2

/-- **`finish` only changes the order** of what a reader can tell. -/
theorem views_finish (A : Archive env) :
    (A.finish.records.map (view A.blobs)).Perm (A.records.map (view A.blobs)) := by
  rw [Archive.finish, List.map_map]
  have hsort : ∀ r ∈ A.records.insertionSort fun r t =>
      (rawNameOf r.1).toList ≤ (rawNameOf t.1).toList,
      (view A.blobs ∘ fun r => (r.1, r.2.insertionSort A.nameLe)) r = view A.blobs r :=
    fun r hr => view_sort A (A.attached r ((List.mem_insertionSort _).mp hr))
  rw [List.map_congr_left hsort]
  exact (List.perm_insertionSort _ _).map _

/-! ## The records of the calls -/

/-- The records that the calls describe, if every id keeps its meaning. -/
def recordsOf (ops : List (Op env)) : List (CString × List ℕ) :=
  (recordNames ops).mapIdx fun r hexName => (hexName, attachedIds ops r)

/-- A blob adds no record. -/
theorem recordsOf_addBlob (ops : List (Op env)) (c : AddBlob env) :
    recordsOf (ops ++ [.addBlob c]) = recordsOf ops := by
  have hids : ∀ r, attachedIds (ops ++ [.addBlob c]) r = attachedIds ops r := fun r => by
    rw [attachedIds_append]
    exact List.append_nil _
  simp only [recordsOf, hids, recordNames_append]
  exact congrArg (List.mapIdx _) (List.append_nil _)

/-- A record is added without blobs, if its id has not been used before. -/
theorem recordsOf_addRecord {ops : List (Op env)} (h : attachedIds ops (recordNames ops).length = [])
    (hexName : CString) :
    recordsOf (ops ++ [.addRecord hexName]) = recordsOf ops ++ [(hexName, [])] := by
  have hids : ∀ r, attachedIds (ops ++ [.addRecord hexName]) r = attachedIds ops r := fun r => by
    rw [attachedIds_append]
    exact List.append_nil _
  have hnames : recordNames (ops ++ [.addRecord hexName]) = recordNames ops ++ [hexName] :=
    recordNames_append _ _
  simp only [recordsOf, hids, hnames, List.mapIdx_concat, h]

/-- To attach a blob adds its id to those of one record. -/
theorem attachedIds_attach (ops : List (Op env)) (r i k : ℕ) :
    attachedIds (ops ++ [.addBlobToRecord r i]) k = attachedIds ops k ++ if r = k then [i] else [] := by
  rw [attachedIds_append]
  by_cases hr : r = k <;> simp [attachedIds, hr]

/-- To attach a blob changes one record. -/
theorem recordsOf_attach (ops : List (Op env)) (r i : ℕ) :
    recordsOf (ops ++ [.addBlobToRecord r i]) =
      (recordsOf ops).modify r fun p => (p.1, p.2 ++ [i]) := by
  have hnames : recordNames (ops ++ [.addBlobToRecord r i]) = recordNames ops := by
    rw [recordNames_append]
    exact List.append_nil _
  apply List.ext_getElem?
  intro k
  rw [recordsOf, hnames, recordsOf, List.getElem?_modify, List.getElem?_mapIdx, List.getElem?_mapIdx]
  cases (recordNames ops)[k]? with
  | none => rfl
  | some hexName =>
      simp only [Option.map_some, attachedIds_attach]
      by_cases hr : r = k <;> simp [hr]

/-- The records of a session with fresh ids are those of the calls: the ones in front, which the last
`finish` has sorted, in another order, and the ones behind them as they are. -/
structure Follows (sops : List (SessionOp env)) (A : Archive env)
    (sorted added behind : List (CString × List ℕ)) : Prop where
  records : A.records = sorted ++ behind
  recordsOf : recordsOf (callsOf sops) = added ++ behind
  counts : counts sops = (sorted.length, A.records.length)
  views : (sorted.map (view A.blobs)).Perm (added.map (view A.blobs))
  attached : ∀ r ∈ added, ∀ i ∈ r.2, i < A.blobs.length
  unused : ∀ r, A.records.length ≤ r → attachedIds (callsOf sops) r = []

/-- The counts behind one more step. -/
theorem counts_concat (sops : List (SessionOp env)) (sop : SessionOp env) :
    counts (sops ++ [sop]) = match sop with
      | .finish => ((counts sops).2, (counts sops).2)
      | .call (.addRecord _) => ((counts sops).1, (counts sops).2 + 1)
      | .call _ => counts sops := by
  rw [counts, List.foldl_append]
  rfl

namespace Follows

variable {sops : List (SessionOp env)} {A : Archive env} {sorted added behind : List (CString × List ℕ)}

/-- A finish sorts the records, and keeps their number. -/
theorem length_added (h : Follows sops A sorted added behind) : added.length = sorted.length := by
  have hlen := h.views.length_eq
  rw [List.length_map, List.length_map] at hlen
  exact hlen.symm

/-- Both have the same number of records. -/
theorem length_recordNames (h : Follows sops A sorted added behind) :
    (recordNames (callsOf sops)).length = A.records.length := by
  have hlen := congrArg List.length h.recordsOf
  rw [V2.recordsOf, List.length_mapIdx, List.length_append, h.length_added, ← List.length_append,
    ← h.records] at hlen
  exact hlen

/-- A call of `add_blob` is followed. -/
theorem addBlob (h : Follows sops A sorted added behind) (c : AddBlob env) :
    Follows (sops ++ [.call (.addBlob c)]) (if hc : c.Accepted then A.addBlob c hc else A)
      sorted added behind := by
  have hunused : ∀ r, A.records.length ≤ r →
      attachedIds (callsOf (sops ++ [.call (.addBlob c)])) r = [] := by
    intro r hr
    rw [callsOf_concat, attachedIds_append, h.unused r hr]
    rfl
  have hrecords : V2.recordsOf (callsOf (sops ++ [.call (.addBlob c)])) = added ++ behind := by
    rw [callsOf_concat, recordsOf_addBlob, h.recordsOf]
  have hcounts : V2.counts (sops ++ [.call (.addBlob c)]) = (sorted.length, A.records.length) := by
    rw [counts_concat, h.counts]
  by_cases hc : c.Accepted
  · rw [dif_pos hc]
    refine ⟨h.records, hrecords, hcounts, ?_, fun r hr i hi => ?_, hunused⟩
    · have hsorted : ∀ r ∈ sorted, view (A.addBlob c hc).blobs r = view A.blobs r := fun r hr =>
        view_concat (A.attached r (h.records ▸ List.mem_append_left _ hr)) c
      have hadded : ∀ r ∈ added, view (A.addBlob c hc).blobs r = view A.blobs r := fun r hr =>
        view_concat (h.attached r hr) c
      rw [List.map_congr_left hsorted, List.map_congr_left hadded]
      exact h.views
    · rw [Archive.blobs_addBlob, List.length_append]
      exact Nat.lt_add_right _ (h.attached r hr i hi)
  · rw [dif_neg hc]
    exact ⟨h.records, hrecords, hcounts, h.views, h.attached, hunused⟩

/-- A call of `add_record` is followed. -/
theorem addRecord (h : Follows sops A sorted added behind) (hexName : CString) :
    Follows (sops ++ [.call (.addRecord hexName)]) (A.addRecord hexName) sorted added
      (behind ++ [(hexName, [])]) := by
  have hlast : attachedIds (callsOf sops) (recordNames (callsOf sops)).length = [] :=
    h.unused _ h.length_recordNames.ge
  refine ⟨?_, ?_, ?_, h.views, h.attached, fun r hr => ?_⟩
  · rw [Archive.records_addRecord, h.records, List.append_assoc]
  · rw [callsOf_concat, recordsOf_addRecord hlast, h.recordsOf, List.append_assoc]
  · rw [counts_concat, h.counts, Archive.records_addRecord, List.length_append]
    rfl
  · rw [Archive.records_addRecord, List.length_append] at hr
    rw [callsOf_concat, attachedIds_append, h.unused r (Nat.le_of_add_right_le hr)]
    rfl

/-- An id that was given out after the last `finish` names the same record in both. -/
theorem attach (h : Follows sops A sorted added behind) {r i : ℕ} (hfresh : sorted.length ≤ r)
    (hr : r < A.records.length) (hi : i < A.blobs.length) :
    Follows (sops ++ [.call (.addBlobToRecord r i)]) (A.attach r i hi) sorted added
      (behind.modify (r - sorted.length) fun p => (p.1, p.2 ++ [i])) := by
  refine ⟨?_, ?_, ?_, h.views, h.attached, fun k hk => ?_⟩
  · rw [Archive.records_attach, h.records, modify_append_of_le hfresh]
  · rw [callsOf_concat, recordsOf_attach, h.recordsOf, modify_append_of_le (h.length_added ▸ hfresh),
      h.length_added]
  · rw [counts_concat, h.counts, Archive.records_attach, List.length_modify]
  · rw [Archive.records_attach, List.length_modify] at hk
    rw [callsOf_concat, attachedIds_attach, h.unused k hk, if_neg (by omega)]
    rfl

/-- A finish is followed: the records are in their new places. -/
theorem finish (h : Follows sops A sorted added behind) :
    Follows (sops ++ [.finish]) A.finish A.finish.records (added ++ behind) [] := by
  have hlen := A.length_records_finish
  refine ⟨(List.append_nil _).symm, ?_, ?_, ?_, fun r hr => ?_, fun r hr => ?_⟩
  · rw [callsOf_finish, h.recordsOf, List.append_nil]
  · rw [counts_concat, h.counts, hlen]
  · refine (views_finish A).trans ?_
    rw [h.records, List.map_append, List.map_append]
    exact h.views.append_right _
  · rcases List.mem_append.mp hr with hr | hr
    · exact h.attached r hr
    · exact A.attached r (h.records ▸ List.mem_append_right _ hr)
  · rw [callsOf_finish]
    exact h.unused r (hlen ▸ hr)

/-- **What a reader can tell** is the same, up to the order of the records. -/
theorem views_perm (h : Follows sops A sorted added behind) :
    (A.records.map (view A.blobs)).Perm ((V2.recordsOf (callsOf sops)).map (view A.blobs)) := by
  rw [h.records, h.recordsOf, List.map_append, List.map_append]
  exact h.views.append_right _

end Follows

/-- With fresh ids, every session follows its calls. -/
theorem follows_of_session {sops : List (SessionOp env)} {A : Archive env} (hfresh : FreshIds sops)
    (h : runActions Archive.step Archive.empty sops = some A) :
    ∃ sorted added behind, Follows sops A sorted added behind := by
  revert hfresh
  refine runActions_rule (P := fun sops A => FreshIds sops →
    ∃ sorted added behind, Follows sops A sorted added behind) (fun _ => ?_)
    (fun sops A sop A' ih hstep hfresh => ?_) h
  · exact ⟨[], [], [], rfl, rfl, rfl, .nil, List.forall_mem_nil _, fun _ _ => rfl⟩
  · obtain ⟨sorted, added, behind, hA⟩ := ih hfresh.of_concat
    cases sop with
    | finish =>
        cases hstep
        exact ⟨_, _, _, hA.finish⟩
    | call op =>
        cases op with
        | addBlob c =>
            cases hstep
            exact ⟨_, _, _, hA.addBlob c⟩
        | addRecord hexName =>
            cases hstep
            exact ⟨_, _, _, hA.addRecord hexName⟩
        | addBlobToRecord r i =>
            rw [Archive.step] at hstep
            split_ifs at hstep with hids
            cases hstep
            have hle := hfresh sops r i (List.prefix_refl _)
            rw [hA.counts] at hle
            exact ⟨_, _, _, hA.attach hle hids.1 hids.2⟩

/-! ## Reading back -/

/-- What a reader can tell of record `r`. -/
def viewAt (ops : List (Op env)) (r : ℕ) : CString × (CString → Option (AddBlob env)) :=
  ((recordNames ops).getD r .empty, firstAttached ops r)

/-- The views at all ids are those of the records. -/
theorem map_viewAt (ops : List (Op env)) :
    (List.range (recordNames ops).length).map (viewAt ops) =
      (recordsOf ops).map (view (calls ops)) := by
  apply List.ext_getElem
  · rw [List.length_map, List.length_map, List.length_range, recordsOf, List.length_mapIdx]
  · intro r hr hr'
    rw [List.length_map, List.length_range] at hr
    simp only [List.getElem_map, List.getElem_range, recordsOf, List.getElem_mapIdx, viewAt,
      List.getD_eq_getElem _ CString.empty hr]
    rfl

/-- A record object is that of a view. -/
structure ViewReadsBack (f : Bytes) (impl : ShardFileImplV2)
    (v : CString × (CString → Option (AddBlob env))) (rec : EosShardRecord Record) : Prop where
  rawName : rawNameOf v.1 = rec.rawName
  lookup : ∀ name : CString, name.chars.head? ≠ some 36 →
    LookupReadsBack f (v.2 name) (lookupBlob impl rec name)
  metadata : LookupReadsBack f (v.2 blobMetadata) rec.metadata
  data : LookupReadsBack f (v.2 blobData) rec.data

/-- What it means for a record to read back depends on its view only. -/
theorem recordReadsBack_iff {f : Bytes} {impl : ShardFileImplV2} {ops : List (Op env)} {r : ℕ}
    {rec : EosShardRecord Record} (hr : r < (recordNames ops).length) :
    RecordReadsBack f impl ops r rec ↔ ViewReadsBack f impl (viewAt ops r) rec := by
  have hname : (recordNames ops)[r]?.map rawNameOf = some rec.rawName ↔
      rawNameOf (viewAt ops r).1 = rec.rawName := by
    rw [List.getElem?_eq_getElem hr, Option.map_some, Option.some.injEq, viewAt,
      List.getD_eq_getElem _ CString.empty hr]
  exact ⟨fun h => ⟨hname.mp h.rawName, h.lookup, h.metadata, h.data⟩,
    fun h => ⟨hname.mpr h.rawName, h.lookup, h.metadata, h.data⟩⟩

/-- Reading back does not depend on the numbers of the records. -/
theorem RoundTrip.of_views {f : Bytes} {impl : ShardFileImplV2} {ops ops' : List (Op env)}
    (h : RoundTrip f impl ops)
    (hviews : ((recordsOf ops).map (view (calls ops))).Perm
      ((recordsOf ops').map (view (calls ops')))) : RoundTrip f impl ops' := by
  rw [← map_viewAt, ← map_viewAt] at hviews
  have hnames : (recordNames ops).Perm (recordNames ops') := by
    have hfst := hviews.map Prod.fst
    have hfirst : ∀ ops : List (Op env), ((List.range (recordNames ops).length).map
        (viewAt ops)).map Prod.fst = recordNames ops := fun ops => by
      rw [map_viewAt, List.map_map]
      apply List.ext_getElem
      · rw [List.length_map, recordsOf, List.length_mapIdx]
      · intro r hr hr'
        simp only [List.getElem_map, recordsOf, List.getElem_mapIdx]
        rfl
    rwa [hfirst, hfirst] at hfst
  refine ⟨?_, fun x => (h.find_none x).trans
    ⟨fun hx n hn => hx n (hnames.mem_iff.mpr hn), fun hx n hn => hx n (hnames.mem_iff.mp hn)⟩,
    h.find_some⟩
  obtain ⟨order, recs, hperm, hlist, hall, hle, hstrict⟩ := h.list
  -- the numbers that the records in the order of the listing have among the other calls
  have horder : (order.map (viewAt ops)).Perm
      ((List.range (recordNames ops').length).map (viewAt ops')) := (hperm.map _).trans hviews
  obtain ⟨order', hmap, hperm'⟩ := List.perm_comp_forall₂ horder
    (List.forall₂_map_left_iff.mpr (List.forall₂_same.mpr fun r _ => rfl) :
      List.Forall₂ (fun v r => v = viewAt ops' r) _ (List.range (recordNames ops').length))
  refine ⟨order', recs, hperm', hlist, ?_, hle,
    fun hnodup => hstrict ((hnames.map _).nodup_iff.mpr hnodup)⟩
  rw [List.forall₂_map_left_iff] at hmap
  rw [List.forall₂_iff_get] at hmap hall ⊢
  refine ⟨hmap.1.symm.trans hall.1, fun k hk hk' => ?_⟩
  have hk₀ : k < order.length := hmap.1 ▸ hk
  have hr : order[k] < (recordNames ops).length :=
    List.mem_range.mp (hperm.mem_iff.mp (List.getElem_mem hk₀))
  have hr' : order'[k] < (recordNames ops').length :=
    List.mem_range.mp (hperm'.mem_iff.mp (List.getElem_mem hk))
  have hback := hall.2 k hk₀ hk'
  simp only [List.get_eq_getElem] at hback ⊢
  rw [recordReadsBack_iff hr] at hback
  rw [recordReadsBack_iff hr']
  have hview := hmap.2 k hk₀ hk
  simp only [List.get_eq_getElem] at hview
  rwa [← hview]

/-- The records of an archive are those of its calls. -/
theorem recordsOf_ops (A : Archive env) : recordsOf A.ops = A.records := by
  rw [recordsOf, A.recordNames_ops]
  apply List.ext_getElem
  · rw [List.length_mapIdx, List.length_map]
  · intro r hr hr'
    rw [List.getElem_mapIdx, List.getElem_map, A.attachedIds_ops,
      List.getD_eq_getElem _ _ (by rwa [List.length_map]), List.getElem_map]

/-- **A writer can be finished again and again.** Let a session of calls and finishes, in any order,
end with a `finish`. The shard then reads back as the archive of the session, which a new writer could
have made as well. It reads back as the archive of the calls, if all ids of records that are used were
given out after the last `finish`. Scope: as for a writer that is finished once. -/
theorem refinished_reads_back {prev : Bytes} {sops : List (SessionOp env)} {s : Shared}
    (hrun : runActions sessionStep ⟨writerV2New, prev⟩ sops = some s)
    (hend : shardEnd s.writer < 2 ^ 32)
    (hrec : s.writer.records.length * Record.sizeof < 2 ^ 31)
    (hatt : ∀ e ∈ s.writer.records, e.blobs.length ≤ 255)
    (htype : ∀ c ∈ calls (callsOf sops), c.type.length < maxContentTypeSize)
    (hcol : CollisionFree (calls (callsOf sops))) :
    ∃ A, runActions Archive.step Archive.empty sops = some A ∧
      (∃ w log, run writerV2New A.ops = some (w, log)) ∧
      ∃ impl, (∀ gv heap, detectVersion gv heap (applyWrites s.file (finish s.writer)) =
          .ok (.v2 impl)) ∧
        RoundTrip (applyWrites s.file (finish s.writer)) impl A.ops ∧
        (FreshIds sops → RoundTrip (applyWrites s.file (finish s.writer)) impl (callsOf sops)) := by
  obtain ⟨A, hA, hs⟩ := session_refines hrun
  have hblobs := blobs_of_session hA
  have hatt' : ∀ r ∈ A.records, r.2.length ≤ 255 := by
    intro r hr
    have hmem : recordEntryOf r ∈ s.writer.unwritten.records := by
      rw [hs.records]
      exact List.mem_map_of_mem hr
    obtain ⟨e, he, heq⟩ := List.mem_map.mp hmem
    have hlen := hatt e he
    rwa [show e.blobs = r.2 from congrArg RecordEntry.blobs heq] at hlen
  have hwritten := hs.written hend (hs.length_records ▸ hrec) hatt' (hblobs ▸ hcol)
  have hback := hwritten.roundTrip (by rwa [A.calls_ops, hblobs])
  refine ⟨A, hA, A.exists_run, _, hwritten.detectVersion, hback, fun hfresh => hback.of_views ?_⟩
  obtain ⟨_, _, _, hfollows⟩ := follows_of_session hfresh hA
  rw [recordsOf_ops, A.calls_ops, ← hblobs]
  exact hfollows.views_perm

/-- Two records, a `finish`, and two blobs for record 0 behind it. -/
def lateLinks : List (SessionOp smallEnv) :=
  [.call (.addRecord lastName), .call (.addRecord digitsName), .call (.addBlob dataCall), .finish,
    .call (.addBlob zippedCall), .call (.addBlobToRecord 0 1), .call (.addBlobToRecord 0 0)]

/-- The id 0 was given to the record that was added first, and means the other one afterwards. -/
example : (runActions Archive.step Archive.empty lateLinks).map (·.records) =
    some [(digitsName, [1, 0]), (lastName, [])] := by decide +kernel

/-- The archive of such a session reads back. -/
theorem refinished_reads_back_lateLinks : ∃ s A impl,
    runActions sessionStep ⟨writerV2New, [7]⟩ lateLinks = some s ∧
      runActions Archive.step Archive.empty lateLinks = some A ∧
      (∀ gv heap, detectVersion gv heap (applyWrites s.file (finish s.writer)) = .ok (.v2 impl)) ∧
      RoundTrip (applyWrites s.file (finish s.writer)) impl A.ops := by
  have hfacts : (runActions sessionStep ⟨writerV2New, [7]⟩ lateLinks).map (fun s =>
      decide (shardEnd s.writer < 2 ^ 32 ∧ s.writer.records.length * Record.sizeof < 2 ^ 31 ∧
        ∀ e ∈ s.writer.records, e.blobs.length ≤ 255)) = some true := by
    decide +kernel
  obtain ⟨s, hrun, hs⟩ := Option.map_eq_some_iff.mp hfacts
  obtain ⟨hend, hrec, hatt⟩ := of_decide_eq_true hs
  obtain ⟨A, hA, -, impl, hopen, hback, -⟩ := refinished_reads_back hrun hend hrec hatt (by decide)
    (by unfold CollisionFree; decide +kernel)
  exact ⟨s, A, impl, hrun, hA, hopen, hback⟩

end EosShard.V2
