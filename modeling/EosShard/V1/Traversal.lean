import EosShard.V1.Reader

/-!
# The two traversals of a V1 header

`listRecords` and `recordsForeach` build one record object after the other. A raw name that does not
have 20 bytes makes `recordNewForVariant` answer `NULL`; the listing tests for it and is empty then, the
iteration does not.

* `listRecordsLoop_append`, `recordsForeachLoop_append`: both loops over records whose names are good.
* `agrees_iff`: the traversals agree exactly if all names are.
-/

namespace EosShard.V1

open EosShard.Found

variable {impl : ShardFileImplV1}

/-! ## Records with a good name -/

/-- The object of a record whose name has 20 bytes. -/
def objectOf (v : RecordEntry) : EosShardRecord Unit where
  rawName := byteArray rawNameSize v.rawName
  privateData := ()
  metadata := blobNewForVariant v.metadata
  data := blobNewForVariant v.data

/-- All names have 20 bytes. -/
def GoodNames (records : List RecordEntry) : Prop := ∀ r ∈ records, r.rawName.length = rawNameSize

/-- A record is constructed exactly if its name has 20 bytes. -/
theorem recordNewForVariant_eq_ite (v : RecordEntry) :
    recordNewForVariant v = if v.rawName.length = rawNameSize then some (objectOf v) else none := by
  unfold recordNewForVariant
  by_cases h : v.rawName.length = rawNameSize
  · rw [if_neg (not_not_intro h), if_pos h]
    rfl
  · rw [if_pos h, if_neg h]

/-- A record with a name of 20 bytes is constructed. -/
theorem recordNewForVariant_of_good {v : RecordEntry} (h : v.rawName.length = rawNameSize) :
    recordNewForVariant v = some (objectOf v) := by
  rw [recordNewForVariant_eq_ite, if_pos h]

/-- The first record with a bad name, if there is one. -/
theorem goodNames_or_split (records : List RecordEntry) : GoodNames records ∨
    ∃ rs v rs', records = rs ++ v :: rs' ∧ GoodNames rs ∧ v.rawName.length ≠ rawNameSize := by
  induction records with
  | nil => exact Or.inl (List.forall_mem_nil _)
  | cons r records ih =>
      by_cases hr : r.rawName.length = rawNameSize
      · rcases ih with h | ⟨rs, v, rs', rfl, hrs, hv⟩
        · exact Or.inl (List.forall_mem_cons.mpr ⟨hr, h⟩)
        · exact Or.inr ⟨r :: rs, v, rs', rfl, List.forall_mem_cons.mpr ⟨hr, hrs⟩, hv⟩
      · exact Or.inr ⟨[], r, records, rfl, List.forall_mem_nil _, hr⟩

/-! ## The loops -/

/-- Good records at the front are prepended. -/
theorem listRecordsLoop_append {rs : List RecordEntry} (h : GoodNames rs) (rest : List RecordEntry)
    (l : List (EosShardRecord Unit)) :
    listRecordsLoop (rs ++ rest) l = listRecordsLoop rest ((rs.map objectOf).reverse ++ l) := by
  induction rs generalizing l with
  | nil => rfl
  | cons r rs ih =>
      obtain ⟨hr, hrs⟩ := List.forall_mem_cons.mp h
      rw [List.cons_append, listRecordsLoop, recordNewForVariant_of_good hr]
      simp only [ih hrs, List.map_cons, List.reverse_cons, List.append_assoc, List.singleton_append]

/-- Good records at the front are passed to the callback. -/
theorem recordsForeachLoop_append {σ : Type} (func : σ → Option (EosShardRecord Unit) → σ)
    {rs : List RecordEntry} (h : GoodNames rs) (rest : List RecordEntry) (s : σ) :
    recordsForeachLoop func (rs ++ rest) s =
      recordsForeachLoop func rest ((rs.map (some ∘ objectOf)).foldl func s) := by
  induction rs generalizing s with
  | nil => rfl
  | cons r rs ih =>
      obtain ⟨hr, hrs⟩ := List.forall_mem_cons.mp h
      rw [List.cons_append, recordsForeachLoop, recordNewForVariant_of_good hr]
      simp only [ih hrs, List.map_cons, List.foldl_cons, Function.comp_apply]

/-! ## Agreement -/

/-- What a callback that takes notes has been passed. -/
def passed (impl : ShardFileImplV1) : List (Option (EosShardRecord Unit)) :=
  (recordsForeach impl (fun notes record => notes ++ [record]) []).1

/-- The iteration comes to its end and has passed its callback the records of the listing, in order,
whatever the callback is. -/
def Agrees (impl : ShardFileImplV1) : Prop :=
  ∀ (σ : Type) (func : σ → Option (EosShardRecord Unit) → σ) (userData : σ),
    recordsForeach impl func userData = (((listRecords impl).map some).foldl func userData, true)

/-- A header with good names. -/
theorem listRecords_of_good (h : GoodNames impl.headerVariant.records) :
    listRecords impl = impl.headerVariant.records.map objectOf := by
  have hloop := listRecordsLoop_append h [] []
  rw [List.append_nil] at hloop
  rw [listRecords, hloop, listRecordsLoop, List.append_nil, List.reverse_reverse]

/-- The traversals agree if all names have 20 bytes. -/
theorem agrees_of_good (h : GoodNames impl.headerVariant.records) : Agrees impl := by
  intro σ func userData
  have hloop := recordsForeachLoop_append func h [] userData
  rw [List.append_nil] at hloop
  rw [recordsForeach, hloop, listRecords_of_good h, List.map_map]
  rfl

/-- Behind the first bad name the listing is lost, and the callback has been passed `NULL`. -/
theorem traversals_of_bad {rs rs' : List RecordEntry} {v : RecordEntry}
    (hrecords : impl.headerVariant.records = rs ++ v :: rs') (hrs : GoodNames rs)
    (hv : v.rawName.length ≠ rawNameSize) :
    listRecords impl = [] ∧ passed impl = rs.map (some ∘ objectOf) ++ [none] := by
  have hnew : recordNewForVariant v = none := by rw [recordNewForVariant_eq_ite, if_neg hv]
  constructor
  · rw [listRecords, hrecords, listRecordsLoop_append hrs, listRecordsLoop, hnew]
  · rw [passed, recordsForeach, hrecords, recordsForeachLoop_append _ hrs, recordsForeachLoop, hnew]
    simp only [List.foldl_append_eq_append, ← List.flatMap_def, List.flatMap_singleton',
      List.nil_append]

/-- **When listing and iteration agree**: if all raw names in the header have 20 bytes. -/
theorem agrees_iff : Agrees impl ↔ GoodNames impl.headerVariant.records := by
  refine ⟨fun h => ?_, agrees_of_good⟩
  rcases goodNames_or_split impl.headerVariant.records with hgood | ⟨rs, v, rs', hrecords, hrs, hv⟩
  · exact hgood
  · obtain ⟨hlist, hpassed⟩ := traversals_of_bad hrecords hrs hv
    have hnil : passed impl = [] := by
      rw [passed, h, hlist]
      rfl
    rw [hnil] at hpassed
    exact absurd hpassed.symm (List.append_ne_nil_of_right_ne_nil _ (List.cons_ne_nil _ _))

/-- A header with one record, whose name is empty. -/
def namelessImpl : ShardFileImplV1 :=
  ⟨[], magic, [⟨[], ⟨CString.empty, [], 0, 0, 0, 0⟩, ⟨CString.empty, [], 0, 0, 0, 0⟩⟩]⟩

/-- The listing is empty, and the callback is passed `NULL`. -/
theorem not_agrees_nameless : namelessImpl.headerVariant.magic = magic ∧
    listRecords namelessImpl = [] ∧ passed namelessImpl = [none] ∧ ¬ Agrees namelessImpl := by
  refine ⟨rfl, by decide, by decide, fun h => ?_⟩
  have hnotes := h _ (fun notes record => notes ++ [record]) []
  exact absurd hnotes (by decide)

end EosShard.V1
