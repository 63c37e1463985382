import EosShard.Found.RefCount
import EosShard.Found.Machine

/-!
# The lives of the objects

Shard files, records, blobs, streams and dictionaries are counted, and refer to each other: a record and
a blob keep their shard file, a stream its blob and its shard file, and the shard file the reader of its
version, which points back without a reference of its own. A client gets objects from the library,
takes references to what it can reach, and drops what it holds, in any order.

* The functions of the library are programs on the heap of `Found.RefCount`; what they find in the file is
  a parameter (`BlobOutcome`, `RecordOutcome`, `DictionaryOutcome`), so that the results are for all files.
  `none` is the use of an object that has been freed, of a descriptor that has been closed, or of `NULL`,
  and a failed assertion. Shard files are those whose `init` has succeeded: `Descriptors` has the others.
* A dictionary has the number of a descriptor only; `open` gives a number again once it is closed
  (`shardFileOn`).
* `Shaped` says which objects the fields refer to, and that no two shard files have one number; together
  with the counts it is `Sound`.
* Every function keeps `Sound`, and returns references that are then held (`Sound.recordNew`,
  `Sound.getStreamObject` and so on).
-/

namespace EosShard

open EosShard.Found EosShard.Found.Memory

/-! ## Objects -/

/-- The objects, with those of their fields that point to objects; `none` is `NULL`. -/
inductive Object
  /-- `fd` is the number of the descriptor, which is open as long as the shard file is alive.
  Source: `eos-shard-shard-file.c`, `struct _EosShardShardFile`. -/
  | shardFile (fd : ℕ) (impl : Option ℕ)
  /-- The reader of a version; `shardFile` is not counted.
  Source: `eos-shard-shard-file-impl-v2.c`, `struct _EosShardShardFileImplV2`. -/
  | impl (shardFile : ℕ)
  /-- Source: `eos-shard-record.h`, `struct _EosShardRecord`. -/
  | record (shardFile : ℕ) (metadata data : Option ℕ)
  /-- Source: `eos-shard-blob.h`, `struct _EosShardBlob`. -/
  | blob (shardFile : ℕ)
  /-- Source: `eos-shard-blob-stream.c`, `struct _EosShardBlobStream`. -/
  | blobStream (blob shardFile : ℕ)
  /-- A `GConverterInputStream` with its base stream. -/
  | converter (base : ℕ)
  /-- `fd` is a copy of the number of a descriptor. `shardFile` is no field of the source: it is the shard
  file that had the descriptor when the dictionary was loaded, and no function of the library looks at it.
  Source: `eos-shard-dictionary.c`, `struct _EosShardDictionary`. -/
  | dictionary (fd shardFile : ℕ)
  deriving DecidableEq

/-- The references that the destructors drop, in their order. Source:
`eos_shard_shard_file_finalize`, `eos_shard_record_free`, `eos_shard_blob_free` and
`eos_shard_blob_stream_dispose`. -/
instance : Owning Object where
  owned
    | .shardFile _ impl => impl.toList
    | .impl _ => []
    | .record shardFile metadata data => shardFile :: (data.toList ++ metadata.toList)
    | .blob shardFile => [shardFile]
    | .blobStream blob shardFile => [blob, shardFile]
    | .converter base => [base]
    | .dictionary _ _ => []

/-- The heap. -/
abbrev Objects := Memory Object

/-- A new reference to what a field points to, if it is not `NULL`. -/
def retainField (m : Objects) : Option ℕ → Option Objects
  | none => some m
  | some a => m.retain a

/-! ## The library -/

/-- How the construction of a blob can end: there is nothing to construct, what is constructed is
dropped again, or a blob. -/
inductive BlobOutcome
  | absent
  | dropped
  | blob
  deriving DecidableEq

/-- How the construction of a record can end. -/
inductive RecordOutcome
  | absent
  | dropped
  | record (metadata data : BlobOutcome)
  deriving DecidableEq

/-- There is a record. -/
def RecordOutcome.IsRecord (o : RecordOutcome) : Prop := ∃ metadata data, o = .record metadata data

/-- How the loading of a dictionary can end: the magic is wrong and there is nothing to construct, the
bloom filter cannot be read and what is constructed is left behind, or a dictionary. -/
inductive DictionaryOutcome
  | absent
  | leaked
  | dictionary
  deriving DecidableEq

/-- `new` and a successful `init`, for which `open` has answered `fd`. An `init` that fails is in
`initDetect`. Source: `eos-shard-shard-file.c`, `eos_shard_shard_file_init_internal`;
`_eos_shard_shard_file_impl_v1_new`, `_eos_shard_shard_file_impl_v2_new`. -/
def openShardFile (m : Objects) (fd : ℕ) : Option (Objects × ℕ) := do
  let (m, self) := m.alloc (.shardFile fd none)
  let (m, impl) := m.alloc (.impl self)
  let m ← m.update self (.shardFile fd (some impl))
  return (m, self)

/-- The shard file that the reader of a shard file points back to: `self->impl->shard_file`. -/
def implShardFile (m : Objects) (self : ℕ) : Option ℕ :=
  match m.dataAt self with
  | some (.shardFile _ (some impl)) =>
      match m.dataAt impl with
      | some (.impl shardFile) => some shardFile
      | _ => none
  | _ => none

/-- Construct a blob. A blob that is dropped holds its shard file already.
Source: `eos-shard-shard-file-impl-v1.c`, `blob_new_for_variant`;
`eos-shard-shard-file-impl-v2.c`, `blob_new`. -/
def blobNew (m : Objects) (shardFile : ℕ) : BlobOutcome → Option (Objects × Option ℕ)
  | .absent => some (m, none)
  | .dropped => do
      let m ← m.retain shardFile
      let (m, blob) := m.alloc (.blob shardFile)
      let m ← m.release blob
      return (m, none)
  | .blob => do
      let m ← m.retain shardFile
      let (m, blob) := m.alloc (.blob shardFile)
      return (m, some blob)

/-- Construct a record. Source: `eos-shard-shard-file-impl-v1.c`, `record_new_for_variant`;
`eos-shard-shard-file-impl-v2.c`, `record_new`. -/
def recordNew (m : Objects) (shardFile : ℕ) : RecordOutcome → Option (Objects × Option ℕ)
  | .absent => some (m, none)
  | .dropped => do
      let m ← m.retain shardFile
      let (m, record) := m.alloc (.record shardFile none none)
      let m ← m.release record
      return (m, none)
  | .record metadataOutcome dataOutcome => do
      let m ← m.retain shardFile
      let (m, record) := m.alloc (.record shardFile none none)
      let (m, metadata) ← blobNew m shardFile metadataOutcome
      let m ← m.update record (.record shardFile metadata none)
      let (m, data) ← blobNew m shardFile dataOutcome
      let m ← m.update record (.record shardFile metadata data)
      return (m, some record)

/-- Source: `eos-shard-shard-file.c`, `eos_shard_shard_file_find_record_by_raw_name`; both readers,
`find_record_by_raw_name`. -/
def findRecord (m : Objects) (self : ℕ) (o : RecordOutcome) : Option (Objects × Option ℕ) := do
  let shardFile ← implShardFile m self
  recordNew m shardFile o

/-- The loop of `list_records`, from the last record to the first one.
Source: `eos-shard-shard-file-impl-v2.c`, `list_records`. -/
def listLoopV2 (m : Objects) (shardFile : ℕ) : List RecordOutcome → Option (Objects × List ℕ)
  | [] => some (m, [])
  | o :: os => do
      let (m, l) ← listLoopV2 m shardFile os
      let (m, record) ← recordNew m shardFile o
      return (m, record.toList ++ l)

/-- The loop of `list_records`; `l` are the records so far, the last one first. At a record that
cannot be constructed the answer is `NULL`, and the list so far, the last part of the result, is not
dropped. Source: `eos-shard-shard-file-impl-v1.c`, `list_records`. -/
def listLoopV1 (m : Objects) (shardFile : ℕ) (l : List ℕ) :
    List RecordOutcome → Option (Objects × List ℕ × List ℕ)
  | [] => some (m, l.reverse, [])
  | o :: os => do
      let (m, record) ← recordNew m shardFile o
      match record with
      | none => return (m, [], l)
      | some record => listLoopV1 m shardFile (record :: l) os

/-- Source: `eos-shard-shard-file.c`, `eos_shard_shard_file_list_records`. -/
def listRecordObjectsV2 (m : Objects) (self : ℕ) (os : List RecordOutcome) :
    Option (Objects × List ℕ) := do
  let shardFile ← implShardFile m self
  listLoopV2 m shardFile os

/-- Source: `eos-shard-shard-file.c`, `eos_shard_shard_file_list_records`. -/
def listRecordObjectsV1 (m : Objects) (self : ℕ) (os : List RecordOutcome) :
    Option (Objects × List ℕ × List ℕ) := do
  let shardFile ← implShardFile m self
  listLoopV1 m shardFile [] os

/-- One round of `records_foreach` up to the callback, which gets the record; the record is dropped
afterwards, so that `NULL` does not survive it.
Source: `eos-shard-shard-file-impl-v1.c`, `records_foreach`. -/
def foreachNextV1 (m : Objects) (self : ℕ) (o : RecordOutcome) : Option (Objects × Option ℕ) := do
  let shardFile ← implShardFile m self
  let (m, record) ← recordNew m shardFile o
  if record.isNone then none else return (m, record)

/-- One round of `records_foreach` up to the callback; a tombstone is skipped.
Source: `eos-shard-shard-file-impl-v2.c`, `records_foreach`. -/
def foreachNextV2 (m : Objects) (self : ℕ) (o : RecordOutcome) : Option (Objects × Option ℕ) := do
  let shardFile ← implShardFile m self
  recordNew m shardFile o

/-- The shard file of a record or of a blob. -/
def shardFileOf (m : Objects) (a : ℕ) : Option ℕ :=
  match m.dataAt a with
  | some (.record shardFile _ _) => some shardFile
  | some (.blob shardFile) => some shardFile
  | _ => none

/-- `absent` is also the answer of V1, and that for a name with a `$`.
Source: `eos-shard-record.c`, `eos_shard_record_lookup_blob`; both readers, `lookup_blob`. -/
def lookupBlobObject (m : Objects) (record : ℕ) (o : BlobOutcome) : Option (Objects × Option ℕ) := do
  let self ← shardFileOf m record
  let shardFile ← implShardFile m self
  blobNew m shardFile o

/-- The loop of `list_blobs`; `l` is the list so far, the last one first. A blob that is absent is a
`NULL` in the list, which holds no reference.
Source: `eos-shard-shard-file-impl-v2.c`, `list_blobs`. -/
def listBlobsLoopV2 (m : Objects) (shardFile : ℕ) (l : List (Option ℕ)) :
    List BlobOutcome → Option (Objects × List (Option ℕ))
  | [] => some (m, l)
  | o :: os => do
      let (m, blob) ← blobNew m shardFile o
      listBlobsLoopV2 m shardFile (blob :: l) os

/-- Source: `eos-shard-shard-file-impl-v2.c`, `list_blobs`. -/
def listBlobObjectsV2 (m : Objects) (record : ℕ) (os : List BlobOutcome) :
    Option (Objects × List (Option ℕ)) := do
  let self ← shardFileOf m record
  let shardFile ← implShardFile m self
  listBlobsLoopV2 m shardFile [] os

/-- New references to the blobs of the record.
Source: `eos-shard-shard-file-impl-v1.c`, `list_blobs`. -/
def listBlobObjectsV1 (m : Objects) (record : ℕ) : Option (Objects × List ℕ) :=
  match m.dataAt record with
  | some (.record _ metadata data) => do
      let m ← retainField m metadata
      let m ← retainField m data
      return (m, data.toList ++ metadata.toList)
  | _ => none

/-- Source: `eos-shard-blob-stream.c`, `_eos_shard_blob_stream_new_for_blob`. -/
def blobStreamNewForBlob (m : Objects) (blob shardFile : ℕ) : Option (Objects × ℕ) := do
  let m ← m.retain blob
  let m ← m.retain shardFile
  return m.alloc (.blobStream blob shardFile)

/-- A stream on a blob; `NULL` if the blob has no offset. The local reference to the stream is dropped
when the result has its own.
Source: `eos-shard-blob.c`, `eos_shard_blob_get_stream`. -/
def getStreamObject (m : Objects) (blob : ℕ) (hasOffs compressed : Bool) :
    Option (Objects × Option ℕ) := do
  let shardFile ← shardFileOf m blob
  if !hasOffs then return (m, none)
  let (m, blobStream) ← blobStreamNewForBlob m blob shardFile
  let m ← m.retain blobStream
  if compressed then
    let (m, converter) := m.alloc (.converter blobStream)
    let m ← m.release blobStream
    return (m, some converter)
  else
    let m ← m.release blobStream
    return (m, some blobStream)

/-- The shard file whose descriptor a stream reads from.
Source: `eos-shard-blob-stream.c`, `eos_shard_blob_stream_read`. -/
def streamShardFile (m : Objects) (stream : ℕ) : Option ℕ :=
  match m.dataAt stream with
  | some (.blobStream blob shardFile) => (m.dataAt blob).map fun _ => shardFile
  | some (.converter base) =>
      match m.dataAt base with
      | some (.blobStream blob shardFile) => (m.dataAt blob).map fun _ => shardFile
      | _ => none
  | _ => none

/-- Read from the descriptor of a shard file, which its finalizer closes.
Source: `eos-shard-shard-file.c`, `_eos_shard_shard_file_read_data`. -/
def readData (m : Objects) (shardFile : ℕ) : Option Unit := (m.dataAt shardFile).map fun _ => ()

/-- The number of the descriptor of a shard file: `self->fd`. -/
def descriptorOf (m : Objects) (self : ℕ) : Option ℕ :=
  match m.dataAt self with
  | some (.shardFile fd _) => some fd
  | _ => none

/-- A dictionary on the descriptor of the blob's shard file; a compressed blob fails an assertion. If
the bloom filter cannot be read the answer is `NULL`, and the dictionary, the last part of the result, is
not dropped.
Source: `eos-shard-shard-file.c`, `_eos_shard_shard_file_new_dictionary`; `eos-shard-dictionary.c`,
`eos_shard_dictionary_new_for_fd`. -/
def loadAsDictionaryObject (m : Objects) (blob : ℕ) (compressed : Bool) (o : DictionaryOutcome) :
    Option (Objects × Option ℕ × Option ℕ) := do
  let shardFile ← shardFileOf m blob
  if compressed then none
  else
    let fd ← descriptorOf m shardFile
    match o with
    | .absent => return (m, none, none)
    | .leaked =>
        let (m, dictionary) := m.alloc (.dictionary fd shardFile)
        return (m, none, some dictionary)
    | .dictionary =>
        let (m, dictionary) := m.alloc (.dictionary fd shardFile)
        return (m, some dictionary, none)

/-- The shard file whose descriptor has a number; `none` if no open descriptor has it. -/
def shardFileOn (m : Objects) (fd : ℕ) : Option ℕ :=
  (List.range m.cells.length).find? fun a => descriptorOf m a = some fd

/-- The shard file that a dictionary reads from: the one that has its number now.
Source: `eos-shard-dictionary.c`, `eos_shard_dictionary_lookup_key`. -/
def dictionaryShardFile (m : Objects) (dictionary : ℕ) : Option ℕ :=
  match m.dataAt dictionary with
  | some (.dictionary fd _) => shardFileOn m fd
  | _ => none

/-! ## What the fields refer to -/

/-- What is at an address, if it is alive, is as stated. -/
def Is (m : Objects) (p : Object → Prop) (a : ℕ) : Prop :=
  a < m.cells.length ∧ ∀ d, m.dataAt a = some d → p d

/-- A shard file with a given descriptor. -/
def Object.HasFd (fd : ℕ) (d : Object) : Prop := ∃ impl, d = .shardFile fd impl

/-- A shard file. -/
def Object.IsShardFile (d : Object) : Prop := ∃ fd, d.HasFd fd

/-- A blob. -/
def Object.IsBlob (d : Object) : Prop := ∃ shardFile, d = .blob shardFile

/-- A record. -/
def Object.IsRecord (d : Object) : Prop := ∃ shardFile metadata data, d = .record shardFile metadata data

/-- A stream on the bytes of a blob. -/
def Object.IsBlobStream (d : Object) : Prop := ∃ blob shardFile, d = .blobStream blob shardFile

/-- What `get_stream` returns. -/
def Object.IsStream (d : Object) : Prop := d.IsBlobStream ∨ ∃ base, d = .converter base

/-- Of the shard files that are older than the one at `a` none that is alive has the number `fd`: `open`
does not give a number that is in use. -/
def FirstOn (m : Objects) (fd a : ℕ) : Prop := ∀ b, b < a → Is m (¬ Object.HasFd fd ·) b

/-- What the fields of the object at `a` refer to. -/
def ShapeOf (m : Objects) (a : ℕ) : Object → Prop
  | .shardFile fd impl => (∃ i, impl = some i ∧ Is m (· = .impl a) i) ∧ FirstOn m fd a
  | .impl _ => True
  | .record shardFile metadata data =>
      Is m Object.IsShardFile shardFile ∧ ∀ b ∈ data.toList ++ metadata.toList, Is m Object.IsBlob b
  | .blob shardFile => Is m Object.IsShardFile shardFile
  | .blobStream blob shardFile => Is m Object.IsBlob blob ∧ Is m Object.IsShardFile shardFile
  | .converter base => Is m Object.IsBlobStream base
  | .dictionary fd shardFile => Is m (Object.HasFd fd) shardFile ∧ FirstOn m fd shardFile

/-- The fields of all objects refer to what they should. -/
def Shaped (m : Objects) : Prop := ∀ a d, m.dataAt a = some d → ShapeOf m a d

/-- What is alive at an address is known. -/
theorem is_of_dataAt {m : Objects} {p : Object → Prop} {a : ℕ} {d : Object}
    (hd : m.dataAt a = some d) (hp : p d) : Is m p a := by
  refine ⟨lt_of_dataAt hd, fun d' hd' => ?_⟩
  rw [hd] at hd'
  cases hd'
  exact hp

/-- What is at an address stays what it is. -/
theorem Is.keeps {m m' : Objects} {p : Object → Prop} {a : ℕ} (h : Is m p a) (hk : Keeps m m') :
    Is m' p a :=
  ⟨h.1.trans_le hk.length_le, fun d hd => h.2 d (hk.data a d h.1 hd)⟩

/-- New shard files are not older. -/
theorem FirstOn.keeps {m m' : Objects} {fd a : ℕ} (h : FirstOn m fd a) (hk : Keeps m m') :
    FirstOn m' fd a :=
  fun b hb => (h b hb).keeps hk

/-- The fields of an object go on referring to what they should. -/
theorem ShapeOf.keeps {m m' : Objects} {a : ℕ} {d : Object} (h : ShapeOf m a d) (hk : Keeps m m') :
    ShapeOf m' a d := by
  cases d with
  | shardFile fd impl =>
      obtain ⟨⟨i, hi, his⟩, hfirst⟩ := h
      exact ⟨⟨i, hi, his.keeps hk⟩, hfirst.keeps hk⟩
  | impl shardFile => trivial
  | record shardFile metadata data => exact ⟨h.1.keeps hk, fun b hb => (h.2 b hb).keeps hk⟩
  | blob shardFile => exact Is.keeps h hk
  | blobStream blob shardFile => exact ⟨h.1.keeps hk, h.2.keeps hk⟩
  | converter base => exact Is.keeps h hk
  | dictionary fd shardFile => exact ⟨h.1.keeps hk, h.2.keeps hk⟩

/-- It suffices to look at the new objects. -/
theorem Shaped.keeps {m m' : Objects} (h : Shaped m) (hk : Keeps m m')
    (hnew : ∀ a d, m.cells.length ≤ a → m'.dataAt a = some d → ShapeOf m' a d) : Shaped m' := by
  intro a d hd
  rcases lt_or_ge a m.cells.length with ha | ha
  · exact (h a d (hk.data a d ha hd)).keeps hk
  · exact hnew a d ha hd

/-- Without new objects. -/
theorem Shaped.of_length_eq {m m' : Objects} (h : Shaped m) (hk : Keeps m m')
    (hlen : m'.cells.length = m.cells.length) : Shaped m' :=
  h.keeps hk fun a _ ha hd => absurd (lt_of_dataAt hd) (by omega)

/-- The rank of an object, above that of what it owns. -/
def Object.rank : Object → ℕ
  | .impl _ => 0
  | .dictionary _ _ => 0
  | .shardFile _ _ => 1
  | .blob _ => 2
  | .record _ _ _ => 3
  | .blobStream _ _ => 3
  | .converter _ => 4

/-- An object refers to objects of a smaller rank. -/
theorem Shaped.rank_lt {m : Objects} (h : Shaped m) (a : ℕ) (d : Object) (b : ℕ) (d' : Object)
    (hd : m.dataAt a = some d) (hb : b ∈ owned d) (hd' : m.dataAt b = some d') :
    d'.rank < d.rank := by
  have hs := h a d hd
  cases d with
  | shardFile fd impl =>
      obtain ⟨i, rfl, his⟩ := hs.1
      obtain rfl := List.mem_singleton.mp hb
      rw [his.2 d' hd']
      exact (by decide : 0 < 1)
  | impl shardFile => cases hb
  | record shardFile metadata data =>
      rcases List.mem_cons.mp hb with rfl | hb
      · obtain ⟨fd, impl, rfl⟩ := hs.1.2 d' hd'
        exact (by decide : 1 < 3)
      · obtain ⟨shardFile', rfl⟩ := (hs.2 b hb).2 d' hd'
        exact (by decide : 2 < 3)
  | blob shardFile =>
      obtain rfl := List.mem_singleton.mp hb
      obtain ⟨fd, impl, rfl⟩ := hs.2 d' hd'
      exact (by decide : 1 < 2)
  | blobStream blob shardFile =>
      rcases List.mem_cons.mp hb with rfl | hb
      · obtain ⟨shardFile', rfl⟩ := hs.1.2 d' hd'
        exact (by decide : 2 < 3)
      · obtain rfl := List.mem_singleton.mp hb
        obtain ⟨fd, impl, rfl⟩ := hs.2.2 d' hd'
        exact (by decide : 1 < 3)
  | converter base =>
      obtain rfl := List.mem_singleton.mp hb
      obtain ⟨blob, shardFile, rfl⟩ := hs.2 d' hd'
      exact (by decide : 3 < 4)
  | dictionary fd shardFile => cases hb

/-! ## Descriptors -/

/-- The descriptor is that of a shard file that is alive. -/
theorem descriptorOf_eq_some_iff {m : Objects} {a fd : ℕ} :
    descriptorOf m a = some fd ↔ ∃ d, m.dataAt a = some d ∧ d.HasFd fd := by
  unfold descriptorOf
  cases m.dataAt a with
  | none => simp
  | some d => cases d <;> simp [Object.HasFd]

/-- A number that is not in use. -/
theorem shardFileOn_eq_none_iff {m : Objects} {fd : ℕ} :
    shardFileOn m fd = none ↔ ∀ a d, m.dataAt a = some d → ¬ d.HasFd fd := by
  simp only [shardFileOn, List.find?_eq_none, List.mem_range, decide_eq_true_eq]
  constructor
  · exact fun h a d hd hfd => h a (lt_of_dataAt hd) (descriptorOf_eq_some_iff.mpr ⟨d, hd, hfd⟩)
  · intro h a _ hfd
    obtain ⟨d, hd, hfd⟩ := descriptorOf_eq_some_iff.mp hfd
    exact h a d hd hfd

/-- The number leads to the one shard file that has it. -/
theorem Shaped.shardFileOn_eq_some_iff {m : Objects} (h : Shaped m) {fd a : ℕ} :
    shardFileOn m fd = some a ↔ descriptorOf m a = some fd := by
  simp only [shardFileOn, List.find?_range_eq_some, decide_eq_true_eq, List.mem_range]
  constructor
  · exact fun hfind => hfind.1
  · intro hfd
    obtain ⟨d, hd, impl, rfl⟩ := descriptorOf_eq_some_iff.mp hfd
    refine ⟨hfd, lt_of_dataAt hd, fun b hb => ?_⟩
    -- an older one would have had the number when this one was opened
    have hno : descriptorOf m b ≠ some fd := by
      intro hb'
      obtain ⟨d', hd', hfd'⟩ := descriptorOf_eq_some_iff.mp hb'
      exact ((h a _ hd).2 b hb).2 d' hd' hfd'
    simpa using hno

/-! ## The functions keep the counts -/

/-- A new object that takes a reference to its shard file. -/
theorem retain_alloc {m : Objects} {held : List ℕ} {shardFile : ℕ} (h : Balanced m held)
    (hr : m.Reached held shardFile) {d : Object} (hd : owned d = [shardFile]) :
    ∃ m₁, m.retain shardFile = some m₁ ∧ (m₁.alloc d).2 = m.cells.length ∧
      Balanced (m₁.alloc d).1 (m.cells.length :: held) ∧ Keeps m (m₁.alloc d).1 ∧
      (m₁.alloc d).1.cells.length = m.cells.length + 1 ∧
      ∀ a, (m₁.alloc d).1.dataAt a = if a = m.cells.length then some d else m.dataAt a := by
  obtain ⟨d₀, hd₀⟩ := h.dataAt_of_reached hr
  obtain ⟨m₁, hm₁, hbal, hlen, hdata⟩ := h.retain hd₀
  have hdata' : ∀ a, (m₁.alloc d).1.dataAt a =
      if a = m.cells.length then some d else m.dataAt a := by
    intro a
    rw [dataAt_alloc, hlen, hdata]
  have hlen' : (m₁.alloc d).1.cells.length = m.cells.length + 1 := by simp [alloc, hlen]
  have hbal' : Balanced (m₁.alloc d).1 ((m₁.alloc d).2 :: held) := Balanced.alloc (by rwa [hd])
  refine ⟨m₁, hm₁, hlen, hlen ▸ hbal', ⟨by omega, fun a d' ha hd' => ?_⟩, hlen', hdata'⟩
  rwa [hdata', if_neg ha.ne] at hd'

/-- **The construction of a blob**, in every outcome. -/
theorem blobNew_spec {m : Objects} {held : List ℕ} {shardFile : ℕ} (h : Balanced m held)
    (hr : m.Reached held shardFile) (o : BlobOutcome) :
    ∃ m' b, blobNew m shardFile o = some (m', b) ∧ Balanced m' (b.toList ++ held) ∧ Keeps m m' ∧
      (∀ a d, m.cells.length ≤ a → m'.dataAt a = some d → d = .blob shardFile) ∧
      ∀ a ∈ b, m.cells.length ≤ a ∧ m'.dataAt a = some (.blob shardFile) := by
  cases o with
  | absent =>
      refine ⟨m, none, rfl, h, Keeps.refl m, fun a d ha hd => ?_, fun a ha => by cases ha⟩
      exact absurd (lt_of_dataAt hd) (not_lt.mpr ha)
  | dropped =>
      obtain ⟨m₁, hm₁, hb, hbal, hk, hlen, hdata⟩ :=
        retain_alloc h hr (d := .blob shardFile) rfl
      obtain ⟨m₂, hm₂, hbal₂, hlen₂, hk₂⟩ := hbal.release
      refine ⟨m₂, none, ?_, hbal₂, hk.trans hk₂, fun a d ha hd => ?_, fun a ha => by cases ha⟩
      · simp [blobNew, hm₁, hb, hm₂]
      · have hd₁ := hk₂.data a d (hlen₂ ▸ lt_of_dataAt hd) hd
        rw [hdata] at hd₁
        split_ifs at hd₁ with hal
        · exact (Option.some.inj hd₁).symm
        · exact absurd (lt_of_dataAt hd₁) (not_lt.mpr ha)
  | blob =>
      obtain ⟨m₁, hm₁, hb, hbal, hk, hlen, hdata⟩ :=
        retain_alloc h hr (d := .blob shardFile) rfl
      refine ⟨(m₁.alloc (.blob shardFile)).1, some m.cells.length, ?_, hbal, hk,
        fun a d ha hd => ?_, fun a ha => ?_⟩
      · simp [blobNew, hm₁, hb]
      · rw [hdata] at hd
        split_ifs at hd with hal
        · exact (Option.some.inj hd).symm
        · exact absurd (lt_of_dataAt hd) (not_lt.mpr ha)
      · cases ha
        exact ⟨le_refl _, by rw [hdata, if_pos rfl]⟩

/-- Fill a field of the record at `r` with a new blob, or leave it `NULL`. -/
theorem record_field {m : Objects} {held : List ℕ} {shardFile r : ℕ} {metadata data blob : Option ℕ}
    (metadata' data' : Option ℕ) (h : Balanced m (blob.toList ++ r :: held))
    (hd : m.dataAt r = some (.record shardFile metadata data))
    (hp : (data'.toList ++ metadata'.toList).Perm (blob.toList ++ (data.toList ++ metadata.toList))) :
    ∃ m', m.update r (.record shardFile metadata' data') = some m' ∧ Balanced m' (r :: held) ∧
      m'.cells.length = m.cells.length ∧
      ∀ b, m'.dataAt b = if b = r then some (.record shardFile metadata' data') else m.dataAt b := by
  apply h.update hd
  show ((shardFile :: (data'.toList ++ metadata'.toList)) ++ (r :: held)).Perm
    ((shardFile :: (data.toList ++ metadata.toList)) ++ (blob.toList ++ r :: held))
  refine List.Perm.cons _ ((hp.append_right _).trans ?_)
  rw [List.append_assoc]
  exact List.perm_append_comm_assoc _ _ _

/-- **The construction of a record**, in every outcome. -/
theorem recordNew_spec {m : Objects} {held : List ℕ} {shardFile : ℕ} (h : Balanced m held)
    (hs : Shaped m) (hr : m.Reached held shardFile) (hsf : Is m Object.IsShardFile shardFile)
    (o : RecordOutcome) :
    ∃ m' r, recordNew m shardFile o = some (m', r) ∧ Balanced m' (r.toList ++ held) ∧ Shaped m' ∧
      Keeps m m' ∧ (r.isSome ↔ o.IsRecord) := by
  cases o with
  | absent => exact ⟨m, none, rfl, h, hs, Keeps.refl m, by simp [RecordOutcome.IsRecord]⟩
  | dropped =>
      obtain ⟨m₁, hm₁, hb, hbal, hk, hlen, hdata⟩ :=
        retain_alloc h hr (d := .record shardFile none none) rfl
      obtain ⟨m₂, hm₂, hbal₂, hlen₂, hk₂⟩ := hbal.release
      refine ⟨m₂, none, ?_, hbal₂, hs.keeps (hk.trans hk₂) fun a d ha hd => ?_, hk.trans hk₂,
        by simp [RecordOutcome.IsRecord]⟩
      · simp [recordNew, hm₁, hb, hm₂]
      · have hd₁ := hk₂.data a d (hlen₂ ▸ lt_of_dataAt hd) hd
        rw [hdata] at hd₁
        split_ifs at hd₁ with hal
        · cases hd₁
          exact ⟨hsf.keeps (hk.trans hk₂), fun b hb => by cases hb⟩
        · exact absurd (lt_of_dataAt hd₁) (not_lt.mpr ha)
  | record metadataOutcome dataOutcome =>
      obtain ⟨m₁, hm₁, hb, hbal₂, hk₂, hlen₂, hdata₂⟩ :=
        retain_alloc h hr (d := .record shardFile none none) rfl
      obtain ⟨m₂, hm₂⟩ : ∃ m₂, m₂ = (m₁.alloc (.record shardFile none none)).1 := ⟨_, rfl⟩
      obtain ⟨r, hrlen⟩ : ∃ r, r = m.cells.length := ⟨_, rfl⟩
      rw [← hm₂, ← hrlen] at hbal₂
      rw [← hm₂] at hk₂ hlen₂ hdata₂
      have hrd₂ : m₂.dataAt r = some (.record shardFile none none) := by
        rw [hdata₂, if_pos hrlen]
      have hsub : held ⊆ r :: held := List.subset_cons_self r held
      -- the first blob
      obtain ⟨hr₂, -⟩ := h.reached_of_keeps hbal₂ hk₂ hsub hr
      obtain ⟨m₃, metadata, hm₃, hbal₃, hk₃, hfresh₃, hmeta₃⟩ :=
        blobNew_spec hbal₂ hr₂ metadataOutcome
      have hrd₃ : m₃.dataAt r = some (.record shardFile none none) := by
        obtain ⟨-, hrd⟩ := hbal₂.reached_of_keeps hbal₃ hk₃ (List.subset_append_right _ _)
          (reached_of_mem List.mem_cons_self)
        rw [hrd, hrd₂]
      obtain ⟨m₄, hm₄, hbal₄, hlen₄, hdata₄⟩ := record_field metadata none hbal₃ hrd₃ (by simp)
      have hk₄ : Keeps m m₄ := by
        refine ⟨by have := hk₃.length_le; omega, fun a d ha hd => ?_⟩
        rw [hdata₄, if_neg (by omega)] at hd
        exact hk₂.data a d ha (hk₃.data a d (by omega) hd)
      -- the second blob
      obtain ⟨hr₄, -⟩ := h.reached_of_keeps hbal₄ hk₄ hsub hr
      obtain ⟨m₅, data, hm₅, hbal₅, hk₅, hfresh₅, hdat₅⟩ := blobNew_spec hbal₄ hr₄ dataOutcome
      have hrd₄ : m₄.dataAt r = some (.record shardFile metadata none) := by
        rw [hdata₄, if_pos rfl]
      have hrd₅ : m₅.dataAt r = some (.record shardFile metadata none) := by
        obtain ⟨-, hrd⟩ := hbal₄.reached_of_keeps hbal₅ hk₅ (List.subset_append_right _ _)
          (reached_of_mem List.mem_cons_self)
        rw [hrd, hrd₄]
      obtain ⟨m₆, hm₆, hbal₆, hlen₆, hdata₆⟩ := record_field metadata data hbal₅ hrd₅ (by simp)
      have hk₆ : Keeps m m₆ := by
        refine ⟨by have := hk₄.length_le; have := hk₅.length_le; omega, fun a d ha hd => ?_⟩
        rw [hdata₆, if_neg (by omega)] at hd
        exact hk₄.data a d ha (hk₅.data a d (by have := hk₄.length_le; omega) hd)
      -- what is new is the record and its blobs
      have hnew : ∀ a d, m.cells.length ≤ a → a ≠ r → m₆.dataAt a = some d →
          d = .blob shardFile := by
        intro a d ha har hd
        rw [hdata₆, if_neg har] at hd
        rcases lt_or_ge a m₄.cells.length with ha₄ | ha₄
        · have hd₄ := hk₅.data a d ha₄ hd
          rw [hdata₄, if_neg har] at hd₄
          exact hfresh₃ a d (by omega) hd₄
        · exact hfresh₅ a d ha₄ hd
      have hblob : ∀ b ∈ data.toList ++ metadata.toList, m.cells.length ≤ b ∧ b ≠ r ∧
          b < m₆.cells.length := by
        intro b hb
        rcases List.mem_append.mp hb with hb | hb
        · obtain ⟨hlow, hd⟩ := hdat₅ b (Option.mem_toList.mp hb)
          refine ⟨by have := hk₄.length_le; omega, ?_, hlen₆ ▸ lt_of_dataAt hd⟩
          rintro rfl
          rw [hrd₅] at hd
          cases hd
        · obtain ⟨hlow, hd⟩ := hmeta₃ b (Option.mem_toList.mp hb)
          have hlt := lt_of_dataAt hd
          refine ⟨by omega, ?_, by have := hk₅.length_le; omega⟩
          rintro rfl
          rw [hrd₃] at hd
          cases hd
      refine ⟨m₆, some r, ?_, hbal₆, hs.keeps hk₆ fun a d ha hd => ?_, hk₆,
        by simp [RecordOutcome.IsRecord]⟩
      · simp [recordNew, hm₁, ← hm₂, hb, ← hrlen, hm₃, hm₄, hm₅, hm₆]
      · by_cases har : a = r
        · rw [hdata₆, if_pos har] at hd
          cases hd
          refine ⟨hsf.keeps hk₆, fun b hb => ?_⟩
          obtain ⟨hlow, hne, hlt⟩ := hblob b hb
          exact ⟨hlt, fun d hd => ⟨shardFile, hnew b d hlow hne hd⟩⟩
        · rw [hnew a d ha har hd]
          exact hsf.keeps hk₆

/-- The counts are right for the references that are held, and the fields refer to what they should. -/
structure Sound (m : Objects) (held : List ℕ) : Prop where
  balanced : Balanced m held
  shaped : Shaped m

namespace Sound

variable {m m' : Objects} {held : List ℕ}

/-- The order of the references does not matter. -/
theorem perm {held' : List ℕ} (h : Sound m held) (hp : held.Perm held') : Sound m held' :=
  ⟨h.balanced.perm hp, h.shaped⟩

/-- What is reached is reached after a call that adds to what is held. -/
theorem reached_append {new : List ℕ} {a : ℕ} (h : Sound m held) (h' : Sound m' (new ++ held))
    (hk : Keeps m m') (hr : m.Reached held a) :
    m'.Reached (new ++ held) a ∧ m'.dataAt a = m.dataAt a :=
  h.balanced.reached_of_keeps h'.balanced hk (List.subset_append_right _ _) hr

/-- A shard file that is reached has its reader, which points back to it. -/
theorem implShardFile {self : ℕ} (h : Sound m held) (hr : m.Reached held self)
    (hself : Is m Object.IsShardFile self) : implShardFile m self = some self := by
  obtain ⟨d, hd⟩ := h.balanced.dataAt_of_reached hr
  obtain ⟨fd, impl, rfl⟩ := hself.2 d hd
  obtain ⟨⟨i, rfl, his⟩, -⟩ := h.shaped self _ hd
  have hri : m.Reached held i := hr.owned hd (List.mem_singleton_self i)
  obtain ⟨d', hd'⟩ := h.balanced.dataAt_of_reached hri
  obtain rfl := his.2 d' hd'
  simp only [EosShard.implShardFile, hd, hd']

/-- A record or a blob that is reached has its shard file. -/
theorem shardFileOf {a : ℕ} {d : Object} (h : Sound m held) (hr : m.Reached held a)
    (hd : m.dataAt a = some d) (hkind : d.IsRecord ∨ d.IsBlob) :
    ∃ shardFile, shardFileOf m a = some shardFile ∧ m.Reached held shardFile ∧
      Is m Object.IsShardFile shardFile := by
  have hs := h.shaped a d hd
  rcases hkind with ⟨shardFile, metadata, data, rfl⟩ | ⟨shardFile, rfl⟩
  · exact ⟨shardFile, by simp only [EosShard.shardFileOf, hd],
      hr.owned hd List.mem_cons_self, hs.1⟩
  · exact ⟨shardFile, by simp only [EosShard.shardFileOf, hd],
      hr.owned hd List.mem_cons_self, hs⟩

/-- The construction of a blob. -/
theorem blobNew {shardFile : ℕ} (h : Sound m held) (hr : m.Reached held shardFile)
    (hsf : Is m Object.IsShardFile shardFile) (o : BlobOutcome) :
    ∃ m' b, blobNew m shardFile o = some (m', b) ∧ Sound m' (b.toList ++ held) ∧ Keeps m m' := by
  obtain ⟨m', b, hm', hbal, hk, hfresh, -⟩ := blobNew_spec h.balanced hr o
  refine ⟨m', b, hm', ⟨hbal, h.shaped.keeps hk fun a d ha hd => ?_⟩, hk⟩
  rw [hfresh a d ha hd]
  exact hsf.keeps hk

/-- The construction of a record. -/
theorem recordNew {shardFile : ℕ} (h : Sound m held) (hr : m.Reached held shardFile)
    (hsf : Is m Object.IsShardFile shardFile) (o : RecordOutcome) :
    ∃ m' r, recordNew m shardFile o = some (m', r) ∧ Sound m' (r.toList ++ held) ∧ Keeps m m' ∧
      (r.isSome ↔ o.IsRecord) := by
  obtain ⟨m', r, hm', hbal, hs, hk, hsome⟩ := recordNew_spec h.balanced h.shaped hr hsf o
  exact ⟨m', r, hm', ⟨hbal, hs⟩, hk, hsome⟩

/-- The records of a V2 listing. -/
theorem listLoopV2 {shardFile : ℕ} (h : Sound m held) (hr : m.Reached held shardFile)
    (hsf : Is m Object.IsShardFile shardFile) (os : List RecordOutcome) :
    ∃ m' l, listLoopV2 m shardFile os = some (m', l) ∧ Sound m' (l ++ held) ∧ Keeps m m' := by
  induction os with
  | nil => exact ⟨m, [], rfl, h, Keeps.refl m⟩
  | cons o os ih =>
      obtain ⟨m₁, l, hm₁, h₁, hk₁⟩ := ih
      obtain ⟨hr₁, -⟩ := h.reached_append h₁ hk₁ hr
      obtain ⟨m₂, r, hm₂, h₂, hk₂, -⟩ := h₁.recordNew hr₁ (hsf.keeps hk₁) o
      refine ⟨m₂, r.toList ++ l, ?_, by rwa [List.append_assoc], hk₁.trans hk₂⟩
      simp [EosShard.listLoopV2, hm₁, hm₂]

/-- The records of a V1 listing, and those that are lost: if a record cannot be constructed, all that
come before it. -/
theorem listLoopV1 {shardFile : ℕ} {l : List ℕ} (h : Sound m (l ++ held))
    (hr : m.Reached (l ++ held) shardFile) (hsf : Is m Object.IsShardFile shardFile)
    (os : List RecordOutcome) :
    ∃ m' l' lost, listLoopV1 m shardFile l os = some (m', l', lost) ∧
      Sound m' (l' ++ (lost ++ held)) ∧ Keeps m m' ∧
      (lost = [] ↔ (∀ o ∈ os, o.IsRecord) ∨ (l = [] ∧ ∀ o ∈ os.head?, ¬ o.IsRecord)) := by
  induction os generalizing m l with
  | nil =>
      refine ⟨m, l.reverse, [], rfl, ?_, Keeps.refl m, by simp⟩
      exact h.perm ((List.reverse_perm l).symm.append_right held)
  | cons o os ih =>
      obtain ⟨m₁, r, hm₁, h₁, hk₁, hsome⟩ := h.recordNew hr hsf o
      cases r with
      | none =>
          have ho : ¬ o.IsRecord := fun ho => by cases hsome.mpr ho
          exact ⟨m₁, [], l, by simp [EosShard.listLoopV1, hm₁], h₁, hk₁, by simp [ho]⟩
      | some r =>
          have ho : o.IsRecord := hsome.mp rfl
          obtain ⟨hr₁, -⟩ := h.reached_append h₁ hk₁ hr
          obtain ⟨m₂, l₂, lost, hm₂, h₂, hk₂, hlost⟩ := ih (l := r :: l) h₁ hr₁ (hsf.keeps hk₁)
          refine ⟨m₂, l₂, lost, by simp [EosShard.listLoopV1, hm₁, hm₂], h₂, hk₁.trans hk₂, ?_⟩
          rw [hlost]
          simp [ho]

/-- The blobs of a V2 listing. -/
theorem listBlobsLoopV2 {shardFile : ℕ} {l : List (Option ℕ)}
    (h : Sound m (l.reduceOption ++ held)) (hr : m.Reached (l.reduceOption ++ held) shardFile)
    (hsf : Is m Object.IsShardFile shardFile) (os : List BlobOutcome) :
    ∃ m' l', listBlobsLoopV2 m shardFile l os = some (m', l') ∧
      Sound m' (l'.reduceOption ++ held) ∧ Keeps m m' := by
  induction os generalizing m l with
  | nil => exact ⟨m, l, rfl, h, Keeps.refl m⟩
  | cons o os ih =>
      obtain ⟨m₁, b, hm₁, h₁, hk₁⟩ := h.blobNew hr hsf o
      obtain ⟨hr₁, -⟩ := h.reached_append h₁ hk₁ hr
      have hlist : b.toList ++ (l.reduceOption ++ held) = (b :: l).reduceOption ++ held := by
        cases b <;> simp
      rw [hlist] at h₁ hr₁
      obtain ⟨m₂, l₂, hm₂, h₂, hk₂⟩ := ih h₁ hr₁ (hsf.keeps hk₁)
      exact ⟨m₂, l₂, by simp [EosShard.listBlobsLoopV2, hm₁, hm₂], h₂, hk₁.trans hk₂⟩

/-- A new reference to what is reached. -/
theorem retain {a : ℕ} (h : Sound m held) (hr : m.Reached held a) :
    ∃ m', m.retain a = some m' ∧ Sound m' (a :: held) ∧ Keeps m m' := by
  obtain ⟨d, hd⟩ := h.balanced.dataAt_of_reached hr
  obtain ⟨m', hm', hbal, hlen, hdata⟩ := h.balanced.retain hd
  have hk : Keeps m m' := ⟨hlen.ge, fun b d' _ hd' => by rwa [hdata] at hd'⟩
  exact ⟨m', hm', ⟨hbal, h.shaped.of_length_eq hk hlen⟩, hk⟩

/-- Drop what is held. -/
theorem release {a : ℕ} (h : Sound m (a :: held)) :
    ∃ m', m.release a = some m' ∧ Sound m' held ∧ Keeps m m' := by
  obtain ⟨m', hm', hbal, hlen, hk⟩ := h.balanced.release
  exact ⟨m', hm', ⟨hbal, h.shaped.of_length_eq hk hlen⟩, hk⟩

/-- A new object that takes over references. -/
theorem alloc {d : Object} (h : Sound m (owned d ++ held))
    (hd : ShapeOf (m.alloc d).1 m.cells.length d) :
    Sound (m.alloc d).1 ((m.alloc d).2 :: held) ∧ Keeps m (m.alloc d).1 := by
  refine ⟨⟨h.balanced.alloc, h.shaped.keeps (Keeps.alloc m d) fun a d' ha hd' => ?_⟩,
    Keeps.alloc m d⟩
  rw [dataAt_alloc] at hd'
  split_ifs at hd' with hal
  · cases hd'
    rwa [hal]
  · exact absurd (lt_of_dataAt hd') (not_lt.mpr ha)

/-- A new reference to what a field points to. -/
theorem retainField {o : Option ℕ} (h : Sound m held) (hr : ∀ a ∈ o, m.Reached held a) :
    ∃ m', retainField m o = some m' ∧ Sound m' (o.toList ++ held) ∧ Keeps m m' := by
  cases o with
  | none => exact ⟨m, rfl, h, Keeps.refl m⟩
  | some a => exact h.retain (hr a rfl)

/-- The blobs of a V1 listing. -/
theorem listBlobObjectsV1 {record : ℕ} {d : Object} (h : Sound m held)
    (hr : m.Reached held record) (hd : m.dataAt record = some d) (hkind : d.IsRecord) :
    ∃ m' l, listBlobObjectsV1 m record = some (m', l) ∧ Sound m' (l ++ held) ∧ Keeps m m' := by
  obtain ⟨shardFile, metadata, data, rfl⟩ := hkind
  have howned : ∀ a ∈ data.toList ++ metadata.toList, m.Reached held a := fun a ha =>
    hr.owned hd (List.mem_cons_of_mem _ ha)
  obtain ⟨m₁, hm₁, h₁, hk₁⟩ := h.retainField fun a ha =>
    howned a (List.mem_append_right _ (Option.mem_toList.mpr ha))
  obtain ⟨m₂, hm₂, h₂, hk₂⟩ := h₁.retainField fun a ha =>
    (h.reached_append h₁ hk₁ (howned a (List.mem_append_left _ (Option.mem_toList.mpr ha)))).1
  refine ⟨m₂, data.toList ++ metadata.toList, ?_, by rwa [List.append_assoc], hk₁.trans hk₂⟩
  simp only [EosShard.listBlobObjectsV1, hd]
  simp [hm₁, hm₂]

/-- A stream keeps its blob and its shard file. -/
theorem blobStreamNewForBlob {blob shardFile : ℕ} {d : Object} (h : Sound m held)
    (hr : m.Reached held blob) (hd : m.dataAt blob = some d) (hkind : d.IsBlob)
    (hrs : m.Reached held shardFile) (hsf : Is m Object.IsShardFile shardFile) :
    ∃ m' st, blobStreamNewForBlob m blob shardFile = some (m', st) ∧ Sound m' (st :: held) ∧
      Keeps m m' ∧ m'.dataAt st = some (.blobStream blob shardFile) := by
  have hblob : Is m Object.IsBlob blob := is_of_dataAt hd hkind
  obtain ⟨m₁, hm₁, h₁, hk₁⟩ := h.retain hr
  obtain ⟨hrs₁, -⟩ := h.balanced.reached_of_keeps h₁.balanced hk₁ (List.subset_cons_self _ _) hrs
  obtain ⟨m₂, hm₂, h₂, hk₂⟩ := h₁.retain hrs₁
  have hk := hk₁.trans (hk₂.trans (Keeps.alloc m₂ (.blobStream blob shardFile)))
  -- the stream takes both references over
  obtain ⟨h₃, -⟩ := Sound.alloc (d := .blobStream blob shardFile) (h₂.perm (List.Perm.swap _ _ _))
    ⟨hblob.keeps hk, hsf.keeps hk⟩
  refine ⟨_, _, ?_, h₃, hk, ?_⟩
  · simp [EosShard.blobStreamNewForBlob, hm₁, hm₂]
  · rw [dataAt_alloc]
    exact if_pos rfl

/-- A stream on a blob, with or without a converter. -/
theorem getStreamObject {blob : ℕ} {d : Object} (h : Sound m held) (hr : m.Reached held blob)
    (hd : m.dataAt blob = some d) (hkind : d.IsBlob) (hasOffs compressed : Bool) :
    ∃ m' st, getStreamObject m blob hasOffs compressed = some (m', st) ∧
      Sound m' (st.toList ++ held) ∧ Keeps m m' := by
  obtain ⟨shardFile, hshard, hrs, hsf⟩ := h.shardFileOf hr hd (Or.inr hkind)
  cases hasOffs with
  | false => exact ⟨m, none, by simp [EosShard.getStreamObject, hshard], h, Keeps.refl m⟩
  | true =>
      obtain ⟨m₁, st, hm₁, h₁, hk₁, hst⟩ := h.blobStreamNewForBlob hr hd hkind hrs hsf
      obtain ⟨m₂, hm₂, h₂, hk₂⟩ := h₁.retain (reached_of_mem List.mem_cons_self)
      cases compressed with
      | false =>
          obtain ⟨m₃, hm₃, h₃, hk₃⟩ := h₂.release
          refine ⟨m₃, some st, ?_, h₃, hk₁.trans (hk₂.trans hk₃)⟩
          simp [EosShard.getStreamObject, hshard, hm₁, hm₂, hm₃]
      | true =>
          have his : Is m₂ Object.IsBlobStream st := by
            obtain ⟨-, hst₂⟩ := h₁.balanced.reached_of_keeps h₂.balanced hk₂
              (List.subset_cons_self _ _) (reached_of_mem List.mem_cons_self)
            exact is_of_dataAt (hst₂.trans hst) ⟨blob, shardFile, rfl⟩
          obtain ⟨h₃, hk₃⟩ := Sound.alloc (d := .converter st) h₂ (his.keeps (Keeps.alloc _ _))
          obtain ⟨m₄, hm₄, h₄, hk₄⟩ := (h₃.perm (List.Perm.swap _ _ _)).release
          refine ⟨m₄, some (m₂.alloc (.converter st)).2, ?_, h₄,
            hk₁.trans (hk₂.trans (hk₃.trans hk₄))⟩
          simp [EosShard.getStreamObject, hshard, hm₁, hm₂, hm₄]

/-- A dictionary keeps nothing, and one that is left behind is lost. -/
theorem loadAsDictionaryObject {blob : ℕ} {d : Object} (h : Sound m held)
    (hr : m.Reached held blob) (hd : m.dataAt blob = some d) (hkind : d.IsBlob)
    (o : DictionaryOutcome) :
    ∃ m' a lost, loadAsDictionaryObject m blob false o = some (m', a, lost) ∧
      Sound m' (a.toList ++ (lost.toList ++ held)) ∧ Keeps m m' ∧ (lost = none ↔ o ≠ .leaked) := by
  obtain ⟨shardFile, hshard, hrs, hsf⟩ := h.shardFileOf hr hd (Or.inr hkind)
  obtain ⟨d', hd'⟩ := h.balanced.dataAt_of_reached hrs
  obtain ⟨fd, hfd⟩ := hsf.2 d' hd'
  have hdesc : descriptorOf m shardFile = some fd := descriptorOf_eq_some_iff.mpr ⟨d', hd', hfd⟩
  have his : Is m (Object.HasFd fd) shardFile := is_of_dataAt hd' hfd
  obtain ⟨impl, rfl⟩ := hfd
  have hfirst : FirstOn m fd shardFile := (h.shaped shardFile _ hd').2
  have hk := Keeps.alloc m (.dictionary fd shardFile)
  obtain ⟨h₁, -⟩ := Sound.alloc (d := .dictionary fd shardFile) h ⟨his.keeps hk, hfirst.keeps hk⟩
  cases o with
  | absent =>
      refine ⟨m, none, none, ?_, h, Keeps.refl m, by simp⟩
      simp [EosShard.loadAsDictionaryObject, hshard, hdesc]
  | leaked =>
      refine ⟨_, none, some _, ?_, h₁, hk, by simp⟩
      simp [EosShard.loadAsDictionaryObject, hshard, hdesc]
  | dictionary =>
      refine ⟨_, some _, none, ?_, h₁, hk, by simp⟩
      simp [EosShard.loadAsDictionaryObject, hshard, hdesc]

/-- A shard file with its reader, on a descriptor that was not in use. -/
theorem openShardFile {fd : ℕ} (h : Sound m held) (hfd : shardFileOn m fd = none) :
    ∃ m' a, openShardFile m fd = some (m', a) ∧ Sound m' (a :: held) ∧ Keeps m m' := by
  obtain ⟨self, hself⟩ : ∃ a, a = m.cells.length := ⟨_, rfl⟩
  obtain ⟨m₁, hm₁⟩ : ∃ m₁, m₁ = (m.alloc (.shardFile fd none)).1 := ⟨_, rfl⟩
  obtain ⟨m₂, hm₂⟩ : ∃ m₂, m₂ = (m₁.alloc (.impl self)).1 := ⟨_, rfl⟩
  have hlen₁ : m₁.cells.length = self + 1 := by
    rw [hm₁, hself]
    simp [Memory.alloc]
  have hlen₂ : m₂.cells.length = self + 2 := by
    rw [hm₂]
    simp [Memory.alloc, hlen₁]
  have h₁ : Balanced m₁ (self :: held) := by
    rw [hm₁, hself]
    exact Balanced.alloc (d := Object.shardFile fd none) h.balanced
  have h₂ : Balanced m₂ ((self + 1) :: self :: held) := by
    rw [hm₂, ← hlen₁]
    exact Balanced.alloc (d := Object.impl self) h₁
  have hdata₂ : ∀ a, m₂.dataAt a = if a = self + 1 then some (.impl self) else
      if a = self then some (.shardFile fd none) else m.dataAt a := by
    intro a
    rw [hm₂, dataAt_alloc, hlen₁, hm₁, dataAt_alloc, hself]
  have hsd : m₂.dataAt self = some (.shardFile fd none) := by
    rw [hdata₂, if_neg (by omega), if_pos rfl]
  -- the reference to the reader goes into the field
  have howned : (owned (Object.shardFile fd (some (self + 1))) ++ (self :: held)).Perm
      (owned (Object.shardFile fd none) ++ ((self + 1) :: self :: held)) := List.Perm.refl _
  obtain ⟨m₃, hm₃, h₃, hlen₃, hdata₃⟩ := h₂.update hsd howned
  have hk : Keeps m m₃ := by
    refine ⟨by omega, fun a d ha hd => ?_⟩
    rw [hdata₃, if_neg (by omega), hdata₂, if_neg (by omega), if_neg (by omega)] at hd
    exact hd
  refine ⟨m₃, self, ?_, ⟨h₃, h.shaped.keeps hk fun a d ha hd => ?_⟩, hk⟩
  · have hself₁ : (m.alloc (.shardFile fd none)).2 = self := hself.symm
    have hself₂ : (m₁.alloc (.impl self)).2 = self + 1 := hlen₁
    simp [EosShard.openShardFile, ← hm₁, hself₁, ← hm₂, hself₂, hm₃]
  · rw [hdata₃, hdata₂] at hd
    split_ifs at hd with ha₁ ha₂
    · cases hd
      rw [ha₁]
      refine ⟨⟨self + 1, rfl, by omega, fun d' hd' => ?_⟩, fun b hb => ⟨by omega, fun d' hd' => ?_⟩⟩
      · rw [hdata₃, if_neg (by omega), hdata₂, if_pos rfl] at hd'
        cases hd'
        rfl
      · exact shardFileOn_eq_none_iff.mp hfd b d' (hk.data b d' (by omega) hd')
    · cases hd
      trivial
    · exact absurd (lt_of_dataAt hd) (not_lt.mpr ha)

end Sound

end EosShard
