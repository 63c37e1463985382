import EosShard.Contents
import EosShard.Dictionary.Duplicates

/-!
# Dictionaries that are packed into a shard

A dictionary that the dictionary writer has finished is added to a shard like any other file. The reader
finds the record by its name and the blob in the record, and opens the dictionary in place, at the offset
of the blob in the shard.

* `newDictionary`: a blob as a dictionary.
* `DictionaryReadsBack`: what a client gets from a blob into which a dictionary was packed.
* `V2.packed_reads_back` and `V1.written_packed_reads_back`: **the keys of a packed dictionary are found**
  through the shard, for every run of either writer on top of any file.
-/

namespace EosShard

open EosShard.Found Dictionary

/-- A dictionary at the offset of a blob, which must not be compressed.
Source: `eos-shard-shard-file.c`, `_eos_shard_shard_file_new_dictionary`. -/
def newDictionary (heap : Heap) (fd : Bytes) (blob : EosShardBlob) : Result EosShardDictionary :=
  if isCompressedZlib blob.flags then .error .abort else newForFd heap fd blob.offs

/-- A blob into which a dictionary was packed: it is opened, and every stored key has its value. If it
was compressed, the assertion fails. -/
structure DictionaryReadsBack (f : Bytes) (how : EosShardBlobFlags) (l : ℕ) (es : List Entry)
    (blob : EosShardBlob) : Prop where
  opens : how = .none → ∃ d, (∀ heap, newDictionary heap f blob = .ok d) ∧ Answers d l es
  aborts : how = .compressedZlib → ∀ heap, newDictionary heap f blob = .error .abort

section packed

variable {env : Env} {f : Bytes} {n : ℕ} {params : BloomFilterHeader} {entries : List Entry}
  {writes : List Write} {prev : Bytes} {type : CString} {file : GFile} {how : EosShardBlobFlags}
  {blob : EosShardBlob}

/-- What the dictionary writer leaves behind has a header at least. -/
theorem ne_nil_of_writeDictionary (hparams : params.Ok) (hn : n < 2 ^ 31)
    (hdict : writeDictionary n params entries = .ok writes) (prev : Bytes) :
    applyWrites prev writes ≠ [] := by
  obtain ⟨-, hwritten, -⟩ := writeDictionary_spec hparams hn hdict prev
  have hle : 24 ≤ (applyWrites prev writes).length := hwritten.bounds.1
  intro hnil
  rw [hnil, List.length_nil] at hle
  omega

/-- **The blob of a dictionary file** reads back as the dictionary. -/
theorem BlobReadsBack.dictionary (h : BlobReadsBack env f type file how blob) (hlt : f.length < 2 ^ 63)
    (hparams : params.Ok) (hbits : 0 < params.nBits) (hn : n < 2 ^ 31)
    (hdict : writeDictionary n params entries = .ok writes)
    (hfile : file.contents = applyWrites prev writes)
    (hsize : ∀ e ∈ accepted none entries, e.size ≤ 8190) :
    DictionaryReadsBack f how (ceilSqrt n) (accepted none entries) blob where
  opens hnone := by
    subst hnone
    have hflags : isCompressedZlib blob.flags = false := by
      rw [h.flags]
      rfl
    -- the shard has the dictionary between two other parts
    have hheld : Holds f blob.offs (applyWrites prev writes) := hfile ▸ h.holds
    obtain ⟨pre, post, rfl, hpre⟩ :=
      (holds_iff_exists_append (ne_nil_of_writeDictionary hparams hn hdict prev)).mp hheld
    obtain ⟨d, hopen, hanswers⟩ := answers_of_written hparams hbits hn hdict hsize hlt
    refine ⟨d, fun heap => ?_, hanswers⟩
    rw [newDictionary, hflags, ← hpre]
    exact hopen heap
  aborts hzip heap := by
    subst hzip
    rw [newDictionary, if_pos]
    rw [h.flags]
    rfl

/-- The dictionary of two words as a file. -/
def wordsFile : GFile := ⟨applyWrites [] wordsLog, octetStream, by decide +kernel⟩

end packed

/-! ## In a V2 shard -/

namespace V2

variable {env : Env}

/-- **The keys of a dictionary in a V2 shard are found.** Let the first file that was attached under a
name to a record be a dictionary that the dictionary writer has finished. When the shard is opened, the
record found by its name and the blob looked up there, then the blob opens as a dictionary in which
every accepted key has its value; a compressed one fails the assertion. Scope: as for the round trip of
the shard, an entry has at most 8190 bytes, and the name of the record was used once. -/
theorem packed_reads_back (prev : Bytes) {ops : List (Op env)} {w : WriterV2} {log : List Write}
    (hrun : run writerV2New ops = some (w, log)) (hscope : InScope ops w)
    (hlt : (applyWrites prev (log ++ finish w)).length < 2 ^ 63) {r : ℕ} {hexName name : CString}
    (hr : NamedOnce ops r hexName) (hname : PublicName name) {c : AddBlob env}
    (hfirst : firstAttached ops r name = some c) {n : ℕ} {params : BloomFilterHeader}
    {entries : List Entry} {writes : List Write} {dprev : Bytes} (hparams : params.Ok)
    (hbits : 0 < params.nBits) (hn : n < 2 ^ 31)
    (hdict : writeDictionary n params entries = .ok writes)
    (hfile : c.file.contents = applyWrites dprev writes)
    (hsize : ∀ e ∈ accepted none entries, e.size ≤ 8190) :
    ∃ impl rec blob, (∀ gv heap, detectVersion gv heap (applyWrites prev (log ++ finish w)) =
        .ok (.v2 impl)) ∧
      findRecordByRawName impl (rawNameOf hexName) = some rec ∧
      blobOfName impl rec name = some blob ∧
      DictionaryReadsBack (applyWrites prev (log ++ finish w)) c.flags (ceilSqrt n)
        (accepted none entries) blob := by
  have hne : c.file.contents ≠ [] := by
    rw [hfile]
    exact ne_nil_of_writeDictionary hparams hn hdict dprev
  obtain ⟨rec, blob, hat⟩ := hscope.attached prev hrun hr hname hfirst hne
  exact ⟨_, rec, blob, (hscope.written prev hrun).detectVersion, hat.find, hat.lookup,
    hat.readsBack.dictionary hlt hparams hbits hn hdict hfile hsize⟩

/-- The dictionary of two words, attached to one of two records under a name of its own. -/
def packedCall : AddBlob smallEnv :=
  smallCall ⟨ascii "words", by decide⟩ wordsFile .none (by decide +kernel) (by decide +kernel)

/-- Two records, and two blobs for the second one. -/
def packedRun : List (Op smallEnv) :=
  [.addRecord lastName, .addRecord digitsName, .addBlob dataCall, .addBlob packedCall,
    .addBlobToRecord 1 0, .addBlobToRecord 1 1]

/-- The words are found, on top of a file of eight bytes. -/
theorem packed_reads_back_words : ∃ w log impl rec blob, run writerV2New packedRun = some (w, log) ∧
    (∀ gv heap, detectVersion gv heap (applyWrites (List.replicate 8 255) (log ++ finish w)) =
      .ok (.v2 impl)) ∧
    findRecordByRawName impl (rawNameOf digitsName) = some rec ∧
    blobOfName impl rec packedCall.name = some blob ∧
    DictionaryReadsBack (applyWrites (List.replicate 8 255) (log ++ finish w)) .none (ceilSqrt 2)
      (accepted none wordsEntries) blob := by
  have hend : ((run writerV2New packedRun).map fun p => decide (shardEnd p.1 < 2 ^ 32 ∧
      (applyWrites (List.replicate 8 255) (p.2 ++ finish p.1)).length < 2 ^ 63)) = some true := by
    decide +kernel
  obtain ⟨⟨w, log⟩, hrun, hlt⟩ := Option.map_eq_some_iff.mp hend
  obtain ⟨hend, hlt⟩ := of_decide_eq_true hlt
  have hscope : InScope packedRun w := by
    refine ⟨hend, by decide, fun r => (List.length_filterMap_le _ _).trans (by decide), by decide, ?_⟩
    unfold CollisionFree
    decide +kernel
  have hnames : recordNames packedRun = [lastName, digitsName] := rfl
  have honce : NamedOnce packedRun 1 digitsName := by
    rw [NamedOnce, hnames]
    refine ⟨rfl, fun r hexName hr hraw => ?_⟩
    have hlt : r < 2 := (List.getElem?_eq_some_iff.mp hr).1
    interval_cases r
    · cases hr
      exact absurd hraw (by decide +kernel)
    · rfl
  have hname : packedCall.name.chars.head? ≠ some 36 := by decide
  have hfirst : firstAttached packedRun 1 packedCall.name = some packedCall := rfl
  obtain ⟨impl, rec, blob, hread⟩ := packed_reads_back (List.replicate 8 255) hrun hscope hlt honce
    (Or.inr (Or.inr hname)) hfirst wordsParams_ok (by decide) (by decide) writeDictionary_words rfl
    (by decide)
  exact ⟨w, log, impl, rec, blob, hrun, hread⟩

end V2

/-! ## In a V1 shard -/

namespace V1

variable {env : Env}

/-- **The keys of a dictionary in a V1 shard are found**: as in a V2 shard, where the dictionary is the
file that was set last as the metadata or the data of a record. -/
theorem written_packed_reads_back {gv : GVariantFormat} (hgv : gv.Lawful) (prev : Bytes)
    {ops : List (Op env)}
    {w w' : WriterV1 env} {log : List Write} (hrun : run writerV1New ops = some w)
    (hwrite : writeToFd gv w = some (w', log)) (hscope : InScope ops)
    (hlt : (applyWrites prev log).length < 2 ^ 63) {r : CString × List (AddBlob env)}
    (hr : NamedOnce ops r) {which : WriterV1Blob} {c : AddBlob env}
    (hlast : lastSet which r.2 = some c) {n : ℕ} {params : BloomFilterHeader} {entries : List Entry}
    {writes : List Write} {dprev : Bytes} (hparams : params.Ok) (hbits : 0 < params.nBits)
    (hn : n < 2 ^ 31) (hdict : writeDictionary n params entries = .ok writes)
    (hfile : c.file.contents = applyWrites dprev writes)
    (hsize : ∀ e ∈ accepted none entries, e.size ≤ 8190) :
    ∃ impl rec blob, (∀ heap, detectVersion gv heap (applyWrites prev log) = .ok (.v1 impl)) ∧
      findRecordByRawName impl (rawNameOf r.1) = some rec ∧ slotBlob rec which = some blob ∧
      DictionaryReadsBack (applyWrites prev log) c.flags (ceilSqrt n) (accepted none entries) blob := by
  have h := finished_of_run hgv prev hrun hwrite hscope.utf8
  obtain ⟨rec, blob, hat⟩ := h.attached hscope hr hlast
  exact ⟨_, rec, blob, h.detectVersion hgv, hat.find, hat.lookup,
    hat.readsBack.dictionary hlt hparams hbits hn hdict hfile hsize⟩

/-- The dictionary of two words as the metadata of one of two records. -/
def packedCall : AddBlob smallEnv := metadataCall wordsFile (by decide +kernel)

/-- Two records, the second one with the dictionary. -/
def packedRun : List (Op smallEnv) :=
  [.addRecord lastName, .addRecord digitsName, .addBlob packedCall]

/-- The words are found, on top of a file of eight bytes. -/
theorem written_packed_reads_back_metadata :
    ∃ w w' log impl rec blob, run writerV1New packedRun = some w ∧
      writeToFd gvariant w = some (w', log) ∧
      (∀ heap, detectVersion gvariant heap (applyWrites (List.replicate 8 255) log) =
        .ok (.v1 impl)) ∧
      findRecordByRawName impl (rawNameOf digitsName) = some rec ∧
      slotBlob rec .metadata = some blob ∧
      DictionaryReadsBack (applyWrites (List.replicate 8 255) log) .none (ceilSqrt 2)
        (accepted none wordsEntries) blob := by
  have hsome : ((run writerV1New packedRun).bind fun w => (writeToFd gvariant w).map fun p =>
      decide ((applyWrites (List.replicate 8 255) p.2).length < 2 ^ 63)) = some true := by
    decide +kernel
  obtain ⟨w, hrun, hmap⟩ := Option.bind_eq_some_iff.mp hsome
  obtain ⟨⟨w', log⟩, hwrite, hlt⟩ := Option.map_eq_some_iff.mp hmap
  have hcall : ∀ c, Op.addBlob c ∈ packedRun → c = packedCall := by
    intro c hc
    simpa [packedRun] using hc
  have hscope : InScope packedRun := by
    constructor
    · intro c hc
      rw [hcall c hc]
      decide
    · intro c hc
      rw [hcall c hc]
      decide +kernel
  have hsections : (sections packedRun).2 = [(lastName, []), (digitsName, [packedCall])] := rfl
  have honce : NamedOnce packedRun (digitsName, [packedCall]) := by
    rw [NamedOnce, hsections]
    refine ⟨by simp, fun r hr hraw => ?_⟩
    rw [List.mem_cons, List.mem_singleton] at hr
    rcases hr with rfl | rfl
    · exact absurd hraw (by decide +kernel)
    · rfl
  have hlast : lastSet .metadata [packedCall] = some packedCall := rfl
  obtain ⟨impl, rec, blob, hread⟩ := written_packed_reads_back gvariant_lawful (List.replicate 8 255)
    hrun hwrite hscope (of_decide_eq_true hlt) honce hlast wordsParams_ok (by decide) (by decide)
    writeDictionary_words rfl (by decide)
  exact ⟨w, w', log, impl, rec, blob, hrun, hwrite, hread⟩

end V1

end EosShard
