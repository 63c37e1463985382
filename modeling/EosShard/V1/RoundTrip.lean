import EosShard.V1.GVariant
import EosShard.V1.Writer
import EosShard.V1.Traversal
import EosShard.ShardFile

/-!
# The V1 round trip

A V1 shard reads back as it was written.

* `sections ops`: the records of a run in terms of the calls alone, each with the `add_blob` calls
  between it and the next; a later call for the same blob wins (`lastSet`). The writer's array is made
  of these (`entries_of_run`).
* The copy loop only moves forward, so what it has written stays (`writeBlobs_spec`); filling in the
  offsets does not change the size of the header, which is why it still fits in front of the data
  (`writeToFd_spec`).
* `written_reads_back`: the open, the listing and the search, for every run and every previous contents
  of the file. `writeToFd_isSome_iff` says when there is a shard at all.
-/

namespace EosShard.V1

open EosShard.Found

variable {env : Env}

/-! ## The records of a run -/

/-- The calls up to the first `add_record`, and the records, each with the `add_blob` calls behind it. -/
def sections : List (Op env) → List (AddBlob env) × List (CString × List (AddBlob env))
  | [] => ([], [])
  | .addBlob c :: ops => (c :: (sections ops).1, (sections ops).2)
  | .addRecord hexName :: ops => ([], (hexName, (sections ops).1) :: (sections ops).2)

/-- The call that has set a blob last. -/
def lastSet (which : WriterV1Blob) (cs : List (AddBlob env)) : Option (AddBlob env) :=
  (cs.filter fun c => c.whichBlob = which).getLast?

/-- The entry of a blob that is not copied yet. -/
def blobEntryOf : Option (AddBlob env) → WriterBlobEntry env
  | none => blobEntryInit
  | some c => blobEntryInit.set c

/-- The entry of a record whose blobs are not copied yet. -/
def entryOf (r : CString × List (AddBlob env)) : WriterRecordEntry env :=
  ⟨rawNameOf r.1, blobEntryOf (lastSet .metadata r.2), blobEntryOf (lastSet .data r.2)⟩

@[simp] theorem entryOf_rawName (r : CString × List (AddBlob env)) : (entryOf r).rawName = rawNameOf r.1 :=
  rfl

/-- What is set last counts. -/
theorem blobEntryOf_set (o : Option (AddBlob env)) (c : AddBlob env) :
    (blobEntryOf o).set c = blobEntryOf (some c) := by
  cases o <;> rfl

/-- One more call sets the blob that it is for. -/
theorem lastSet_concat (which : WriterV1Blob) (cs : List (AddBlob env)) (c : AddBlob env) :
    lastSet which (cs ++ [c]) = if c.whichBlob = which then some c else lastSet which cs := by
  unfold lastSet
  by_cases h : c.whichBlob = which
  · simp [h]
  · simp [h]

/-- Setting a blob is one more call in the section of the record. -/
theorem setBlob_entryOf (hexName : CString) (cs : List (AddBlob env)) (c : AddBlob env) :
    (entryOf (hexName, cs)).setBlob c = entryOf (hexName, cs ++ [c]) := by
  unfold WriterRecordEntry.setBlob entryOf
  simp only [lastSet_concat]
  cases c.whichBlob <;> simp [blobEntryOf_set]

/-- The calls behind a record. -/
theorem entries_of_run_behind {es : List (WriterRecordEntry env)} {hexName : CString}
    {cs : List (AddBlob env)} {ops : List (Op env)} {w : WriterV1 env}
    (h : run ⟨es ++ [entryOf (hexName, cs)]⟩ ops = some w) :
    w.entries = es ++ entryOf (hexName, cs ++ (sections ops).1) :: (sections ops).2.map entryOf := by
  induction ops generalizing es hexName cs with
  | nil =>
      cases h
      simp [sections]
  | cons op ops ih =>
      rw [run, Option.bind_eq_bind, Option.bind_eq_some_iff] at h
      obtain ⟨w₁, hstep, hrun⟩ := h
      cases op with
      | addRecord hexName' =>
          cases hstep
          have hbehind : run ⟨es ++ [entryOf (hexName, cs)] ++ [entryOf (hexName', [])]⟩ ops = some w :=
            hrun
          rw [ih hbehind, List.append_assoc]
          simp [sections]
      | addBlob c =>
          have hw₁ : w₁ = ⟨es ++ [entryOf (hexName, cs ++ [c])]⟩ := by
            simp only [step, addBlob, List.append_eq_nil_iff, List.cons_ne_self, and_false, if_false,
              Option.some.injEq] at hstep
            rw [← hstep, ← setBlob_entryOf, List.length_append, List.length_singleton,
              Nat.add_sub_cancel, modify_append_length]
          rw [hw₁] at hrun
          rw [ih hrun, List.append_assoc]
          rfl

/-- **The entries of every run** are its records, in order. -/
theorem entries_of_run {ops : List (Op env)} {w : WriterV1 env} (h : run writerV1New ops = some w) :
    w.entries = (sections ops).2.map entryOf := by
  cases ops with
  | nil =>
      cases h
      rfl
  | cons op ops =>
      cases op with
      | addRecord hexName =>
          have hbehind : run ⟨[] ++ [entryOf (hexName, [])]⟩ ops = some w := h
          exact entries_of_run_behind hbehind
      | addBlob c => cases h

/-! ## The copy loop -/

/-- An entry whose data is at `offs`. -/
def WriterBlobEntry.copied (b : WriterBlobEntry env) (offs : ℕ) : WriterBlobEntry env :=
  match b.file with
  | none => b
  | some c => { b with offs := offs, checksum := env.sha256 c.stored,
                       size := uint64OfInt (asInt32 c.stored.length) }

/-- The data of the entry `b` has been copied to an extent between `lo` and `hi`, which makes it
`b'`. -/
def BlobWritten (f : Bytes) (lo hi : ℕ) (b b' : WriterBlobEntry env) : Prop :=
  ∃ offs, b' = b.copied offs ∧ ∀ c, b.file = some c →
    lo ≤ offs ∧ offs + c.stored.length ≤ hi ∧ Holds f offs c.stored

/-- Both blobs of a record have been copied. -/
structure RecordWritten (f : Bytes) (lo hi : ℕ) (e e' : WriterRecordEntry env) : Prop where
  rawName : e'.rawName = e.rawName
  metadata : BlobWritten f lo hi e.metadata e'.metadata
  data : BlobWritten f lo hi e.data e'.data

/-- A blob that is written within bounds is written within wider ones. -/
theorem BlobWritten.mono {f : Bytes} {lo lo' hi hi' : ℕ} {b b' : WriterBlobEntry env}
    (h : BlobWritten f lo hi b b') (hlo : lo' ≤ lo) (hhi : hi ≤ hi') :
    BlobWritten f lo' hi' b b' := by
  obtain ⟨offs, hb, hc⟩ := h
  refine ⟨offs, hb, fun c h => ?_⟩
  obtain ⟨h₁, h₂, h₃⟩ := hc c h
  exact ⟨hlo.trans h₁, h₂.trans hhi, h₃⟩

/-- Writes that miss the region of the data keep what has been copied. -/
theorem BlobWritten.applyWrites {f : Bytes} {lo hi : ℕ} {b b' : WriterBlobEntry env}
    (h : BlobWritten f lo hi b b') {ws : List Write}
    (hws : ∀ x ∈ ws, hi ≤ x.off ∨ x.off + x.data.length ≤ lo) :
    BlobWritten (Found.applyWrites f ws) lo hi b b' := by
  obtain ⟨offs, hb, hc⟩ := h
  refine ⟨offs, hb, fun c h => ?_⟩
  obtain ⟨h₁, h₂, h₃⟩ := hc c h
  exact ⟨h₁, h₂, h₃.applyWrites fun x hx => (hws x hx).imp (h₂.trans ·) (·.trans h₁)⟩

/-- A record that is written within bounds is written within wider ones. -/
theorem RecordWritten.mono {f : Bytes} {lo lo' hi hi' : ℕ} {e e' : WriterRecordEntry env}
    (h : RecordWritten f lo hi e e') (hlo : lo' ≤ lo) (hhi : hi ≤ hi') :
    RecordWritten f lo' hi' e e' :=
  ⟨h.rawName, h.metadata.mono hlo hhi, h.data.mono hlo hhi⟩

/-- Writes outside of its bounds leave a record as it is. -/
theorem RecordWritten.applyWrites {f : Bytes} {lo hi : ℕ} {e e' : WriterRecordEntry env}
    (h : RecordWritten f lo hi e e') {ws : List Write}
    (hws : ∀ x ∈ ws, hi ≤ x.off ∨ x.off + x.data.length ≤ lo) :
    RecordWritten (Found.applyWrites f ws) lo hi e e' :=
  ⟨h.rawName, h.metadata.applyWrites hws, h.data.applyWrites hws⟩

/-- Where the descriptor stands after a blob. -/
def blobEnd (pos : ℕ) (b : WriterBlobEntry env) : ℕ :=
  match b.file with
  | none => pos
  | some c => align pos + c.stored.length

/-- Where the descriptor stands after all blobs of the records. -/
def blobsEnd (pos : ℕ) (es : List (WriterRecordEntry env)) : ℕ :=
  es.foldl (fun pos e => blobEnd (blobEnd pos e.metadata) e.data) pos

/-- An aligned position does not lie in front of the position. -/
theorem le_align (n : ℕ) : n ≤ align n := le_alignUp (by norm_num) n

/-- A blob ends behind its start. -/
theorem le_blobEnd (pos : ℕ) (b : WriterBlobEntry env) : pos ≤ blobEnd pos b := by
  unfold blobEnd
  cases b.file with
  | none => exact le_refl _
  | some c => exact (le_align pos).trans (Nat.le_add_right _ _)

/-- The blobs end behind their start. -/
theorem le_blobsEnd (pos : ℕ) (es : List (WriterRecordEntry env)) : pos ≤ blobsEnd pos es := by
  induction es generalizing pos with
  | nil => exact le_refl _
  | cons e es ih => exact (le_blobEnd _ _).trans ((le_blobEnd _ _).trans (ih _))

/-- **What copying one blob does**, if it does not leave the range of `off_t`. -/
theorem writeBlob_spec (pos : ℕ) (b : WriterBlobEntry env) (h : blobEnd pos b < 2 ^ 63) :
    ∃ b' ws, writeBlob pos b = some (b', ws, blobEnd pos b) ∧ WritesFrom pos ws ∧
      ∀ f, BlobWritten (applyWrites f ws) pos (blobEnd pos b) b b' := by
  unfold writeBlob blobEnd at *
  cases hfile : b.file with
  | none =>
      refine ⟨b, [], rfl, List.forall_mem_nil _, fun f => ⟨0, ?_, fun c hc => ?_⟩⟩
      · rw [WriterBlobEntry.copied, hfile]
      · rw [hfile] at hc
        cases hc
  | some c =>
      simp only [hfile] at h
      simp only [h, if_true]
      refine ⟨_, _, rfl, (writesFrom_seqWrites _ _).mono (le_align pos),
        fun f => ⟨align pos, ?_, fun c' hc' => ?_⟩⟩
      · rw [WriterBlobEntry.copied, hfile]
      · rw [hfile] at hc'
        cases hc'
        have hholds := holds_applyWrites_seqWrites f (align pos) c.reads
        rw [c.reads_flatten] at hholds
        exact ⟨le_align pos, le_refl _, hholds⟩

/-- A blob that would end beyond `off_t` is not written. -/
theorem writeBlob_eq_none {pos : ℕ} {b : WriterBlobEntry env} (hpos : pos < 2 ^ 63)
    (h : ¬ blobEnd pos b < 2 ^ 63) : writeBlob pos b = none := by
  unfold writeBlob blobEnd at *
  cases hfile : b.file with
  | none =>
      rw [hfile] at h
      exact absurd hpos h
  | some c =>
      simp only [hfile] at h
      simp only [h, if_false]

/-- **What the copy loop does**: the position only moves forward, and all data stays where it was
put. -/
theorem writeBlobs_spec {pos : ℕ} {es : List (WriterRecordEntry env)}
    (h : blobsEnd pos es < 2 ^ 63) :
    ∃ es' ws, writeBlobs pos es = some (es', ws, blobsEnd pos es) ∧ WritesFrom pos ws ∧
      ∀ f, List.Forall₂ (RecordWritten (applyWrites f ws) pos (blobsEnd pos es)) es es' := by
  induction es generalizing pos with
  | nil => exact ⟨[], [], rfl, List.forall_mem_nil _, fun f => .nil⟩
  | cons e es ih =>
      have hle := le_blobsEnd (blobEnd (blobEnd pos e.metadata) e.data) es
      have h₁ := le_blobEnd pos e.metadata
      have h₂ := le_blobEnd (blobEnd pos e.metadata) e.data
      have hend : blobsEnd pos (e :: es) = blobsEnd (blobEnd (blobEnd pos e.metadata) e.data) es :=
        rfl
      rw [hend] at h ⊢
      obtain ⟨m, ws₁, hm, hf₁, hw₁⟩ := writeBlob_spec pos e.metadata (by omega)
      obtain ⟨d, ws₂, hd, hf₂, hw₂⟩ :=
        writeBlob_spec (blobEnd pos e.metadata) e.data (by omega)
      obtain ⟨es', ws₃, hes, hf₃, hw₃⟩ := ih h
      refine ⟨⟨e.rawName, m, d⟩ :: es', ws₁ ++ (ws₂ ++ ws₃), ?_, ?_, fun f => ?_⟩
      · rw [writeBlobs, hm, Option.bind_eq_bind, Option.bind_some]
        simp only [hd, Option.bind_eq_bind, Option.bind_some, hes]
        rfl
      · exact hf₁.append ((hf₂.mono h₁).append (hf₃.mono (h₁.trans h₂)))
      · rw [applyWrites_append, applyWrites_append]
        refine .cons ⟨rfl, ?_, ?_⟩ ((hw₃ _).imp fun _ _ hr => hr.mono (h₁.trans h₂) (le_refl _))
        · refine BlobWritten.mono ?_ (le_refl _) (h₂.trans hle)
          exact ((hw₁ f).applyWrites fun x hx => Or.inl (hf₂ x hx)).applyWrites
            fun x hx => Or.inl (h₂.trans (hf₃ x hx))
        · exact ((hw₂ _).applyWrites fun x hx => Or.inl (hf₃ x hx)).mono h₁ hle

/-- The blobs are written exactly if they end within `off_t`. -/
theorem writeBlobs_isSome_iff {pos : ℕ} (hpos : pos < 2 ^ 63) (es : List (WriterRecordEntry env)) :
    (writeBlobs pos es).isSome = true ↔ blobsEnd pos es < 2 ^ 63 := by
  constructor
  · intro h
    induction es generalizing pos with
    | nil => exact hpos
    | cons e es ih =>
        by_cases h₁ : blobEnd pos e.metadata < 2 ^ 63
        · by_cases h₂ : blobEnd (blobEnd pos e.metadata) e.data < 2 ^ 63
          · refine ih h₂ ?_
            obtain ⟨m, ws₁, hm, -⟩ := writeBlob_spec _ _ h₁
            obtain ⟨d, ws₂, hd, -⟩ := writeBlob_spec _ _ h₂
            simp only [writeBlobs, hm, hd, Option.bind_eq_bind, Option.bind_some,
              Option.isSome_bind, Option.pure_def, Option.isSome_some] at h
            simpa using h
          · obtain ⟨m, ws₁, hm, -⟩ := writeBlob_spec _ _ h₁
            simp [writeBlobs, hm, writeBlob_eq_none h₁ h₂] at h
        · simp [writeBlobs, writeBlob_eq_none hpos h₁] at h
  · intro h
    obtain ⟨es', ws, hes, -⟩ := writeBlobs_spec h
    rw [hes]
    rfl

/-! ## The whole file -/

/-- Filling in offsets, sizes and checksums does not change the shape of the header. -/
theorem shape_headerEntryVariant {f : Bytes} {lo hi : ℕ} {es es' : List (WriterRecordEntry env)}
    (h : List.Forall₂ (RecordWritten f lo hi) es es') :
    (headerEntryVariant es).shape = (headerEntryVariant es').shape := by
  have hblob : ∀ b b' : WriterBlobEntry env, BlobWritten f lo hi b b' →
      (blobEntryVariant b).shape = (blobEntryVariant b').shape := by
    rintro b b' ⟨offs, rfl, -⟩
    unfold WriterBlobEntry.copied
    cases b.file with
    | none => rfl
    | some c =>
        simp only [blobEntryVariant, BlobEntry.shape, List.Vector.toList_length]
  refine Prod.ext rfl ?_
  simp only [HeaderEntry.shape, headerEntryVariant, List.map_map]
  induction h with
  | nil => rfl
  | cons hr _ ih =>
      rw [List.map_cons, List.map_cons, ih]
      refine congrArg (· :: _) ?_
      simp only [Function.comp_apply, RecordEntry.shape, recordEntryVariant, hr.rawName,
        hblob _ _ hr.metadata, hblob _ _ hr.data]

/-- The size of the header, as the first serialisation tells it. -/
def headerSize (gv : GVariantFormat) (w : WriterV1 env) : ℕ :=
  (gv.serialise (headerEntryVariant (w.entries.insertionSort rawNameLe))).length

/-- The process survives `writeToFd`: the counter of the loop and the offsets stay in their ranges. -/
def Fits (gv : GVariantFormat) (w : WriterV1 env) : Prop :=
  w.entries.length ≤ 2 ^ 31 ∧
    blobsEnd (align (8 + headerSize gv w)) (w.entries.insertionSort rawNameLe) < 2 ^ 63

/-- The writer goes through exactly if what it writes fits. -/
theorem writeToFd_isSome_iff (gv : GVariantFormat) (w : WriterV1 env) :
    (writeToFd gv w).isSome = true ↔ Fits gv w := by
  unfold writeToFd Fits
  simp only [List.length_insertionSort]
  rw [← headerSize]
  by_cases hpos : align (8 + headerSize gv w) < 2 ^ 63
  · rw [← writeBlobs_isSome_iff hpos]
    by_cases hlen : w.entries.length ≤ 2 ^ 31
    · rw [if_pos ⟨hlen, hpos⟩]
      cases writeBlobs (align (8 + headerSize gv w)) (w.entries.insertionSort rawNameLe) with
      | none => exact iff_of_false Bool.false_ne_true fun h => Bool.false_ne_true h.2
      | some r => exact iff_of_true rfl ⟨hlen, rfl⟩
    · rw [if_neg fun h => hlen h.1]
      exact iff_of_false Bool.false_ne_true fun h => hlen h.1
  · have hend := le_blobsEnd (align (8 + headerSize gv w)) (w.entries.insertionSort rawNameLe)
    rw [if_neg fun h => hpos h.2]
    simp only [Option.isSome_none, Bool.false_eq_true, false_iff]
    omega

/-- A finished shard: the length, the header with the offsets filled in, and the data behind it. -/
structure Written (gv : GVariantFormat) (f : Bytes) (w w' : WriterV1 env) : Prop where
  size : Holds f 0 (le 8 (headerSize gv w))
  header : Holds f 8 (gv.serialise (headerEntryVariant w'.entries))
  length_header : (gv.serialise (headerEntryVariant w'.entries)).length = headerSize gv w
  headerSize_lt : headerSize gv w < 2 ^ 63
  length_le : w'.entries.length ≤ 2 ^ 31
  records : List.Forall₂ (RecordWritten f 64 (2 ^ 63 - 1)) (w.entries.insertionSort rawNameLe)
    w'.entries

/-- **What `writeToFd` leaves behind**, whatever the file contained before. -/
theorem writeToFd_spec {gv : GVariantFormat} (hgv : gv.Lawful) {w w' : WriterV1 env}
    {log : List Write} (h : writeToFd gv w = some (w', log)) :
    (∃ ws, WritesFrom 64 ws ∧ log = ws ++ [⟨0, le 8 (headerSize gv w)⟩,
      ⟨8, gv.serialise (headerEntryVariant w'.entries)⟩]) ∧
    ∀ prev, Written gv (applyWrites prev log) w w' := by
  obtain ⟨hlen, hend⟩ := (writeToFd_isSome_iff gv w).mp (by rw [h]; rfl)
  have hpos := le_blobsEnd (align (8 + headerSize gv w)) (w.entries.insertionSort rawNameLe)
  have hle := le_align (8 + headerSize gv w)
  -- the data starts behind the place of the header, at a multiple of 64
  have h64 : 64 ≤ align (8 + headerSize gv w) := by
    have hdvd : 64 ∣ align (8 + headerSize gv w) := dvd_alignUp 64 _
    exact Nat.le_of_dvd (by omega) hdvd
  obtain ⟨es', ws, hes, hfrom, hrec⟩ := writeBlobs_spec hend
  have hw' : writeToFd gv w = some (⟨es'⟩, ws ++ [⟨0, le 8 (headerSize gv w)⟩,
      ⟨8, gv.serialise (headerEntryVariant es')⟩]) := by
    unfold writeToFd
    simp only [List.length_insertionSort]
    rw [← headerSize, if_pos ⟨hlen, by omega⟩, hes]
    rfl
  rw [hw'] at h
  cases h
  have hsame : (gv.serialise (headerEntryVariant es')).length = headerSize gv w :=
    hgv.length_serialise _ _ (shape_headerEntryVariant (hrec [])).symm
  refine ⟨⟨ws, hfrom.mono h64, rfl⟩, fun prev => ?_⟩
  rw [applyWrites_append]
  have hafter : ∀ x ∈ ([⟨0, le 8 (headerSize gv w)⟩,
      ⟨8, gv.serialise (headerEntryVariant es')⟩] : List Write),
      x.off + x.data.length ≤ align (8 + headerSize gv w) := by
    intro x hx
    simp only [List.mem_cons, List.not_mem_nil, or_false] at hx
    rcases hx with rfl | rfl
    · simp only [length_le]
      omega
    · simp only [hsame]
      omega
  refine ⟨?_, ?_, hsame, by omega, ?_, ?_⟩
  · exact (holds_pwrite _ _ 0).pwrite (Or.inl (by rw [length_le]))
  · exact holds_pwrite _ _ 8
  · rw [← (hrec []).length_eq, List.length_insertionSort]
    exact hlen
  · exact (hrec prev).imp fun _ _ hr => (hr.applyWrites fun x hx => Or.inr (hafter x hx)).mono h64
      (by omega)

/-! ## Opening -/

/-- A file that starts with a length and the V1 magic is taken for a V1 shard. -/
theorem detectVersion_of_v1 {gv : GVariantFormat} {heap : Heap} {f : Bytes} {n : ℕ}
    (hsize : Holds f 0 (le 8 n)) (hmagic : Holds f 8 magic.toBytes) :
    detectVersion gv heap f = (implV1New gv heap f).map .v1 := by
  have hbuf : slice f 0 16 = le 8 n ++ magic.chars ++ [0] := by
    rw [show (16 : ℕ) = 8 + 8 from rfl, slice_add, hsize.slice_eq (by rw [length_le]), Nat.zero_add,
      hmagic.slice_eq (n := 8) rfl, List.append_assoc]
    rfl
  have hlen : (slice f 0 16).length = 16 := by
    rw [hbuf]
    simp [magic, ascii]
  have hmem : memmem (slice f 0 16) magic.chars = true := by
    rw [memmem, decide_eq_true_iff, hbuf]
    exact ⟨_, _, rfl⟩
  unfold detectVersion
  simp only [hlen, hmem, ne_eq, not_true_eq_false, if_false, if_true]

/-- A file with the header of the writer opens. -/
theorem implV1New_of_header {gv : GVariantFormat} (hgv : gv.Lawful) {f : Bytes}
    {es : List (WriterRecordEntry env)}
    (hsize : Holds f 0 (le 8 (gv.serialise (headerEntryVariant es)).length))
    (hheader : Holds f 8 (gv.serialise (headerEntryVariant es)))
    (hheaderSize : (gv.serialise (headerEntryVariant es)).length < 2 ^ 63)
    (hwf : (headerEntryVariant es).WellFormed) (heap : Heap) :
    implV1New gv heap f = .ok ⟨f, headerEntryVariant es⟩ := by
  have hn : leNat (slice f 0 8) = (gv.serialise (headerEntryVariant es)).length :=
    hsize.leNat_slice rfl (hheaderSize.trans (by norm_num))
  have hslice : slice f 8 (leNat (slice f 0 8)) = gv.serialise (headerEntryVariant es) := by
    rw [hn, hheader.slice_eq rfl]
  have hdata : overlay (heap (leNat (slice f 0 8))).toList (slice f 8 (leNat (slice f 0 8))) =
      gv.serialise (headerEntryVariant es) := by
    rw [hslice]
    exact overlay_full (by rw [List.Vector.toList_length, hn])
  have hlt : ¬ 2 ^ 63 ≤ leNat (slice f 0 8) := by
    rw [hn]
    exact not_le.mpr hheaderSize
  rw [V1.implV1New]
  simp only [hlt, hdata, hgv.deserialise_serialise _ hwf hheaderSize, if_false]
  exact if_neg fun hne => hne rfl

/-- It is recognised first. -/
theorem detectVersion_of_header {gv : GVariantFormat} (hgv : gv.Lawful) {f : Bytes}
    {es : List (WriterRecordEntry env)}
    (hsize : Holds f 0 (le 8 (gv.serialise (headerEntryVariant es)).length))
    (hheader : Holds f 8 (gv.serialise (headerEntryVariant es)))
    (hheaderSize : (gv.serialise (headerEntryVariant es)).length < 2 ^ 63)
    (hwf : (headerEntryVariant es).WellFormed) (heap : Heap) :
    detectVersion gv heap f = .ok (.v1 ⟨f, headerEntryVariant es⟩) := by
  have hmagic := hgv.holds_magic (headerEntryVariant es)
  have hin := hheader.slice (hmagic.le_length (CString.toBytes_ne_nil _))
  rw [hmagic.slice_eq rfl] at hin
  rw [detectVersion_of_v1 hsize hin, implV1New_of_header hgv hsize hheader hheaderSize hwf heap]
  rfl

/-- A blob entry the header can hold. -/
theorem wellFormed_blobEntryVariant {f : Bytes} {o : Option (AddBlob env)}
    {b' : WriterBlobEntry env} (h : BlobWritten f 64 (2 ^ 63 - 1) (blobEntryOf o) b')
    (hutf8 : ∀ c, o = some c → utf8Validate c.type.chars = true) :
    (blobEntryVariant b').WellFormed := by
  obtain ⟨offs, rfl, hc⟩ := h
  cases o with
  | none =>
      have hzero : ∀ n, (0 : ℕ) < 2 ^ n := fun n => Nat.two_pow_pos n
      exact ⟨rfl, hzero 32, hzero 64, hzero 64, hzero 64⟩
  | some c =>
      have hoffs := (hc c rfl).2.1
      have hsize := c.file.size_lt
      refine ⟨hutf8 c rfl, ?_, ?_, ?_, ?_⟩
      · show c.flags.toNat < 2 ^ 32
        cases c.flags <;> decide
      · show offs < 2 ^ 64
        omega
      · simp only [blobEntryVariant, WriterBlobEntry.copied, blobEntryOf, WriterBlobEntry.set,
          uint64OfInt_lt]
      · show c.file.contents.length < 2 ^ 64
        omega

/-- The sections consist of calls of the run. -/
theorem mem_of_mem_sections {ops : List (Op env)} {c : AddBlob env} :
    (c ∈ (sections ops).1 → Op.addBlob c ∈ ops) ∧
      ∀ r ∈ (sections ops).2, c ∈ r.2 → Op.addBlob c ∈ ops := by
  induction ops with
  | nil => simp [sections]
  | cons op ops ih =>
      cases op with
      | addBlob c' =>
          refine ⟨fun h => ?_, fun r hr hc => List.mem_cons_of_mem _ (ih.2 r hr hc)⟩
          rcases List.mem_cons.mp h with rfl | h
          · exact List.mem_cons_self
          · exact List.mem_cons_of_mem _ (ih.1 h)
      | addRecord hexName =>
          refine ⟨fun h => (List.not_mem_nil h).elim, fun r hr hc => ?_⟩
          rcases List.mem_cons.mp hr with rfl | hr
          · exact List.mem_cons_of_mem _ (ih.1 hc)
          · exact List.mem_cons_of_mem _ (ih.2 r hr hc)

/-- The blob of a record comes from one of the calls. -/
theorem mem_of_lastSet {ops : List (Op env)} {r : CString × List (AddBlob env)}
    (hr : r ∈ (sections ops).2) {which : WriterV1Blob} {c : AddBlob env}
    (hc : lastSet which r.2 = some c) : Op.addBlob c ∈ ops :=
  mem_of_mem_sections.2 r hr (List.mem_filter.mp (List.mem_of_getLast? hc)).1

/-- The records in the order of the table. -/
def tableOrder (ops : List (Op env)) : List (CString × List (AddBlob env)) :=
  (sections ops).2.insertionSort fun r s => (rawNameOf r.1).toList ≤ (rawNameOf s.1).toList

/-- The table has the records of the calls, in another order. -/
theorem mem_tableOrder {ops : List (Op env)} {r : CString × List (AddBlob env)} :
    r ∈ tableOrder ops ↔ r ∈ (sections ops).2 := List.mem_insertionSort _

/-- The finished shard of a run. -/
structure Finished (gv : GVariantFormat) (f : Bytes) (ops : List (Op env))
    (es : List (WriterRecordEntry env)) : Prop where
  size : Holds f 0 (le 8 (gv.serialise (headerEntryVariant es)).length)
  header : Holds f 8 (gv.serialise (headerEntryVariant es))
  headerSize_lt : (gv.serialise (headerEntryVariant es)).length < 2 ^ 63
  length_le : es.length ≤ 2 ^ 31
  records : List.Forall₂ (fun r e' => RecordWritten f 64 (2 ^ 63 - 1) (entryOf r) e')
    (tableOrder ops) es
  utf8 : ∀ c, Op.addBlob c ∈ ops → utf8Validate c.type.chars = true

/-- **A run of the writer gives a finished file**, if the content types are in UTF-8. -/
theorem finished_of_run {gv : GVariantFormat} (hgv : gv.Lawful) (prev : Bytes)
    {ops : List (Op env)} {w w' : WriterV1 env} {log : List Write}
    (hrun : run writerV1New ops = some w) (hwrite : writeToFd gv w = some (w', log))
    (hutf8 : ∀ c, Op.addBlob c ∈ ops → utf8Validate c.type.chars = true) :
    Finished gv (applyWrites prev log) ops w'.entries := by
  have h := (writeToFd_spec hgv hwrite).2 prev
  refine ⟨?_, h.header, ?_, h.length_le, ?_, hutf8⟩
  · rw [h.length_header]
    exact h.size
  · rw [h.length_header]
    exact h.headerSize_lt
  · have hrec := h.records
    rw [entries_of_run hrun, ← List.map_insertionSort
      (fun r s => (rawNameOf r.1).toList ≤ (rawNameOf s.1).toList) rawNameLe entryOf _
      fun r _ s _ => by rw [rawNameLe, entryOf_rawName, entryOf_rawName], List.forall₂_map_left_iff] at hrec
    exact hrec

namespace Finished

variable {gv : GVariantFormat} {f : Bytes} {ops : List (Op env)} {es : List (WriterRecordEntry env)}

/-- The record of an entry of the table, and its calls. -/
theorem exists_of_mem (h : Finished gv f ops es) {e' : WriterRecordEntry env} (he : e' ∈ es) :
    ∃ r ∈ (sections ops).2, RecordWritten f 64 (2 ^ 63 - 1) (entryOf r) e' := by
  obtain ⟨k, hk, rfl⟩ := List.getElem_of_mem he
  have hk' : k < (tableOrder ops).length := by rw [h.records.length_eq]; exact hk
  exact ⟨(tableOrder ops)[k], mem_tableOrder.mp (List.getElem_mem hk'),
    (List.forall₂_iff_get.mp h.records).2 k hk' hk⟩

/-- The header of a finished file can be serialised. -/
theorem wellFormed (h : Finished gv f ops es) : (headerEntryVariant es).WellFormed := by
  refine ⟨show utf8Validate magic.chars = true by decide, fun v hv => ?_⟩
  obtain ⟨e', he, rfl⟩ := List.mem_map.mp hv
  obtain ⟨r, hr, hw⟩ := h.exists_of_mem he
  exact ⟨wellFormed_blobEntryVariant hw.metadata fun c hc => h.utf8 c (mem_of_lastSet hr hc),
    wellFormed_blobEntryVariant hw.data fun c hc => h.utf8 c (mem_of_lastSet hr hc)⟩

/-- The open succeeds, and the header is the one that was written. -/
theorem implV1New (hgv : gv.Lawful) (h : Finished gv f ops es) (heap : Heap) :
    implV1New gv heap f = .ok ⟨f, headerEntryVariant es⟩ :=
  implV1New_of_header hgv h.size h.header h.headerSize_lt h.wellFormed heap

/-- The file is recognised and opens. -/
theorem detectVersion (hgv : gv.Lawful) (h : Finished gv f ops es) (heap : Heap) :
    detectVersion gv heap f = .ok (.v1 ⟨f, headerEntryVariant es⟩) :=
  detectVersion_of_header hgv h.size h.header h.headerSize_lt h.wellFormed heap

end Finished

/-! ## Reading an archive back -/

/-- A blob slot is that of the call that has set it; it is `NULL` where no call has. -/
def SlotReadsBack (f : Bytes) : Option (AddBlob env) → Option EosShardBlob → Prop
  | none, blob => blob = none
  | some c, blob => ∃ b, blob = some b ∧ BlobReadsBack env f c.type c.file c.flags b

/-- A record object is that of a record of the run. -/
structure RecordReadsBack (f : Bytes) (r : CString × List (AddBlob env))
    (rec : EosShardRecord Unit) : Prop where
  rawName : rec.rawName = rawNameOf r.1
  metadata : SlotReadsBack f (lastSet .metadata r.2) rec.metadata
  data : SlotReadsBack f (lastSet .data r.2) rec.data

/-- An opened shard reads back as the records of a run. -/
structure RoundTrip (f : Bytes) (impl : ShardFileImplV1) (ops : List (Op env)) : Prop where
  /-- The listing has every added record once, with its blobs. -/
  list : ∃ order, order.Perm (sections ops).2 ∧
    List.Forall₂ (RecordReadsBack f) order (listRecords impl)
  /-- The listing is in the order of the raw names. -/
  sorted : (listRecords impl).Pairwise fun a b => a.rawName.toList ≤ b.rawName.toList
  /-- The order is strict if no raw name was used twice. -/
  strict : ((sections ops).2.map fun r => rawNameOf r.1).Nodup →
    (listRecords impl).Pairwise fun a b => a.rawName.toList < b.rawName.toList
  /-- A name that was not added is not found. -/
  find_none : ∀ x, findRecordByRawName impl x = none ↔ ∀ r ∈ (sections ops).2, rawNameOf r.1 ≠ x
  /-- A record that is found is a listed one of that name. -/
  find_some : ∀ x rec, findRecordByRawName impl x = some rec →
    rec.rawName = x ∧ rec ∈ listRecords impl

/-- The record object of an entry. -/
def recordOf (e : WriterRecordEntry env) : EosShardRecord Unit where
  rawName := e.rawName
  privateData := ()
  metadata := blobNewForVariant (blobEntryVariant e.metadata)
  data := blobNewForVariant (blobEntryVariant e.data)

/-- The names of the writer have 20 bytes. -/
theorem length_rawName_recordEntryVariant (e : WriterRecordEntry env) :
    (recordEntryVariant e).rawName.length = rawNameSize := e.rawName.toList_length

/-- The object of a record in the header. -/
theorem objectOf_recordEntryVariant (e : WriterRecordEntry env) :
    objectOf (recordEntryVariant e) = recordOf e := by
  simp only [objectOf, recordEntryVariant, byteArray_toList, recordOf]

/-- A record in the header can be constructed. -/
theorem recordNewForVariant_recordEntryVariant (e : WriterRecordEntry env) :
    recordNewForVariant (recordEntryVariant e) = some (recordOf e) := by
  rw [recordNewForVariant_of_good (length_rawName_recordEntryVariant e), objectOf_recordEntryVariant]

/-- A blob that has been copied reads back. -/
theorem slotReadsBack_of_blobWritten {f : Bytes} {o : Option (AddBlob env)}
    {b' : WriterBlobEntry env} (h : BlobWritten f 64 (2 ^ 63 - 1) (blobEntryOf o) b')
    (hsize : ∀ c, o = some c → c.stored.length < 2 ^ 31) :
    SlotReadsBack f o (blobNewForVariant (blobEntryVariant b')) := by
  obtain ⟨offs, rfl, hc⟩ := h
  cases o with
  | none => rfl
  | some c =>
      obtain ⟨hlow, hhigh, hholds⟩ := hc c rfl
      have hoffs : offs ≠ 0 := by omega
      simp only [blobNewForVariant, blobEntryVariant, WriterBlobEntry.copied, blobEntryOf,
        WriterBlobEntry.set, hoffs, List.Vector.toList_length, ne_eq, not_true_eq_false, if_false,
        byteArray_toList, SlotReadsBack, Option.some.injEq, exists_eq_left',
        uint64OfInt_asInt32_of_lt (hsize c rfl)]
      exact blobReadsBack_of_holds rfl rfl rfl rfl rfl hholds (show offs < 2 ^ 63 by omega)

namespace Finished

variable {gv : GVariantFormat} {f : Bytes} {ops : List (Op env)} {es : List (WriterRecordEntry env)}

/-- A listing has the records of the header, in their order. -/
theorem listRecords_eq (es : List (WriterRecordEntry env)) :
    listRecords ⟨f, headerEntryVariant es⟩ = es.map recordOf := by
  have hgood : GoodNames (es.map recordEntryVariant) :=
    List.forall_mem_map.mpr fun e _ => length_rawName_recordEntryVariant e
  rw [listRecords_of_good hgood, headerEntryVariant, List.map_map]
  exact List.map_congr_left fun e _ => objectOf_recordEntryVariant e

/-- Every record object is that of its record. -/
theorem recordReadsBack (h : Finished gv f ops es)
    (hsize : ∀ c, Op.addBlob c ∈ ops → c.stored.length < 2 ^ 31) :
    List.Forall₂ (RecordReadsBack f) (tableOrder ops) (es.map recordOf) := by
  rw [List.forall₂_map_right_iff, List.forall₂_iff_zip]
  refine ⟨h.records.length_eq, fun {r e'} hzip => ?_⟩
  have hw := (List.forall₂_iff_zip.mp h.records).2 hzip
  have hr := mem_tableOrder.mp (List.of_mem_zip hzip).1
  exact ⟨hw.rawName,
    slotReadsBack_of_blobWritten hw.metadata fun c hc => hsize c (mem_of_lastSet hr hc),
    slotReadsBack_of_blobWritten hw.data fun c hc => hsize c (mem_of_lastSet hr hc)⟩

/-- The names in the header are those of the calls, sorted. -/
theorem rawNames_eq (h : Finished gv f ops es) :
    es.map (·.rawName) = (tableOrder ops).map fun r => rawNameOf r.1 := by
  rw [← List.forall₂_eq_eq_eq, List.forall₂_map_left_iff, List.forall₂_map_right_iff]
  exact (h.records.imp fun _ _ hr => hr.rawName).flip

/-- The table is sorted. -/
theorem pairwise (h : Finished gv f ops es) :
    es.Pairwise fun a b => a.rawName.toList ≤ b.rawName.toList := by
  have : Std.Total fun r s : CString × List (AddBlob env) =>
      (rawNameOf r.1).toList ≤ (rawNameOf s.1).toList := ⟨fun _ _ => le_total _ _⟩
  have : IsTrans (CString × List (AddBlob env)) fun r s =>
      (rawNameOf r.1).toList ≤ (rawNameOf s.1).toList := ⟨fun _ _ _ => le_trans⟩
  have hs := List.pairwise_insertionSort (fun r s : CString × List (AddBlob env) =>
    (rawNameOf r.1).toList ≤ (rawNameOf s.1).toList) (sections ops).2
  rw [← List.pairwise_map (f := fun e : WriterRecordEntry env => e.rawName)
    (R := fun a b => a.toList ≤ b.toList), h.rawNames_eq, List.pairwise_map]
  exact hs

/-! ### The search -/

/-- The dummy pointers lead back to their indices. -/
theorem itemIndex_one_add {i : ℕ} (h : i < 2 ^ 31) : itemIndex (1 + i) = i := by
  unfold itemIndex gpointerToUint
  omega

/-- The comparison of the search is that of the names. -/
theorem compar_eq (h : Finished gv f ops es) (x : RawName) {i : ℕ} (hi : i < es.length) :
    findRecordByRawNameCompar (headerEntryVariant es).records x (1 + i) =
      memcmp x.toList es[i].rawName.toList := by
  have := h.length_le
  rw [findRecordByRawNameCompar, itemIndex_one_add (by omega)]
  simp only [headerEntryVariant, List.getElem?_map, List.getElem?_eq_getElem hi, Option.map_some,
    recordEntryVariant, List.Vector.toList_length, ne_eq, not_true_eq_false, if_false]

/-- The search goes through a table that is sorted. -/
theorem monotoneFor (h : Finished gv f ops es) (x : RawName) :
    MonotoneFor (fun i => findRecordByRawNameCompar (headerEntryVariant es).records x (1 + i))
      es.length := by
  intro i j hij hj
  have hle := List.pairwise_iff_getElem.mp h.pairwise i j (hij.trans hj) hj hij
  simp only [h.compar_eq x hj, h.compar_eq x (hij.trans hj), memcmp_eq_gt, memcmp_eq_lt]
  exact ⟨fun hgt => hle.trans_lt hgt, fun hlt => hlt.trans_le hle⟩

/-- What the search answers, in terms of the index the bisection finds. -/
theorem findRecordByRawName_eq (h : Finished gv f ops es) (x : RawName) :
    findRecordByRawName ⟨f, headerEntryVariant es⟩ x =
      (bsearch (fun i => findRecordByRawNameCompar (headerEntryVariant es).records x (1 + i)) 0
        es.length) >>= fun i => es[i]?.map recordOf := by
  have hlen : (headerEntryVariant es).records.length = es.length := List.length_map _
  rw [findRecordByRawName]
  simp only [hlen]
  cases hb : bsearch (fun i => findRecordByRawNameCompar (headerEntryVariant es).records x (1 + i))
    0 es.length with
  | none => rfl
  | some i =>
      have hi := (bsearch_sound hb).2.1
      have hle := h.length_le
      simp only [itemIndex_one_add (show i < 2 ^ 31 by omega),
        asInt32_of_lt (show i < 2 ^ 31 by omega), Int.toNat_natCast, Option.bind_eq_bind,
        Option.bind_some, headerEntryVariant, List.getElem?_map, List.getElem?_eq_getElem hi,
        Option.map_some, recordNewForVariant_recordEntryVariant]
      rw [if_neg (by omega)]

/-- A name is not found exactly if no record was added under it. -/
theorem findRecordByRawName_eq_none_iff (h : Finished gv f ops es) (x : RawName) :
    findRecordByRawName ⟨f, headerEntryVariant es⟩ x = none ↔
      ∀ r ∈ (sections ops).2, rawNameOf r.1 ≠ x := by
  have hnames : (∀ r ∈ (sections ops).2, rawNameOf r.1 ≠ x) ↔
      ∀ y ∈ es.map (·.rawName), y ≠ x := by
    simp only [h.rawNames_eq, List.forall_mem_map, mem_tableOrder]
  rw [hnames, h.findRecordByRawName_eq]
  have hnone := bsearch_eq_none_iff_of_monotoneFor (h.monotoneFor x)
  constructor
  · intro hf y hy hyx
    obtain ⟨i, hi, rfl⟩ := List.getElem_of_mem hy
    rw [List.length_map] at hi
    obtain ⟨j, hj⟩ := bsearch_isSome (h.monotoneFor x) (Nat.zero_le _) hi (by
      rw [h.compar_eq x hi, memcmp_eq_eq, ← hyx, List.getElem_map])
    have hj' := (bsearch_sound hj).2.1
    rw [hj, Option.bind_eq_bind, Option.bind_some, List.getElem?_eq_getElem hj'] at hf
    cases hf
  · intro hne
    rw [hnone.mpr fun i hi he => ?_]
    · rfl
    · rw [h.compar_eq x hi, memcmp_eq_eq] at he
      exact hne _ (List.mem_map_of_mem (List.getElem_mem hi)) (List.Vector.eq _ _ he).symm

/-- What is found has the name, and is in the listing. -/
theorem findRecordByRawName_eq_some (h : Finished gv f ops es) {x : RawName}
    {rec : EosShardRecord Unit} (hf : findRecordByRawName ⟨f, headerEntryVariant es⟩ x = some rec) :
    rec.rawName = x ∧ rec ∈ listRecords ⟨f, headerEntryVariant es⟩ := by
  rw [h.findRecordByRawName_eq, Option.bind_eq_bind, Option.bind_eq_some_iff] at hf
  obtain ⟨i, hb, hrec⟩ := hf
  obtain ⟨-, hi, hcmp⟩ := bsearch_sound hb
  rw [List.getElem?_eq_getElem hi] at hrec
  cases hrec
  rw [h.compar_eq x hi, memcmp_eq_eq] at hcmp
  refine ⟨(List.Vector.eq _ _ hcmp).symm, ?_⟩
  rw [listRecords_eq]
  exact List.mem_map_of_mem (List.getElem_mem hi)

/-- **The opened shard reads back** as the records of the run. -/
theorem roundTrip (h : Finished gv f ops es)
    (hsize : ∀ c, Op.addBlob c ∈ ops → c.stored.length < 2 ^ 31) :
    RoundTrip f ⟨f, headerEntryVariant es⟩ ops where
  list := by
    rw [listRecords_eq]
    exact ⟨tableOrder ops, List.perm_insertionSort _ _, h.recordReadsBack hsize⟩
  sorted := by
    rw [listRecords_eq, List.pairwise_map]
    exact h.pairwise
  strict := by
    intro hnodup
    have hne : (es.map (·.rawName)).Nodup := by
      rw [h.rawNames_eq]
      exact (((List.perm_insertionSort _ _).map _).nodup_iff).mpr hnodup
    rw [List.Nodup, List.pairwise_map] at hne
    rw [listRecords_eq, List.pairwise_map]
    exact h.pairwise.imp₂ (fun a b hab hne => lt_of_le_of_ne hab fun he =>
      hne (List.Vector.eq _ _ he)) hne
  find_none := h.findRecordByRawName_eq_none_iff
  find_some := fun _ _ => h.findRecordByRawName_eq_some

end Finished

/-- **A V1 shard reads back as it was written.** Let a run add files whose content types are UTF-8
and whose stored size is below `2 ^ 31`. `writeToFd` finishes if and only if the loop counter and the
offsets stay in their ranges, and on top of any previous contents of the file what it has written is
recognised and opens, and the listing, the search and the blobs are those of the run. -/
theorem written_reads_back {gv : GVariantFormat} (hgv : gv.Lawful) {ops : List (Op env)}
    {w : WriterV1 env} (hrun : run writerV1New ops = some w)
    (hutf8 : ∀ c, Op.addBlob c ∈ ops → utf8Validate c.type.chars = true)
    (hsize : ∀ c, Op.addBlob c ∈ ops → c.stored.length < 2 ^ 31) :
    ((writeToFd gv w).isSome = true ↔ Fits gv w) ∧
      ∀ prev w' log, writeToFd gv w = some (w', log) →
        ∃ impl, (∀ heap, detectVersion gv heap (applyWrites prev log) = .ok (.v1 impl)) ∧
          RoundTrip (applyWrites prev log) impl ops := by
  refine ⟨writeToFd_isSome_iff gv w, fun prev w' log hwrite => ?_⟩
  have h := finished_of_run hgv prev hrun hwrite hutf8
  exact ⟨_, h.detectVersion hgv, h.roundTrip hsize⟩

/-- Set the data of a record, compressed. -/
def zippedCall : AddBlob smallEnv where
  whichBlob := .data
  file := oneFile
  contentType := some textPlain
  flags := .compressedZlib
  reads := [oneZipped]
  reads_flatten := by decide
  reads_size := by decide

/-- Set the metadata of a record to a file. -/
def metadataCall (file : GFile) (hle : file.contents.length ≤ 4096 * 4) : AddBlob smallEnv where
  whichBlob := .metadata
  file := file
  contentType := none
  flags := .none
  reads := if file.contents = [] then [] else [file.contents]
  reads_flatten := by
    split_ifs with h
    · exact h.symm
    · exact List.append_nil _
  reads_size := by
    intro p hp
    split_ifs at hp with h
    · cases hp
    · rw [List.mem_singleton.mp hp]
      exact ⟨List.length_pos_iff.mpr h, hle⟩

/-- Three records, added against the order of their names: one with both blobs, one with none, and one
with an empty file that is set in the place of another. -/
def archiveRun : List (Op smallEnv) :=
  [.addRecord lastName,
    .addBlob zippedCall, .addBlob (metadataCall oneFile (by decide)),
    .addRecord digitsName,
    .addRecord capitalsName,
    .addBlob (metadataCall oneFile (by decide)), .addBlob (metadataCall emptyFile (by decide))]

/-- The archive can be written, with a small header. -/
theorem written_archiveRun : ∃ w w' log, run writerV1New archiveRun = some w ∧
    writeToFd gvariant w = some (w', log) ∧ headerSize gvariant w < 2 ^ 48 := by
  have hsome : ((run writerV1New archiveRun).bind fun w =>
      (writeToFd gvariant w).map fun _ => decide (headerSize gvariant w < 2 ^ 48)) = some true := by
    decide +kernel
  obtain ⟨w, hrun, hmap⟩ := Option.bind_eq_some_iff.mp hsome
  obtain ⟨⟨w', log⟩, hwrite, hsize⟩ := Option.map_eq_some_iff.mp hmap
  exact ⟨w, w', log, hrun, hwrite, of_decide_eq_true hsize⟩

/-- The content types of the example are in UTF-8, and its blobs are below 2 GiB. -/
theorem callsOk_archiveRun : ∀ c, Op.addBlob c ∈ archiveRun →
    utf8Validate c.type.chars = true ∧ c.stored.length < 2 ^ 31 := by
  intro c hc
  simp only [archiveRun, List.mem_cons, reduceCtorEq, Op.addBlob.injEq, List.not_mem_nil, false_or,
    or_false] at hc
  rcases hc with rfl | rfl | rfl | rfl <;> exact ⟨by decide, by decide⟩

/-- The archive goes on top of a file of eight bytes. -/
theorem written_reads_back_archiveRun :
    ∃ w w' log impl, run writerV1New archiveRun = some w ∧ writeToFd gvariant w = some (w', log) ∧
      (∀ heap, detectVersion gvariant heap (applyWrites (List.replicate 8 255) log) =
        .ok (.v1 impl)) ∧
      RoundTrip (applyWrites (List.replicate 8 255) log) impl archiveRun := by
  obtain ⟨w, w', log, hrun, hwrite, -⟩ := written_archiveRun
  obtain ⟨impl, himpl⟩ := (written_reads_back gvariant_lawful hrun
    (fun c hc => (callsOk_archiveRun c hc).1) fun c hc => (callsOk_archiveRun c hc).2).2
    (List.replicate 8 255) w' log hwrite
  exact ⟨w, w', log, impl, hrun, hwrite, himpl⟩

end EosShard.V1
