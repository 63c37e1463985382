import EosShard.V2.History

/-!
# Deduplication and the offsets it hands out

The offsets of the data and of the pool strings go into hash tables as pointers and come back as
`guint`s. A call that finds its data or a string in the table therefore gets the offset modulo
`2 ^ 32`, and a data offset that is a multiple of `2 ^ 32` looks like one that is missing.

* `KeepsOffsets` is what deduplication is meant to do: equal data is at one place, which holds it,
  and every string keeps the place it was first given.
* `StepFits` is the condition on one call, in the state it starts in: the offsets it will take from
  the tables are below `2 ^ 32`. A data offset may also be a multiple of `2 ^ 32` that equals the
  running offset: the data is empty there, and the call that takes it for new puts it in the same
  place again.
* `keepsOffsets_iff`: a run keeps its offsets if and only if all its steps fit.
* `zerosRun_not_keepsOffsets`: a file of 4 GiB followed by two equal blobs.
-/

namespace EosShard.V2

open EosShard.Found

variable {env : Env}

/-! ## The property -/

/-- The calls with their entries. -/
def placements (ops : List (Op env)) (w : WriterV2) : List (AddBlob env × BlobEntry) :=
  (calls ops).zip w.blobs

/-- Equal data has equal offsets, and the strings of every entry are where the pool has them. -/
structure SameOffsets (ops : List (Op env)) (w : WriterV2) : Prop where
  /-- A later call that stores the same bytes records the same `data_start`. -/
  dataStart : (placements ops w).Pairwise fun p q =>
    p.1.stored = q.1.stored → q.2.sblob.dataStart = p.2.sblob.dataStart
  /-- Names and content types keep the offset they were first given. -/
  strings : ∀ p ∈ placements ops w,
    p.2.sblob.nameOffs = poolOffset w.cpool.strings p.1.name ∧
      p.2.sblob.contentTypeOffs = poolOffset w.cpool.strings p.1.type

/-- Deduplication keeps the offsets exact: `SameOffsets`, and every extent holds its stored bytes in
what the writes make of the previous contents. -/
structure KeepsOffsets (prev : Bytes) (ops : List (Op env)) (w : WriterV2) (log : List Write) : Prop
    extends SameOffsets ops w where
  holds : ∀ p ∈ placements ops w, Holds (applyWrites prev log) p.2.sblob.dataStart p.1.stored

/-! ## The condition -/

/-- The offsets a call takes from the hash tables survive the way through a `guint`. -/
def StepFits (w : WriterV2) : Op env → Prop
  | .addBlob c => c.Accepted →
      (∀ p, w.csumToDataStart.lookup c.csum = some p →
        p < 2 ^ 32 ∨ p % 2 ^ 32 = 0 ∧ p = w.ctxOffset) ∧
      (c.name ∈ w.cpool.strings → poolOffset w.cpool.strings c.name < 2 ^ 32) ∧
      (c.type ∈ (constantPoolAdd w.cpool c.name).1.strings →
        poolOffset (constantPoolAdd w.cpool c.name).1.strings c.type < 2 ^ 32)
  | _ => True

/-- All steps of a run fit. -/
def StepsFit : WriterV2 → List (Op env) → Prop
  | _, [] => True
  | w, op :: ops => StepFits w op ∧ ∀ w' ws, step w op = some (w', ws) → StepsFit w' ops

/-- All steps fit if those before the last one fit, and the last one does. -/
theorem stepsFit_concat {w w' : WriterV2} {ops : List (Op env)} {op : Op env} {log : List Write}
    (hrun : run w ops = some (w', log)) :
    StepsFit w (ops ++ [op]) ↔ StepsFit w ops ∧ StepFits w' op := by
  induction ops generalizing w log with
  | nil =>
      cases hrun
      simp [StepsFit]
  | cons op' ops ih =>
      obtain ⟨w₁, ws₁, ws₂, h₁, h₂, -⟩ := run_cons_eq_some.mp hrun
      have key : (∀ w' ws, step w op' = some (w', ws) → StepsFit w' (ops ++ [op])) ↔
          (∀ w' ws, step w op' = some (w', ws) → StepsFit w' ops) ∧ StepFits w' op := by
        constructor
        · intro h
          have := (ih h₂).mp (h _ _ h₁)
          refine ⟨fun w₂ ws h' => ?_, this.2⟩
          rw [h₁] at h'
          cases h'
          exact this.1
        · rintro ⟨h, hop⟩ w₂ ws h'
          rw [h₁] at h'
          cases h'
          exact (ih h₂).mpr ⟨h _ _ h₁, hop⟩
      simp only [List.cons_append, StepsFit, key, and_assoc]

/-- No two of the calls store different bytes with the same checksum. -/
def CollisionFree (cs : List (AddBlob env)) : Prop :=
  ∀ c ∈ cs, ∀ c' ∈ cs, c.csum = c'.csum → c.stored = c'.stored

/-- Fewer contents have fewer collisions. -/
theorem CollisionFree.of_append {cs cs' : List (AddBlob env)} (h : CollisionFree (cs ++ cs')) :
    CollisionFree cs := fun c hc c' hc' =>
  h c (List.mem_append_left _ hc) c' (List.mem_append_left _ hc')

/-! ## One step -/

/-- What holds as long as all steps have fitted: besides `KeepsOffsets`, all data lies between the
header and the running offset, and the table has the offset of the first entry of each checksum. -/
structure Placed (prev : Bytes) (ops : List (Op env)) (w : WriterV2) (log : List Write) : Prop
    extends KeepsOffsets prev ops w log where
  bounds : ∀ p ∈ placements ops w,
    Hdr.sizeof ≤ p.2.sblob.dataStart ∧ p.2.sblob.dataStart + p.1.stored.length ≤ w.ctxOffset
  table : ∀ x, w.csumToDataStart.lookup x =
    ((placements ops w).find? fun p => p.1.csum = x).map fun p =>
      guintToPointer p.2.sblob.dataStart

/-- What has been placed comes from a call. -/
theorem mem_calls_of_mem_placements {ops : List (Op env)} {w : WriterV2}
    {p : AddBlob env × BlobEntry} (hp : p ∈ placements ops w) : p.1 ∈ calls ops :=
  (List.of_mem_zip hp).1

/-- One more call is placed where the writer puts its data. -/
theorem placements_addBlob {ops : List (Op env)} {w : WriterV2} {log : List Write}
    (hw : History ops w log) {c : AddBlob env} (hc : c.Accepted) :
    placements (ops ++ [.addBlob c]) (addBlob w c).1 = placements ops w ++
      [(c, c.placed (poolSection w c).2.1 (poolSection w c).2.2 (dataStartOf w c))] := by
  rw [addBlob_eq hc]
  unfold placements
  rw [calls_append, calls_addBlob hc, List.zip_append hw.length_blobs.symm]
  rfl

/-- All entries of a checksum have the offset of the first one. -/
theorem Placed.dataStart_eq_of_find? {prev : Bytes} {ops : List (Op env)} {w : WriterV2}
    {log : List Write} (h : Placed prev ops w log) (hcol : CollisionFree (calls ops)) {x : Csum}
    {p q : AddBlob env × BlobEntry} (hq : q ∈ placements ops w) (hx : q.1.csum = x)
    (hp : (placements ops w).find? (fun p => p.1.csum = x) = some p) :
    q.2.sblob.dataStart = p.2.sblob.dataStart := by
  have hpm := List.mem_of_find?_eq_some hp
  obtain ⟨hpx, as, bs, hl, has⟩ := List.find?_eq_some_iff_append.mp hp
  rw [decide_eq_true_eq] at hpx
  have hst : p.1.stored = q.1.stored :=
    hcol _ (mem_calls_of_mem_placements hpm) _ (mem_calls_of_mem_placements hq) (hpx.trans hx.symm)
  have hpw := h.dataStart
  rw [hl] at hq hpw
  rcases List.mem_append.mp hq with hq | hq
  · have := has q hq
    simp [hx] at this
  · rcases List.mem_cons.mp hq with rfl | hq
    · rfl
    · exact (List.pairwise_cons.mp (List.pairwise_append.mp hpw).2.1).1 q hq hst

/-- Both strings of a call get their places if and only if the places it finds are below
`2 ^ 32`. -/
theorem constantPoolAdd_exact_iff {cpool : ConstantPool} (h : cpool.Ok) (S : CString) :
    (constantPoolAdd cpool S).2 = poolOffset (constantPoolAdd cpool S).1.strings S ↔
      (S ∈ cpool.strings → poolOffset cpool.strings S < 2 ^ 32) := by
  obtain ⟨-, hpre, -, hoffs⟩ := constantPoolAdd_spec h S
  rw [hoffs]
  by_cases hS : S ∈ cpool.strings
  · rw [if_pos hS, poolOffset_append_of_isPrefix hpre hS]
    have := Nat.mod_lt (poolOffset cpool.strings S) (show 0 < 2 ^ 32 by norm_num)
    constructor
    · intro h _
      omega
    · intro h
      exact Nat.mod_eq_of_lt (h hS)
  · simp [hS]

/-- The offsets of the strings are those in the pool exactly if those of the strings that were there
already fit into 32 bits. -/
theorem poolSection_exact_iff {w : WriterV2} (h : w.cpool.Ok) (c : AddBlob env) :
    ((poolSection w c).2.1 = poolOffset (poolSection w c).1.cpool.strings c.name ∧
      (poolSection w c).2.2 = poolOffset (poolSection w c).1.cpool.strings c.type) ↔
      (c.name ∈ w.cpool.strings → poolOffset w.cpool.strings c.name < 2 ^ 32) ∧
      (c.type ∈ (constantPoolAdd w.cpool c.name).1.strings →
        poolOffset (constantPoolAdd w.cpool c.name).1.strings c.type < 2 ^ 32) := by
  obtain ⟨hok, -, hmem, -⟩ := constantPoolAdd_spec h c.name
  rw [← constantPoolAdd_exact_iff h, ← constantPoolAdd_exact_iff hok]
  have hpre := (constantPoolAdd_spec hok c.type).2.1
  rw [← poolOffset_append_of_isPrefix hpre hmem]
  rfl

/-- The strings of a call are in the pool, and its offsets are their places there as long as the
pool has at most 4 GiB. -/
structure StringsPlaced (cpool : ConstantPool) (c : AddBlob env) (nameOffs contentTypeOffs : ℕ) :
    Prop where
  name_mem : c.name ∈ cpool.strings
  type_mem : c.type ∈ cpool.strings
  offsets : (poolBytes cpool.strings).length ≤ 2 ^ 32 →
    nameOffs = poolOffset cpool.strings c.name ∧ contentTypeOffs = poolOffset cpool.strings c.type

/-- What is in the pool stays there. -/
theorem StringsPlaced.mono {cpool cpool' : ConstantPool} {c : AddBlob env} {no co : ℕ}
    (h : StringsPlaced cpool c no co) (hp : cpool.strings <+: cpool'.strings) :
    StringsPlaced cpool' c no co where
  name_mem := hp.subset h.name_mem
  type_mem := hp.subset h.type_mem
  offsets hle := by
    rw [poolOffset_append_of_isPrefix hp h.name_mem, poolOffset_append_of_isPrefix hp h.type_mem]
    exact h.offsets ((length_poolBytes_le_of_isPrefix hp).trans hle)

/-- The strings of a call are in the pool afterwards. -/
theorem stringsPlaced_poolSection {w : WriterV2} (h : w.cpool.Ok) (c : AddBlob env) :
    StringsPlaced (poolSection w c).1.cpool c (poolSection w c).2.1 (poolSection w c).2.2 := by
  obtain ⟨hok, hpre, hname, htype⟩ := poolSection_spec h c
  refine ⟨hname, htype, fun hle => (poolSection_exact_iff h c).mpr ⟨fun hm => ?_, fun hm => ?_⟩⟩
  · exact (poolOffset_lt hm).trans_le ((length_poolBytes_le_of_isPrefix hpre).trans hle)
  · have hpre' := (constantPoolAdd_spec (constantPoolAdd_spec h c.name).1 c.type).2.1
    exact (poolOffset_lt hm).trans_le ((length_poolBytes_le_of_isPrefix hpre').trans hle)

/-- `data_start` as the call finds it, in terms of the first entry with its checksum. -/
theorem Placed.lookupDataStart_eq {prev : Bytes} {ops : List (Op env)} {w : WriterV2}
    {log : List Write} (h : Placed prev ops w log) (x : Csum) :
    lookupDataStart w x = (((placements ops w).find? fun p => p.1.csum = x).map fun p =>
      p.2.sblob.dataStart % 2 ^ 32).getD 0 := by
  unfold lookupDataStart
  rw [h.table]
  cases (placements ops w).find? fun p => p.1.csum = x with
  | none => rfl
  | some p => exact gpointerToUint_guintToPointer _

/-- The table has what the first entry of a checksum has. -/
theorem Placed.lookup_eq {prev : Bytes} {ops : List (Op env)} {w : WriterV2} {log : List Write}
    (h : Placed prev ops w log) (hrange : w.ctxOffset < 2 ^ 63) {x : Csum}
    {p : AddBlob env × BlobEntry}
    (hp : (placements ops w).find? (fun p => p.1.csum = x) = some p) :
    w.csumToDataStart.lookup x = some p.2.sblob.dataStart := by
  have := (h.bounds p (List.mem_of_find?_eq_some hp)).2
  rw [h.table, hp, Option.map_some, guintToPointer, Nat.mod_eq_of_lt (by omega)]

/-- A step that fits finds the data of its checksum where the first entry has it. -/
theorem Placed.dataStartOf_eq {prev : Bytes} {ops : List (Op env)} {w : WriterV2} {log : List Write}
    (h : Placed prev ops w log) (hrange : w.ctxOffset < 2 ^ 63) {c : AddBlob env}
    (hc : c.Accepted) (hfit : StepFits w (.addBlob c)) {p : AddBlob env × BlobEntry}
    (hp : (placements ops w).find? (fun p => p.1.csum = c.csum) = some p) :
    dataStartOf w c = p.2.sblob.dataStart := by
  have hlow : 36 ≤ p.2.sblob.dataStart := (h.bounds p (List.mem_of_find?_eq_some hp)).1
  have hlook := h.lookupDataStart_eq c.csum
  rw [hp, Option.map_some, Option.getD_some] at hlook
  rw [dataStartOf_eq_ite]
  rcases (hfit hc).1 _ (h.lookup_eq hrange hp) with hlt | ⟨hzero, heq⟩
  · rw [Nat.mod_eq_of_lt hlt] at hlook
    rw [hlook, if_neg (by omega)]
  · rw [hlook, hzero, if_pos rfl, heq]

/-- Data without an entry is new. -/
theorem Placed.isNew {prev : Bytes} {ops : List (Op env)} {w : WriterV2} {log : List Write}
    (h : Placed prev ops w log) {c : AddBlob env}
    (hf : (placements ops w).find? (fun p => p.1.csum = c.csum) = none) : IsNew w c := by
  rw [IsNew, h.lookupDataStart_eq, hf]
  rfl

/-- The first entry with the checksum of a call has its data. -/
theorem stored_eq_of_find? {ops : List (Op env)} {w : WriterV2} {c : AddBlob env}
    {p : AddBlob env × BlobEntry} (hcol : CollisionFree (calls ops ++ [c]))
    (hf : (placements ops w).find? (fun p => p.1.csum = c.csum) = some p) :
    p.1.stored = c.stored := by
  have hmem := mem_calls_of_mem_placements (List.mem_of_find?_eq_some hf)
  have hcsum : p.1.csum = c.csum := by simpa using List.find?_some hf
  exact hcol _ (List.mem_append_left _ hmem) _ (by simp) hcsum

/-- A step that does not fit gives the data another offset, or one of the strings. -/
theorem Placed.not_sameOffsets {prev : Bytes} {ops : List (Op env)} {w : WriterV2} {log : List Write}
    (h : Placed prev ops w log) (hw : History ops w log) (hrange : w.ctxOffset < 2 ^ 63)
    {c : AddBlob env} (hc : c.Accepted) (hcol : CollisionFree (calls ops ++ [c]))
    (hfit : ¬ StepFits w (.addBlob c)) :
    ¬ SameOffsets (ops ++ [.addBlob c]) (addBlob w c).1 := by
  rintro ⟨hdata, hstr⟩
  rw [placements_addBlob hw hc] at hdata hstr
  apply hfit
  intro _
  refine ⟨fun d hd => ?_, ?_⟩
  · -- the first entry with the checksum would have to have the offset of the new one
    rcases hf : (placements ops w).find? (fun p => p.1.csum = c.csum) with _ | p
    · rw [h.table, hf] at hd
      cases hd
    have hD : dataStartOf w c = p.2.sblob.dataStart :=
      (List.pairwise_append.mp hdata).2.2 p (List.mem_of_find?_eq_some hf) _
        (List.mem_singleton_self _) (stored_eq_of_find? hcol hf)
    rw [h.lookup_eq hrange hf] at hd
    obtain rfl := Option.some.inj hd
    have hlook := h.lookupDataStart_eq c.csum
    rw [hf, Option.map_some, Option.getD_some] at hlook
    rw [dataStartOf_eq_ite, hlook] at hD
    split_ifs at hD with hz
    · exact Or.inr ⟨hz, hD.symm⟩
    · left
      have := Nat.mod_lt p.2.sblob.dataStart (show 0 < 2 ^ 32 by norm_num)
      omega
  · rw [← poolSection_exact_iff hw.pool]
    have := hstr _ (List.mem_append_right _ (List.mem_singleton_self _))
    rw [addBlob_eq hc] at this
    exact this

/-- What is at or below the running offset is not written to. -/
theorem holds_addBlob_of_le {prev : Bytes} {w : WriterV2} {log : List Write} {c : AddBlob env}
    (hc : c.Accepted) {o : ℕ} {d : Bytes} (ho : o + d.length ≤ w.ctxOffset)
    (hd : Holds (applyWrites prev log) o d) :
    Holds (applyWrites prev (log ++ (V2.addBlob w c).2.1)) o d := by
  rw [applyWrites_append, addBlob_eq hc]
  refine hd.applyWrites_of_writesFrom ?_ ho
  simp only
  split_ifs
  · exact writesFrom_seqWrites _ _
  · exact fun _ hw => absurd hw List.not_mem_nil

/-- The data of a call that fits is where its entry says. -/
theorem Placed.data_addBlob {prev : Bytes} {ops : List (Op env)} {w : WriterV2} {log : List Write}
    (h : Placed prev ops w log) (hw : History ops w log) (hrange : w.ctxOffset < 2 ^ 63)
    {c : AddBlob env} (hc : c.Accepted) (hcol : CollisionFree (calls ops ++ [c]))
    (hfit : StepFits w (.addBlob c)) :
    Holds (applyWrites prev (log ++ (V2.addBlob w c).2.1)) (dataStartOf w c) c.stored ∧
      Hdr.sizeof ≤ dataStartOf w c ∧
      dataStartOf w c + c.stored.length ≤ (V2.addBlob w c).1.ctxOffset := by
  by_cases hn : IsNew w c
  · have hD : dataStartOf w c = w.ctxOffset := if_pos hn
    rw [hD, applyWrites_append, addBlob_eq hc]
    simp only [hn, if_true]
    refine ⟨?_, hw.header_le, le_align _⟩
    have := holds_applyWrites_seqWrites (applyWrites prev log) w.ctxOffset c.reads
    rwa [c.reads_flatten] at this
  · rcases hf : (placements ops w).find? (fun p => p.1.csum = c.csum) with _ | p
    · exact absurd (h.isNew hf) hn
    · have hmem := List.mem_of_find?_eq_some hf
      obtain ⟨hlow, hhigh⟩ := h.bounds p hmem
      rw [h.dataStartOf_eq hrange hc hfit hf, ← stored_eq_of_find? hcol hf]
      exact ⟨holds_addBlob_of_le hc hhigh (h.holds p hmem), hlow, hhigh.trans (le_ctxOffset_addBlob w c)⟩

/-- The entry of a call that fits has the offset of every entry with the same data. -/
theorem Placed.dataStart_addBlob {prev : Bytes} {ops : List (Op env)} {w : WriterV2}
    {log : List Write} (h : Placed prev ops w log) (hrange : w.ctxOffset < 2 ^ 63)
    {c : AddBlob env} (hc : c.Accepted) (hcol : CollisionFree (calls ops ++ [c]))
    (hfit : StepFits w (.addBlob c)) {p : AddBlob env × BlobEntry} (hp : p ∈ placements ops w)
    (hst : p.1.stored = c.stored) : dataStartOf w c = p.2.sblob.dataStart := by
  have hx : p.1.csum = c.csum := congrArg env.sha256 hst
  rcases hf : (placements ops w).find? (fun p => p.1.csum = c.csum) with _ | p₀
  · have := List.find?_eq_none.mp hf p hp
    simp [hx] at this
  · exact (h.dataStartOf_eq hrange hc hfit hf).trans
      (h.dataStart_eq_of_find? hcol.of_append hp hx hf).symm

/-- The table after a call that fits has what the first entry of each checksum has. -/
theorem Placed.table_addBlob {prev : Bytes} {ops : List (Op env)} {w : WriterV2} {log : List Write}
    (h : Placed prev ops w log) (hw : History ops w log) (hrange : w.ctxOffset < 2 ^ 63)
    {c : AddBlob env} (hc : c.Accepted) (hfit : StepFits w (.addBlob c)) (x : Csum) :
    (V2.addBlob w c).1.csumToDataStart.lookup x =
      ((placements (ops ++ [.addBlob c]) (V2.addBlob w c).1).find? fun p => p.1.csum = x).map
        fun p => guintToPointer p.2.sblob.dataStart := by
  rw [placements_addBlob hw hc, List.find?_append, addBlob_eq hc]
  simp only
  by_cases hx : x = c.csum
  · subst hx
    rcases hf : (placements ops w).find? (fun p => p.1.csum = c.csum) with _ | p
    · -- the first entry of this checksum
      have hn := h.isNew hf
      have hD : dataStartOf w c = w.ctxOffset := if_pos hn
      rw [hf, if_pos hn, Table.lookup_insert_self, ← hD]
      simp [AddBlob.placed]
    · have hD := h.dataStartOf_eq hrange hc hfit hf
      have htab := h.table c.csum
      rw [hf, Option.map_some] at htab
      rw [hf, Option.some_or, Option.map_some]
      by_cases hn : IsNew w c
      · -- an empty blob at a multiple of `2 ^ 32` is placed again, at the same offset
        have hD' : dataStartOf w c = w.ctxOffset := if_pos hn
        rw [if_pos hn, Table.lookup_insert_self, ← hD', hD]
      · rw [if_neg hn, htab]
  · have hne : ¬ c.csum = x := fun he => hx he.symm
    have hlast : ([(c, c.placed (poolSection w c).2.1 (poolSection w c).2.2 (dataStartOf w c))].find?
        fun p => p.1.csum = x) = none := by simp [hne]
    rw [hlast, Option.or_none, ← h.table x]
    split_ifs
    · exact Table.lookup_insert_of_ne _ _ hx
    · rfl

/-- A step that fits keeps everything in place. -/
theorem Placed.addBlob {prev : Bytes} {ops : List (Op env)} {w : WriterV2} {log : List Write}
    (h : Placed prev ops w log) (hw : History ops w log) (hrange : w.ctxOffset < 2 ^ 63)
    {c : AddBlob env} (hc : c.Accepted) (hcol : CollisionFree (calls ops ++ [c]))
    (hfit : StepFits w (.addBlob c)) :
    Placed prev (ops ++ [.addBlob c]) (addBlob w c).1 (log ++ (addBlob w c).2.1) := by
  have hpl := placements_addBlob hw hc
  have hpre := (poolSection_spec hw.pool c).2.1
  have hstrings := (poolSection_exact_iff hw.pool c).mpr (hfit hc).2
  obtain ⟨hdata, hbounds⟩ := h.data_addBlob hw hrange hc hcol hfit
  refine ⟨⟨⟨?_, ?_⟩, ?_⟩, ?_, h.table_addBlob hw hrange hc hfit⟩
  · rw [hpl, List.pairwise_append]
    refine ⟨h.dataStart, List.pairwise_singleton _ _, ?_⟩
    intro p hp q hq hst
    rw [List.mem_singleton.mp hq] at hst ⊢
    exact h.dataStart_addBlob hrange hc hcol hfit hp hst
  · intro p hp
    rw [hpl] at hp
    rw [addBlob_eq hc]
    rcases List.mem_append.mp hp with hp | hp
    · obtain ⟨h₁, h₂⟩ := h.strings p hp
      obtain ⟨hm₁, hm₂⟩ := hw.strings p.1 (mem_calls_of_mem_placements hp)
      rw [h₁, h₂]
      exact ⟨(poolOffset_append_of_isPrefix hpre hm₁).symm, (poolOffset_append_of_isPrefix hpre hm₂).symm⟩
    · rw [List.mem_singleton.mp hp]
      exact hstrings
  · intro p hp
    rw [hpl] at hp
    rcases List.mem_append.mp hp with hp | hp
    · exact holds_addBlob_of_le hc (h.bounds p hp).2 (h.holds p hp)
    · rw [List.mem_singleton.mp hp]
      exact hdata
  · intro p hp
    rw [hpl] at hp
    rcases List.mem_append.mp hp with hp | hp
    · exact ⟨(h.bounds p hp).1, (h.bounds p hp).2.trans (le_ctxOffset_addBlob w c)⟩
    · rw [List.mem_singleton.mp hp]
      exact hbounds

/-! ## Runs -/

/-- If the offsets are right behind a step, they were so in front of it. -/
theorem SameOffsets.of_step {ops : List (Op env)} {w w' : WriterV2} {log ws : List Write}
    {op : Op env} (hw : History ops w log) (h : step w op = some (w', ws))
    (hs : SameOffsets (ops ++ [op]) w') : SameOffsets ops w := by
  rcases step_cases h with ⟨c, rfl, hc, rfl, -⟩ | ⟨hcalls, -, -, hblobs, -, hpool⟩
  · obtain ⟨hdata, hstr⟩ := hs
    rw [placements_addBlob hw hc] at hdata hstr
    refine ⟨(List.pairwise_append.mp hdata).1, fun p hp => ?_⟩
    have hpre := (poolSection_spec hw.pool c).2.1
    obtain ⟨hm₁, hm₂⟩ := hw.strings p.1 (mem_calls_of_mem_placements hp)
    have := hstr p (List.mem_append_left _ hp)
    rw [addBlob_eq hc] at this
    rwa [poolOffset_append_of_isPrefix hpre hm₁, poolOffset_append_of_isPrefix hpre hm₂] at this
  · obtain ⟨hdata, hstr⟩ := hs
    unfold placements at hdata hstr
    rw [calls_append, hcalls, List.append_nil, hblobs] at hdata hstr
    rw [hpool] at hstr
    exact ⟨hdata, hstr⟩

/-- A step that stores no blob fits. -/
theorem stepFits_of_calls_eq_nil (w : WriterV2) {op : Op env} (h : calls [op] = []) : StepFits w op := by
  cases op with
  | addBlob c =>
      intro hc
      rw [calls_addBlob hc] at h
      cases h
  | addRecord => trivial
  | addBlobToRecord => trivial

/-- In every run whose data stays in the range of `off_t`: if all steps have fitted everything is in
place, and if one has not some offset has changed for good. -/
theorem placed_or_not_sameOffsets (prev : Bytes) {ops : List (Op env)} {w : WriterV2}
    {log : List Write} (hrun : run writerV2New ops = some (w, log)) :
    w.ctxOffset < 2 ^ 63 → CollisionFree (calls ops) →
      (StepsFit writerV2New ops ∧ Placed prev ops w log) ∨
        (¬ StepsFit writerV2New ops ∧ ¬ SameOffsets ops w) := by
  refine run_rule (P := fun ops w log => w.ctxOffset < 2 ^ 63 → CollisionFree (calls ops) →
    (StepsFit writerV2New ops ∧ Placed prev ops w log) ∨
      (¬ StepsFit writerV2New ops ∧ ¬ SameOffsets ops w)) ?_ ?_ hrun
  · intro _ _
    exact Or.inl ⟨trivial, ⟨⟨⟨List.Pairwise.nil, by simp [placements, calls]⟩,
      by simp [placements, calls]⟩, by simp [placements, calls], fun x => rfl⟩⟩
  · intro ops w log op w' ws hrun ih h hrange hcol
    have hw := history_of_run hrun
    have hrange₀ : w.ctxOffset < 2 ^ 63 := lt_of_le_of_lt (step_mono hw.pool h).1 hrange
    have hcol₀ : CollisionFree (calls ops) := by
      rw [calls_append] at hcol
      exact hcol.of_append
    rw [stepsFit_concat hrun]
    rcases ih hrange₀ hcol₀ with ⟨hfits, hplaced⟩ | ⟨hfits, hoffs⟩
    · rcases step_cases h with ⟨c, rfl, hc, rfl, rfl⟩ | ⟨hcalls, rfl, hoff, hblobs, htab, hpool⟩
      · rw [calls_append, calls_addBlob hc] at hcol
        by_cases hfit : StepFits w (.addBlob c)
        · exact Or.inl ⟨⟨hfits, hfit⟩, hplaced.addBlob hw hrange₀ hc hcol hfit⟩
        · exact Or.inr ⟨fun h => hfit h.2, hplaced.not_sameOffsets hw hrange₀ hc hcol hfit⟩
      · have hfit := stepFits_of_calls_eq_nil w hcalls
        have hpl : placements (ops ++ [op]) w' = placements ops w := by
          unfold placements
          rw [calls_append, hcalls, List.append_nil, hblobs]
        obtain ⟨⟨⟨h₁, h₂⟩, h₃⟩, h₄, h₅⟩ := hplaced
        rw [← hpl] at h₁ h₂ h₃ h₄ h₅
        rw [← hpool] at h₂
        rw [← hoff] at h₄
        rw [← htab] at h₅
        rw [List.append_nil]
        exact Or.inl ⟨⟨hfits, hfit⟩, ⟨⟨⟨h₁, h₂⟩, h₃⟩, h₄, h₅⟩⟩
    · exact Or.inr ⟨fun h => hfits h.1, fun hs => hoffs (hs.of_step hw h)⟩

/-- Below 4 GiB every step fits. -/
theorem stepsFit_of_lt {ops : List (Op env)} {w : WriterV2} {log : List Write}
    (hrun : run writerV2New ops = some (w, log)) (hoff : w.ctxOffset < 2 ^ 32)
    (hpool : (poolBytes w.cpool.strings).length ≤ 2 ^ 32) : StepsFit writerV2New ops := by
  refine run_rule (P := fun ops w _ => w.ctxOffset < 2 ^ 32 →
    (poolBytes w.cpool.strings).length ≤ 2 ^ 32 → StepsFit writerV2New ops) ?_ ?_ hrun hoff hpool
  · exact fun _ _ => trivial
  · intro ops w log op w' ws hrun ih h hoff hpool
    have hw := history_of_run hrun
    obtain ⟨hle, hpre⟩ := step_mono hw.pool h
    rw [stepsFit_concat hrun]
    refine ⟨ih (by omega) ((length_poolBytes_le_of_isPrefix hpre).trans hpool), ?_⟩
    rcases step_cases h with ⟨c, rfl, hc, rfl, -⟩ | ⟨hcalls, -⟩
    · intro _
      have hpool' : (poolBytes (poolSection w c).1.cpool.strings).length ≤ 2 ^ 32 := by
        rwa [addBlob_eq hc] at hpool
      obtain ⟨hok, hpre₁, -, -⟩ := constantPoolAdd_spec hw.pool c.name
      obtain ⟨-, hpre₂, -, -⟩ := constantPoolAdd_spec hok c.type
      refine ⟨fun p hp => Or.inl ?_, fun hm => ?_, fun hm => ?_⟩
      · have := hw.table_le _ p hp
        omega
      · exact (poolOffset_lt hm).trans_le
          ((length_poolBytes_le_of_isPrefix (hpre₁.trans hpre₂)).trans hpool')
      · exact (poolOffset_lt hm).trans_le ((length_poolBytes_le_of_isPrefix hpre₂).trans hpool')
    · exact stepFits_of_calls_eq_nil w hcalls

/-- **A run keeps its offsets exact if and only if all its steps fit**, whatever the file contained
before, as long as the data stays in the range of `off_t` and no two different contents of the run
have one checksum. -/
theorem keepsOffsets_iff (prev : Bytes) {ops : List (Op env)} {w : WriterV2} {log : List Write}
    (hrun : run writerV2New ops = some (w, log)) (hrange : w.ctxOffset < 2 ^ 63)
    (hcol : CollisionFree (calls ops)) :
    KeepsOffsets prev ops w log ↔ StepsFit writerV2New ops := by
  rcases placed_or_not_sameOffsets prev hrun hrange hcol with ⟨hfits, hplaced⟩ | ⟨hfits, hoffs⟩
  · exact iff_of_true hplaced.toKeepsOffsets hfits
  · exact iff_of_false (fun h => hoffs h.toSameOffsets) hfits

/-! ## A 4 GiB file in front of two equal blobs -/

/-- The SHA-256 digest of `2 ^ 32` zero bytes. -/
def zerosDigest : Csum :=
  byteArray 32 [132, 121, 228, 57, 17, 220, 69, 232, 159, 147, 79, 228, 141, 1, 41, 126, 22, 245, 29,
    23, 170, 86, 29, 77, 28, 33, 107, 26, 224, 252, 221, 202]

/-- The checksums of the two contents of the runs below, which compress nothing. -/
def zerosEnv : Env where
  sha256 b := if b = [1] then oneDigest else zerosDigest
  compress b := b

/-- The digests of the example. -/
theorem zerosEnv_sha256 (b : Bytes) :
    zerosEnv.sha256 b = if b = [1] then oneDigest else zerosDigest := rfl

/-- Add `2 ^ 32` zero bytes. -/
def zerosCall : AddBlob zerosEnv where
  name := ⟨ascii "zeros", by decide⟩
  file := ⟨List.replicate (2 ^ 32) 0, octetStream, by rw [List.length_replicate]; norm_num⟩
  contentType := none
  flags := .none
  reads := List.replicate (2 ^ 18) (List.replicate (4096 * 4) 0)
  reads_flatten := by
    rw [List.flatten_replicate_replicate]
    rfl
  reads_size := fun _ hp => fullReads_size hp

/-- Add one byte. -/
def oneCall : AddBlob zerosEnv where
  name := ⟨ascii "one", by decide⟩
  file := oneFile
  contentType := none
  flags := .none
  reads := [[1]]
  reads_flatten := rfl
  reads_size := by simp

/-- The call with one byte is accepted. -/
theorem oneCall_accepted : oneCall.Accepted := by decide

/-- The call with 4 GiB of zeros is accepted. -/
theorem zerosCall_accepted : zerosCall.Accepted := by
  unfold AddBlob.Accepted
  decide

/-- The second call stores 4 GiB. -/
theorem length_zerosCall_stored : zerosCall.stored.length = 2 ^ 32 := List.length_replicate

/-- The two contents have different digests. -/
theorem zerosCall_csum_ne : oneCall.csum ≠ zerosCall.csum := by
  have h : zerosCall.stored ≠ [1] := fun h => by
    have := congrArg List.length h
    rw [length_zerosCall_stored] at this
    simp at this
  have h₁ : zerosCall.csum = zerosDigest := (zerosEnv_sha256 _).trans (if_neg h)
  have h₂ : oneCall.csum = oneDigest := (zerosEnv_sha256 _).trans (if_pos rfl)
  rw [h₁, h₂]
  decide +kernel

/-- The run adds `2 ^ 32` zero bytes and then one byte twice. -/
def zerosRun : List (Op zerosEnv) := [.addBlob zerosCall, .addBlob oneCall, .addBlob oneCall]

/-- There is no collision in the run. -/
theorem collisionFree_zerosRun : CollisionFree (calls zerosRun) := by
  have hcalls : calls zerosRun = [zerosCall, oneCall, oneCall] := by
    simp [calls, zerosRun, zerosCall_accepted, oneCall_accepted]
  rw [hcalls]
  intro c hc c' hc' h
  simp only [List.mem_cons, List.not_mem_nil, or_false, or_self] at hc hc'
  rcases hc with rfl | rfl <;> rcases hc' with rfl | rfl
  · rfl
  · exact absurd h.symm zerosCall_csum_ne
  · exact absurd h zerosCall_csum_ne
  · rfl

/-- What the writer knows behind the zeros. -/
theorem afterZeros :
    (addBlob writerV2New zerosCall).1.ctxOffset = 2 ^ 32 + 64 ∧
      (addBlob writerV2New zerosCall).1.csumToDataStart = [(zerosCall.csum, 36)] := by
  constructor
  · rw [addBlob_eq zerosCall_accepted, length_zerosCall_stored]
    rfl
  · rw [addBlob_eq zerosCall_accepted]
    rfl

/-- Behind the zeros the byte is new and gets the place `2 ^ 32 + 64`; the second time the table
gives its place back without the upper half. -/
theorem dataStartOf_afterZeros {w : WriterV2} (hoff : w.ctxOffset = 2 ^ 32 + 64)
    (htab : w.csumToDataStart = [(zerosCall.csum, 36)]) :
    dataStartOf w oneCall = 2 ^ 32 + 64 ∧ dataStartOf (addBlob w oneCall).1 oneCall = 64 ∧
      (addBlob (addBlob w oneCall).1 oneCall).1.ctxOffset < 2 ^ 63 := by
  have hlook : lookupDataStart w oneCall.csum = 0 := by
    rw [lookupDataStart, htab]
    simp [Table.lookup, zerosCall_csum_ne, gpointerToUint]
  have hnew : IsNew w oneCall := hlook
  obtain ⟨w₂, hw₂⟩ : ∃ w₂, w₂ = (addBlob w oneCall).1 := ⟨_, rfl⟩
  have hoff₂ : w₂.ctxOffset = 2 ^ 32 + 96 := by
    rw [hw₂, addBlob_eq oneCall_accepted, hoff, if_pos hnew]
    rfl
  have htab₂ : w₂.csumToDataStart.lookup oneCall.csum = some (2 ^ 32 + 64) := by
    rw [hw₂, addBlob_eq oneCall_accepted, hoff]
    simp only [hnew, if_true, Table.lookup_insert_self]
    rfl
  have hlook₂ : lookupDataStart w₂ oneCall.csum = 64 := by
    rw [lookupDataStart, htab₂]
    rfl
  have hold₂ : ¬ IsNew w₂ oneCall := by
    rw [IsNew, hlook₂]
    omega
  have hoff₃ : (addBlob w₂ oneCall).1.ctxOffset = 2 ^ 32 + 96 := by
    rw [addBlob_eq oneCall_accepted, if_neg hold₂, hoff₂]
  rw [← hw₂, hoff₃]
  refine ⟨?_, ?_, by omega⟩
  · rw [dataStartOf_eq_ite, hlook, if_pos rfl, hoff]
  · rw [dataStartOf_eq_ite, hlook₂, if_neg (by omega)]

/-- The one byte lies at `2 ^ 32 + 64`; the entry of its second copy says 64. -/
theorem zerosRun_not_keepsOffsets :
    ∃ w log, run writerV2New zerosRun = some (w, log) ∧ w.ctxOffset < 2 ^ 63 ∧
      CollisionFree (calls zerosRun) ∧ ¬ KeepsOffsets [] zerosRun w log := by
  obtain ⟨hoff, htab⟩ := afterZeros
  have hrun₁ : run writerV2New [.addBlob zerosCall] = _ := run_addBlob rfl
  have hw := history_of_run hrun₁
  obtain ⟨log, hrun⟩ : ∃ log, run writerV2New zerosRun =
      some ((addBlob (addBlob (addBlob writerV2New zerosCall).1 oneCall).1 oneCall).1, log) :=
    ⟨_, run_addBlob (run_addBlob (run_addBlob rfl))⟩
  revert hrun hw htab hoff
  generalize (addBlob writerV2New zerosCall).1 = w
  intro hoff htab hw hrun
  obtain ⟨h₁, h₂, hlt⟩ := dataStartOf_afterZeros hoff htab
  refine ⟨_, log, hrun, hlt, collisionFree_zerosRun, fun h => ?_⟩
  have hstep : step w (.addBlob oneCall) = _ := rfl
  have hw₂ := hw.step hstep
  have hd := h.dataStart
  rw [show zerosRun = [.addBlob zerosCall] ++ [.addBlob oneCall] ++ [.addBlob oneCall] from rfl,
    placements_addBlob hw₂ oneCall_accepted, placements_addBlob hw oneCall_accepted] at hd
  have := (List.pairwise_append.mp hd).2.2 _ (List.mem_append_right _ (List.mem_singleton_self _)) _
    (List.mem_singleton_self _) rfl
  simp only [AddBlob.placed, h₁, h₂] at this
  omega

/-- Two equal blobs at the start of a shard. -/
def onesRun : List (Op zerosEnv) := [.addBlob oneCall, .addBlob oneCall]

/-- The run of two equal blobs keeps its offsets. -/
theorem keepsOffsets_iff_onesRun :
    ∃ w log, run writerV2New onesRun = some (w, log) ∧ KeepsOffsets [] onesRun w log ∧
      w.blobs.map (·.sblob.dataStart) = [36, 36] := by
  have hrun : run writerV2New onesRun = some ((addBlob (addBlob writerV2New oneCall).1 oneCall).1,
      [⟨36, [1]⟩]) := by decide +kernel
  have hcol : CollisionFree (calls onesRun) := by
    rintro c hc c' hc' -
    have hcalls : calls onesRun = [oneCall, oneCall] := by
      simp [calls, onesRun, oneCall_accepted]
    rw [hcalls] at hc hc'
    simp only [List.mem_cons, List.not_mem_nil, or_false, or_self] at hc hc'
    rw [hc, hc']
  refine ⟨_, _, hrun, (keepsOffsets_iff [] hrun (by decide +kernel) hcol).mpr ⟨fun _ => ?_, ?_⟩,
    by decide +kernel⟩
  · exact ⟨fun p hp => by simp [writerV2New] at hp, by decide +kernel, by decide +kernel⟩
  · intro w ws hw
    simp only [step, Option.some.injEq, Prod.mk.injEq] at hw
    obtain ⟨rfl, -⟩ := hw
    refine ⟨fun _ => ⟨fun p hp => Or.inl ?_, by decide +kernel, by decide +kernel⟩, fun _ _ _ => trivial⟩
    have : (addBlob writerV2New oneCall).1.csumToDataStart.lookup oneCall.csum = some 36 := by
      decide +kernel
    rw [this] at hp
    cases hp
    decide

end EosShard.V2
