import EosShard.V1.RoundTrip
import EosShard.V2.RoundTrip

/-!
# The name a record is filed under

`add_record` converts the name it is given and does not look at whether the conversion succeeds. A name
that is rejected leaves a prefix in a zeroed buffer, and the record is filed under that: it is in the
shard, but no search under its own name finds it.

* `FoundUnder` is what a finished shard answers to a name.
* `recordFiled_iff`: **a record is filed under its name, or not at all, exactly if the conversion
  accepts the name**, in every run of either writer, whatever else is added before and after.
* `badName_misfiled`: a name whose last character is no digit.
-/

namespace EosShard

open EosShard.Found

variable {env : Env}

/-! ## What is meant -/

/-- The file opens as a shard in which a search under the name finds a record. -/
def FoundUnder (gv : V1.GVariantFormat) (heap : Heap) (stack : RawName) (f : Bytes)
    (hexName : CString) : Prop :=
  ∃ impl, detectVersion gv heap f = .ok impl ∧ (findRecordByHexName impl stack hexName).isSome = true

/-- Nothing is found under a name that is not accepted. -/
theorem FoundUnder.acceptedName {gv : V1.GVariantFormat} {heap : Heap} {stack : RawName} {f : Bytes}
    {hexName : CString} (h : FoundUnder gv heap stack f hexName) : AcceptedName hexName := by
  obtain ⟨impl, -, hfound⟩ := h
  by_contra hrejected
  rw [findRecordByHexName_eq, if_neg hrejected] at hfound
  cases hfound

/-! ## The two writers -/

/-- Every raw name of a V2 run is found. -/
theorem V2.foundUnder {gv : V1.GVariantFormat} {heap : Heap} {stack : RawName} (prev : Bytes)
    {ops : List (V2.Op env)} {w : V2.WriterV2} {log : List Write}
    (hrun : V2.run V2.writerV2New ops = some (w, log)) (hend : V2.shardEnd w < 2 ^ 63)
    (hrec : (V2.recordNames ops).length * V2.Record.sizeof < 2 ^ 31) {hexName name : CString}
    (hname : name ∈ V2.recordNames ops) (hacc : AcceptedName hexName)
    (hraw : rawNameOf hexName = rawNameOf name) :
    FoundUnder gv heap stack (applyWrites prev (log ++ V2.finish w)) hexName := by
  have h := V2.filed_finish prev hrun hend
  rw [← h.length_records] at hrec
  refine ⟨.v2 (V2.implOf (applyWrites prev (log ++ V2.finish w)) w), ?_, ?_⟩
  · rw [h.laidOut.detectVersion_eq, h.laidOut.implV2New hend hrec]
    rfl
  · have hfound := mt (h.findRecordByRawName_eq_none_iff h.laidOut.loaded_implOf _).mp
      fun hnone => hnone name hname hraw.symm
    rw [findRecordByHexName_eq, if_pos hacc]
    unfold EosShard.findRecordByRawName
    rw [Option.isSome_map, Option.isSome_iff_ne_none]
    exact hfound

/-- The records of a V1 run are those of its `add_record` calls. -/
theorem V1.mem_sections {ops : List (V1.Op env)} {hexName : CString}
    (h : V1.Op.addRecord hexName ∈ ops) : ∃ r ∈ (V1.sections ops).2, r.1 = hexName := by
  induction ops with
  | nil => cases h
  | cons op ops ih =>
      cases op with
      | addRecord hexName' =>
          rcases List.mem_cons.mp h with he | h
          · cases he
            exact ⟨_, List.mem_cons_self, rfl⟩
          · obtain ⟨r, hr, hrname⟩ := ih h
            exact ⟨r, List.mem_cons_of_mem _ hr, hrname⟩
      | addBlob c =>
          rcases List.mem_cons.mp h with he | h
          · cases he
          · exact ih h

/-- Every raw name of a V1 run is found. -/
theorem V1.foundUnder {gv : V1.GVariantFormat} (hgv : gv.Lawful) {heap : Heap} {stack : RawName}
    (prev : Bytes) {ops : List (V1.Op env)} {w w' : V1.WriterV1 env} {log : List Write}
    (hrun : V1.run V1.writerV1New ops = some w) (hwrite : V1.writeToFd gv w = some (w', log))
    (hutf8 : ∀ c, V1.Op.addBlob c ∈ ops → V1.utf8Validate c.type.chars = true)
    {hexName name : CString} (hname : V1.Op.addRecord name ∈ ops) (hacc : AcceptedName hexName)
    (hraw : rawNameOf hexName = rawNameOf name) :
    FoundUnder gv heap stack (applyWrites prev log) hexName := by
  have h := V1.finished_of_run hgv prev hrun hwrite hutf8
  refine ⟨_, h.detectVersion hgv heap, ?_⟩
  obtain ⟨r, hr, hrname⟩ := V1.mem_sections hname
  have hfound := mt (h.findRecordByRawName_eq_none_iff (rawNameOf hexName)).mp
    fun hnone => hnone r hr (by rw [hrname, hraw])
  rw [findRecordByHexName_eq, if_pos hacc]
  unfold EosShard.findRecordByRawName
  rw [Option.isSome_map, Option.isSome_iff_ne_none]
  exact hfound

/-- **A record is filed under its name, or not at all, exactly if the conversion accepts the name.**
Let a run of either writer call `add_record` with `hexName`, with any other calls before and after, on
top of any previous contents of the file. If the call has left the records as they were or the finished
shard has a record that a search under `hexName` finds, then the conversion accepts `hexName`; and if it
does, then the finished shard has one, as long as there is a finished shard that opens. -/
theorem recordFiled_iff {gv : V1.GVariantFormat} (hgv : gv.Lawful) (heap : Heap) (stack : RawName)
    (prev : Bytes) (hexName : CString) :
    (∀ (before after : List (V2.Op env)) (w₀ w : V2.WriterV2) (log₀ log : List Write),
      V2.run V2.writerV2New before = some (w₀, log₀) →
      V2.run V2.writerV2New (before ++ .addRecord hexName :: after) = some (w, log) →
        ((V2.addRecord w₀ hexName).1.records = w₀.records ∨
            FoundUnder gv heap stack (applyWrites prev (log ++ V2.finish w)) hexName →
          AcceptedName hexName) ∧
        (V2.shardEnd w < 2 ^ 63 → w.records.length * V2.Record.sizeof < 2 ^ 31 →
          AcceptedName hexName →
            FoundUnder gv heap stack (applyWrites prev (log ++ V2.finish w)) hexName)) ∧
      ∀ (before after : List (V1.Op env)) (w₀ w w' : V1.WriterV1 env) (log : List Write),
        V1.run V1.writerV1New before = some w₀ →
        V1.run V1.writerV1New (before ++ .addRecord hexName :: after) = some w →
        V1.writeToFd gv w = some (w', log) →
          ((V1.addRecord w₀ hexName).entries = w₀.entries ∨
              FoundUnder gv heap stack (applyWrites prev log) hexName → AcceptedName hexName) ∧
          ((∀ c, V1.Op.addBlob c ∈ before ++ .addRecord hexName :: after →
              V1.utf8Validate c.type.chars = true) →
            AcceptedName hexName → FoundUnder gv heap stack (applyWrites prev log) hexName) := by
  constructor
  · intro before after w₀ w log₀ log _ hrun
    constructor
    · rintro (hsame | hfound)
      · unfold V2.addRecord at hsame
        simp at hsame
      · exact hfound.acceptedName
    · intro hend hrec hacc
      have hlen := (V2.filed_finish prev hrun hend).length_records
      have hname : hexName ∈ V2.recordNames (before ++ .addRecord hexName :: after) := by
        rw [V2.recordNames_append]
        exact List.mem_append_right _ List.mem_cons_self
      exact V2.foundUnder prev hrun hend (hlen ▸ hrec) hname hacc rfl
  · intro before after w₀ w w' log _ hrun hwrite
    constructor
    · rintro (hsame | hfound)
      · unfold V1.addRecord at hsame
        simp at hsame
      · exact hfound.acceptedName
    · intro hutf8 hacc
      exact V1.foundUnder hgv prev hrun hwrite hutf8
        (List.mem_append_right _ List.mem_cons_self) hacc rfl

/-- The first record of each of the two archives. -/
theorem recordFiled_iff_archiveRun :
    ∃ w log w₁ w₁' log₁, V2.run V2.writerV2New V2.archiveRun = some (w, log) ∧
      V1.run V1.writerV1New V1.archiveRun = some w₁ ∧
      V1.writeToFd V1.gvariant w₁ = some (w₁', log₁) ∧ ∀ heap stack,
        FoundUnder V1.gvariant heap stack (applyWrites [] (log ++ V2.finish w))
          lastName ∧
        FoundUnder V1.gvariant heap stack (applyWrites [] log₁)
          lastName := by
  obtain ⟨w, log, impl, h⟩ := V2.exists_sample V2.archiveRun (by decide +kernel)
  obtain ⟨w₁, w₁', log₁, hrun₁, hwrite₁, -⟩ := V1.written_archiveRun
  have hrec : w.records.length * V2.Record.sizeof < 2 ^ 31 := by
    rw [h.filed.length_records]
    decide
  refine ⟨w, log, w₁, w₁', log₁, h.run, hrun₁, hwrite₁, fun heap stack => ?_⟩
  obtain ⟨h₂, h₁⟩ := recordFiled_iff V1.gvariant_lawful heap stack []
    lastName
  exact ⟨(h₂ [] _ _ w _ log rfl h.run).2 h.end_lt hrec (by decide),
    (h₁ [] _ _ w₁ w₁' log₁ rfl hrun₁ hwrite₁).2 (fun c hc => (V1.callsOk_archiveRun c hc).1) (by decide)⟩

/-! ## A name that is rejected -/

/-- Forty characters, the last of which is no digit. -/
def badName : CString := ⟨ascii "0123456789abcdef0123456789abcdef0123456g", by decide⟩

/-- The name of the raw name that is left in the buffer. -/
def leftName : CString := ⟨ascii "0123456789abcdef0123456789abcdef01234500", by decide⟩

/-- Both writers append a record for the bad name. It is not found under that name, but under another
one, which nobody has added. -/
theorem badName_misfiled :
    ∃ w log w₁ w₁' log₁,
      V2.run V2.writerV2New [(.addRecord badName : V2.Op smallEnv)] = some (w, log) ∧
      V1.run V1.writerV1New [(.addRecord badName : V1.Op smallEnv)] = some w₁ ∧
      V1.writeToFd V1.gvariant w₁ = some (w₁', log₁) ∧
      (V2.addRecord V2.writerV2New badName).1.records ≠ V2.writerV2New.records ∧
      (V1.addRecord (V1.writerV1New : V1.WriterV1 smallEnv) badName).entries ≠
        V1.writerV1New.entries ∧
      ∀ heap stack, ¬ FoundUnder V1.gvariant heap stack (applyWrites [] (log ++ V2.finish w)) badName ∧
        ¬ FoundUnder V1.gvariant heap stack (applyWrites [] log₁) badName ∧
        FoundUnder V1.gvariant heap stack (applyWrites [] (log ++ V2.finish w)) leftName ∧
        FoundUnder V1.gvariant heap stack (applyWrites [] log₁) leftName := by
  obtain ⟨w, log, impl, h⟩ := V2.exists_sample [(.addRecord badName : V2.Op smallEnv)]
    (by decide +kernel)
  have hsome : (V1.writeToFd V1.gvariant
      (V1.addRecord (V1.writerV1New : V1.WriterV1 smallEnv) badName)).isSome = true := by
    decide +kernel
  obtain ⟨⟨w₁', log₁⟩, hwrite₁⟩ := Option.isSome_iff_exists.mp hsome
  have hrun₁ : V1.run V1.writerV1New [(.addRecord badName : V1.Op smallEnv)] =
      some (V1.addRecord V1.writerV1New badName) := rfl
  have hraw : rawNameOf leftName = rawNameOf badName := by decide
  refine ⟨w, log, _, w₁', log₁, h.run, hrun₁, hwrite₁, by decide, fun he => ?_, fun heap stack => ?_⟩
  · exact absurd (congrArg List.length he) (by decide)
  · refine ⟨fun hfound => absurd hfound.acceptedName (by decide),
      fun hfound => absurd hfound.acceptedName (by decide), ?_, ?_⟩
    · exact V2.foundUnder [] h.run h.end_lt (by decide) List.mem_cons_self (by decide) hraw
    · exact V1.foundUnder V1.gvariant_lawful [] hrun₁ hwrite₁ (fun c hc => by simp at hc)
        List.mem_cons_self (by decide) hraw

end EosShard
