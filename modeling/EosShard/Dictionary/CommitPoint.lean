import EosShard.Dictionary.Lookup

/-!
# The header of a dictionary is its commit point

The dictionary writer leaves room for the header and writes it last. Until then the start of the file is
a hole, and a dictionary that was cut off in front of any of its writes, or that `finish` has refused, is
turned away when it is opened.

* `newForFd_of_zeros`: a file that starts with zeros is not opened.
* `startsBehind_of_addEntries`, `startsBehind_of_finish`: all writes but the last are behind the header.
* `dictionaryCommits`: **the header is the commit point** of every run of calls on an empty file.
-/

namespace EosShard.Dictionary

open EosShard.Found

/-! ## A file without a header -/

/-- A file that has bytes behind the place of the header, and zeros there, is not opened. -/
theorem newForFd_of_zeros {heap : Heap} {fd : Bytes} (hlen : DictionaryHeader.sizeof ≤ fd.length)
    (hzeros : ZerosBelow DictionaryHeader.sizeof fd) :
    newForFd heap fd 0 = .error dictionaryCorrupt := by
  have hread : overlay (heap DictionaryHeader.sizeof).toList (slice fd 0 DictionaryHeader.sizeof) =
      slice fd 0 DictionaryHeader.sizeof := by
    apply overlay_full
    rw [List.Vector.toList_length, slice, List.drop_zero, List.length_take, min_eq_left hlen]
  have hmagic : (DictionaryHeader.ofBytes (slice fd 0 DictionaryHeader.sizeof)).magic ≠ magic := by
    intro h
    -- the first letter of the magic would be 0
    have hfirst : (slice (slice fd 0 DictionaryHeader.sizeof) 0 8)[0]? = some 68 :=
      congrArg (fun bs : Bytes => bs[0]?) h
    rw [getElem?_slice, if_pos (by norm_num), getElem?_slice, if_pos (by norm_num)] at hfirst
    exact absurd (hzeros 0 _ (by norm_num) hfirst) (by decide)
  simp only [newForFd, dictionaryOpen, pread_eq (show 0 < 2 ^ 63 by norm_num), Option.getD_some,
    hread, if_neg hmagic]

/-- Writes behind the header, the first one with data, leave such a file wherever they are cut off. -/
theorem newForFd_of_writesFrom {heap : Heap} {x : Write} {ws : List Write}
    (h : WritesFrom DictionaryHeader.sizeof (x :: ws)) (hdata : x.data ≠ []) {k : ℕ} (hk : 0 < k) :
    newForFd heap (applyWrites [] ((x :: ws).take k)) 0 = .error dictionaryCorrupt := by
  obtain ⟨k, rfl⟩ := Nat.exists_eq_succ_of_ne_zero hk.ne'
  apply newForFd_of_zeros
  · have hoff := h x List.mem_cons_self
    have hlen : (pwrite [] x.data x.off).length = max 0 (x.off + x.data.length) := length_pwrite hdata
    rw [List.take_succ_cons, applyWrites_cons]
    refine le_trans ?_ (le_length_applyWrites _ _)
    omega
  · exact (zerosBelow_nil _).applyWrites fun w hw => h w (List.mem_of_mem_take hw)

/-! ## Where the writer writes -/

/-- The writes start at `lo` or later, and the first one has data. -/
structure StartsBehind (lo : ℕ) (ws : List Write) : Prop where
  from_lo : WritesFrom lo ws
  data : ∀ x ∈ ws.head?, x.data ≠ []

/-- Without writes no write starts in front of a position. -/
theorem startsBehind_nil (lo : ℕ) : StartsBehind lo [] where
  from_lo := List.forall_mem_nil _
  data _ hx := by cases hx

/-- Writes behind a position, and others behind one that is not smaller. -/
theorem StartsBehind.append {lo lo' : ℕ} {ws ws' : List Write} (h : StartsBehind lo ws)
    (h' : StartsBehind lo' ws') (hle : lo ≤ lo') : StartsBehind lo (ws ++ ws') where
  from_lo := h.from_lo.append (h'.from_lo.mono hle)
  data x hx := by
    cases ws with
    | nil => exact h'.data x hx
    | cons w ws => exact h.data x hx

/-- One call of `add_entry` writes at the position of the stream. -/
theorem startsBehind_of_step {w w' : DictionaryWriter} {e : Entry} {ws : List Write}
    (h : step w e = .ok (w', ws)) : w.tell ≤ w'.tell ∧ StartsBehind w.tell ws := by
  unfold step addEntry at h
  rcases hkey : w.lastKey.filter fun lastKey => e.key < lastKey with _ | lastKey
  · simp only [hkey] at h
    by_cases hl : w.blockLength = 0
    · simp only [hl, if_true] at h
      cases h
    · rcases hadd : bloomFilterAdd w.bloomFilter e.key with failure | bloomFilter
      · simp only [hl, if_false, hadd, Except.map] at h
        cases failure with
        | gerror error =>
            cases h
            exact ⟨le_refl _, startsBehind_nil _⟩
        | abort => cases h
      · simp only [hl, if_false, hadd, Except.map] at h
        cases h
        refine ⟨(Nat.le_add_right _ _).trans (Nat.le_add_right _ _), writesFrom_seqWrites _ _, ?_⟩
        intro x hx
        cases hx
        exact CString.toBytes_ne_nil _
  · simp only [hkey, outOfOrder] at h
    cases h
    exact ⟨le_refl _, startsBehind_nil _⟩

/-- So does a run of calls. -/
theorem startsBehind_of_addEntries {w w' : DictionaryWriter} {es : List Entry} {ws : List Write}
    (h : addEntries w es = .ok (w', ws)) : w.tell ≤ w'.tell ∧ StartsBehind w.tell ws := by
  induction es generalizing w ws with
  | nil =>
      cases h
      exact ⟨le_refl _, startsBehind_nil _⟩
  | cons e es ih =>
      rw [addEntries] at h
      rcases hstep : step w e with failure | ⟨w₁, ws₁⟩
      · rw [hstep] at h
        cases h
      · rcases hrun : addEntries w₁ es with failure | ⟨w₂, ws₂⟩
        · rw [hstep] at h
          change (addEntries w₁ es >>= _) = _ at h
          rw [hrun] at h
          cases h
        · rw [hstep] at h
          change (addEntries w₁ es >>= _) = _ at h
          rw [hrun] at h
          cases h
          obtain ⟨hle₁, h₁⟩ := startsBehind_of_step hstep
          obtain ⟨hle₂, h₂⟩ := ih hrun
          exact ⟨hle₁.trans hle₂, h₁.append h₂ hle₁⟩

/-- `finish` writes the table and the filter behind the entries, and then the header. -/
theorem startsBehind_of_finish {w w' : DictionaryWriter} {ws : List Write}
    (h : finish w = .ok (w', ws)) : ∃ ws₁ header, ws = ws₁ ++ [header] ∧ ws₁ ≠ [] ∧
      StartsBehind w.tell ws₁ := by
  unfold finish at h
  split_ifs at h
  cases h
  refine ⟨_, _, rfl, by simp [seqWrites], writesFrom_seqWrites _ _, fun x hx => ?_⟩
  cases hx
  simp [le]

/-! ## The commit point -/

section commit

variable {n : ℕ} {params : BloomFilterHeader} {es : List Entry} {w : DictionaryWriter}
  {ws : List Write}

/-- The writer after a run of calls. -/
theorem writerAfter_of_addEntries (hparams : params.Ok)
    (hrun : addEntries (beginEntries (newForStream n params)) es = .ok (w, ws)) :
    (n = 0 → accepted none es = []) ∧ WriterAfter n params [] (accepted none es) w ws := by
  have hbegin := writerAfter_beginEntries (n := n) hparams []
  rcases Nat.eq_zero_or_pos n with h0 | hpos
  · subst h0
    obtain rfl := eq_nil_of_addEntries rfl rfl hrun
    cases hrun
    exact ⟨fun _ => rfl, hbegin⟩
  · obtain ⟨w', ws', hrun', hafter⟩ := hbegin.addEntries hpos es
    rw [hrun] at hrun'
    cases hrun'
    exact ⟨fun h0 => absurd h0 hpos.ne', hafter⟩

/-- A file without a header is not a dictionary. -/
theorem newForFd_of_startsBehind {heap : Heap} (h : StartsBehind DictionaryHeader.sizeof ws) {k : ℕ}
    (hk : 0 < k) (hne : ws ≠ []) :
    newForFd heap (applyWrites [] (ws.take k)) 0 = .error dictionaryCorrupt := by
  obtain ⟨x, ws, rfl⟩ := List.exists_cons_of_ne_nil hne
  exact newForFd_of_writesFrom h.from_lo (h.data x rfl) hk

/-- **The header is the commit point.** Take any run of `add_entry` calls on an empty file. What it has
written is not opened, wherever it is cut off behind its first write. If not as many entries were
accepted as were declared, `finish` fails and writes nothing, so it stays that way. Otherwise `finish`
succeeds; cut off in front of its last write the file is still not opened, and the complete file is the
dictionary of the accepted entries. -/
theorem dictionaryCommits (hparams : params.Ok) (hn : n < 2 ^ 31)
    (hrun : addEntries (beginEntries (newForStream n params)) es = .ok (w, ws)) :
    (∀ heap k, 0 < k → ws ≠ [] →
      newForFd heap (applyWrites [] (ws.take k)) 0 = .error dictionaryCorrupt) ∧
    ((accepted none es).length ≠ n → ∃ failure, finish w = .error failure) ∧
    ((accepted none es).length = n → ∃ w' ws', finish w = .ok (w', ws') ∧
      (∀ heap k, 0 < k → k < (ws ++ ws').length →
        newForFd heap (applyWrites [] ((ws ++ ws').take k)) 0 = .error dictionaryCorrupt) ∧
      ((applyWrites [] (ws ++ ws')).length < 2 ^ 63 →
        ∃ d, (∀ heap, newForFd heap (applyWrites [] (ws ++ ws')) 0 = .ok d) ∧
          Stored params (ceilSqrt n) (accepted none es) d)) := by
  obtain ⟨hle, hbehind⟩ := startsBehind_of_addEntries hrun
  have hstart : (beginEntries (newForStream n params)).tell = DictionaryHeader.sizeof := rfl
  rw [hstart] at hle hbehind
  obtain ⟨hnil, hafter⟩ := writerAfter_of_addEntries hparams hrun
  refine ⟨fun heap k hk hne => newForFd_of_startsBehind hbehind hk hne, fun hcount => ?_,
    fun hcount => ?_⟩
  · rcases hfinish : finish w with failure | ⟨w', ws'⟩
    · exact ⟨failure, rfl⟩
    · exact absurd (hafter.length_of_finish hnil hn hfinish) hcount
  · obtain ⟨w', hfinish⟩ := hafter.finish_eq hn hcount
    obtain ⟨ws₁, header, hsplit, hne, hbehind₁⟩ := startsBehind_of_finish hfinish
    refine ⟨w', _, hfinish, fun heap k hk hlt => ?_, fun hlt => ?_⟩
    · have hall := hbehind.append hbehind₁ hle
      rw [hsplit, ← List.append_assoc] at hlt ⊢
      rw [List.length_append, List.length_singleton] at hlt
      rw [List.take_append_of_le_length (by omega)]
      exact newForFd_of_startsBehind hall hk fun hnil => hne (List.append_eq_nil_iff.mp hnil).2
    · have hwhole : ∀ b : Bytes, [] ++ b ++ [] = b := fun b => by rw [List.nil_append, List.append_nil]
      rw [← hwhole (applyWrites _ _)] at hlt ⊢
      exact stored_of_written (hafter.written hcount) hlt

end commit

/-- The dictionary of two words. -/
theorem dictionaryCommits_words : ∃ w ws w' ws',
    addEntries (beginEntries (newForStream 2 wordsParams)) wordsEntries = .ok (w, ws) ∧
      finish w = .ok (w', ws') ∧
      (∀ heap k, 0 < k → k < (ws ++ ws').length →
        newForFd heap (applyWrites [] ((ws ++ ws').take k)) 0 = .error dictionaryCorrupt) ∧
      ∃ d, (∀ heap, newForFd heap (applyWrites [] (ws ++ ws')) 0 = .ok d) ∧
        Stored wordsParams (ceilSqrt 2) (accepted none wordsEntries) d := by
  obtain ⟨w, ws, w', ws', hrun, hfinish, hlog⟩ := writeDictionary_eq_ok_iff.mp writeDictionary_words
  have hlt : (applyWrites [] wordsLog).length < 2 ^ 63 := by decide +kernel
  obtain ⟨-, -, hcommits⟩ := dictionaryCommits wordsParams_ok (by decide) hrun
  obtain ⟨w₂, ws₂, hfinish₂, hbefore, hafter⟩ := hcommits (by decide)
  rw [hfinish] at hfinish₂
  cases hfinish₂
  exact ⟨w, ws, w', ws', hrun, hfinish, hbefore, hafter (hlog ▸ hlt)⟩

end EosShard.Dictionary
