import EosShard.Found.Extents

/-!
# Writes that are cut short

A call of `pwrite` may transfer fewer bytes than it is asked for. A `Transfer` is a write together with
the number of bytes that get into the file; `Transfer.done` is the write of these bytes.

* `getElem?_applyWrites_of_untouched`: where none of the writes goes, the file has its old byte, or a
  zero in a hole.
* `applyWrites_done_eq_iff`: **when the bytes that are left out do not matter**.
* `applyWrites_seqWrites`: consecutive writes are one write, so how data is cut into writes does not
  matter; `cutInto` is one way to do it.
-/

namespace EosShard.Found

/-! ## Where no write goes -/

/-- What is at a position to which no write goes: the old byte, or a zero in a hole in front of a
write. -/
def untouched (prev : Bytes) (ws : List Write) (p : ℕ) : Option UInt8 :=
  if p < prev.length then prev[p]?
  else if ∃ x ∈ ws, x.data ≠ [] ∧ p < x.off then some 0 else none

/-- Without writes the position has what was there. -/
theorem untouched_nil (prev : Bytes) (p : ℕ) : untouched prev [] p = prev[p]? := by
  unfold untouched
  split_ifs with hp hex
  · rfl
  · obtain ⟨x, hx, -⟩ := hex
    cases hx
  · exact (List.getElem?_eq_none (not_lt.mp hp)).symm

/-- One write that misses the position. -/
theorem untouched_cons {prev : Bytes} {x : Write} {ws : List Write} {p : ℕ}
    (h : p ∉ positions x.extent) :
    untouched (pwrite prev x.data x.off) ws p = untouched prev (x :: ws) p := by
  unfold untouched
  simp only [List.exists_mem_cons_iff]
  by_cases hd : x.data = []
  · simp only [hd, pwrite_nil, ne_eq, not_true_eq_false, false_and, false_or]
  · have hmiss : p < x.off ∨ x.off + x.data.length ≤ p := by
      by_contra hc
      push Not at hc
      exact h ⟨hc.1, hc.2⟩
    rw [length_pwrite hd, getElem?_pwrite hd]
    rcases hmiss with hlt | hle
    · have hpos := List.length_pos_iff.mpr hd
      rw [if_pos (by omega), if_pos hlt, if_pos (Or.inl ⟨hd, hlt⟩)]
    · have hiff : (x.data ≠ [] ∧ p < x.off ∨ ∃ y ∈ ws, y.data ≠ [] ∧ p < y.off) ↔
          ∃ y ∈ ws, y.data ≠ [] ∧ p < y.off := or_iff_right fun hc => by omega
      have hlen : p < max prev.length (x.off + x.data.length) ↔ p < prev.length := by omega
      simp only [hiff, hlen]
      rw [if_neg (by omega : ¬ p < x.off), if_neg (by omega : ¬ p < x.off + x.data.length)]

/-- **A position that all writes miss**. -/
theorem getElem?_applyWrites_of_untouched {prev : Bytes} {ws : List Write} {p : ℕ}
    (h : ∀ x ∈ ws, p ∉ positions x.extent) : (applyWrites prev ws)[p]? = untouched prev ws p := by
  induction ws generalizing prev with
  | nil => exact (untouched_nil prev p).symm
  | cons x ws ih =>
      obtain ⟨hx, hws⟩ := List.forall_mem_cons.mp h
      rw [applyWrites_cons, ih hws, untouched_cons hx]

/-! ## Transfers -/

/-- A call that transfers the first `count` bytes of what it is asked for, at least one. -/
structure Transfer where
  write : Write
  count : ℕ
  pos : write.data ≠ [] → 0 < count
  le : count ≤ write.data.length

/-- What gets into the file. -/
def Transfer.done (t : Transfer) : Write := ⟨t.write.off, t.write.data.take t.count⟩

/-- The bytes that are left out are already there. -/
def Transfer.KeepsTail (t : Transfer) (prev : Bytes) (ws : List Write) : Prop :=
  ∀ j, t.count ≤ j → j < t.write.data.length →
    untouched prev ws (t.write.off + j) = t.write.data[j]?

/-- As much is written as is transferred. -/
theorem Transfer.length_done (t : Transfer) : t.done.data.length = t.count := by
  rw [done, List.length_take, Nat.min_eq_left t.le]

/-- A call that transfers one byte. -/
def Transfer.firstByte (x : Write) : Transfer where
  write := x
  count := min 1 x.data.length
  pos h := lt_min Nat.one_pos (List.length_pos_iff.mpr h)
  le := min_le_right _ _

/-- Nothing is lost of a write that is in the file already. -/
theorem Transfer.keepsTail_of_holds {t : Transfer} {prev : Bytes}
    (h : Holds prev t.write.off t.write.data) (ws : List Write) : t.KeepsTail prev ws := by
  intro j _ hj
  have hbyte := holds_iff_getElem?.mp h j hj
  have hin : t.write.off + j < prev.length := by
    by_contra hout
    rw [List.getElem?_eq_none (not_lt.mp hout), eq_comm, List.getElem?_eq_none_iff] at hbyte
    omega
  rw [untouched, if_pos hin, hbyte]

variable {prev : Bytes} {ts : List Transfer}

/-- Parts of writes that are apart are apart. -/
theorem apartWrites_done (h : ApartWrites (ts.map Transfer.write)) :
    ApartWrites (ts.map Transfer.done) := by
  refine List.pairwise_map.mpr ((List.pairwise_map.mp h).imp fun {t t'} hap => ?_)
  have hle := t.le
  have hle' := t'.le
  rw [t.length_done, t'.length_done]
  exact hap.imp (fun h => (Nat.add_le_add_left hle _).trans h)
    fun h => (Nat.add_le_add_left hle' _).trans h

/-- A transfer leaves the same hole as a full one. -/
theorem untouched_done (p : ℕ) :
    untouched prev (ts.map Transfer.done) p = untouched prev (ts.map Transfer.write) p := by
  have hne : ∀ t : Transfer, t.done.data ≠ [] ↔ t.write.data ≠ [] := by
    intro t
    rw [← List.length_pos_iff, t.length_done]
    exact ⟨fun h => List.length_pos_iff.mp (h.trans_le t.le), t.pos⟩
  unfold untouched
  simp only [List.mem_map, exists_exists_and_eq_and, hne]
  rfl

/-- The tail of a transfer is missed by all. -/
theorem tail_untouched (h : ApartWrites (ts.map Transfer.write)) : ∀ t ∈ ts, ∀ t' ∈ ts,
    ∀ j, t.count ≤ j → j < t.write.data.length → t.write.off + j ∉ positions t'.done.extent := by
  have hap := List.pairwise_map.mp h
  have hmiss : ∀ {t t' : Transfer},
      Apart t.write.off t.write.data.length t'.write.off t'.write.data.length →
      ∀ j, t.count ≤ j → j < t.write.data.length → t.write.off + j ∉ positions t'.done.extent := by
    intro t t' hap j _ hlt hmem
    have hlo : t'.write.off ≤ t.write.off + j := hmem.1
    have hhi : t.write.off + j < t'.write.off + t'.done.data.length := hmem.2
    have hle := t'.le
    rw [t'.length_done] at hhi
    rcases hap with hap | hap
    · omega
    · omega
  refine List.Pairwise.forall_of_forall_of_flip (fun t _ j hle _ hmem => ?_) (hap.imp hmiss)
    (hap.imp fun hap => hmiss hap.symm)
  have hhi : t.write.off + j < t.write.off + t.done.data.length := hmem.2
  rw [t.length_done] at hhi
  omega

/-- **When writes that are cut short leave the same file**: if all that is left out is there already. -/
theorem applyWrites_done_eq_iff (h : ApartWrites (ts.map Transfer.write)) :
    applyWrites prev (ts.map Transfer.done) = applyWrites prev (ts.map Transfer.write) ↔
      ∀ t ∈ ts, t.KeepsTail prev (ts.map Transfer.write) := by
  -- both files, at the places of a write
  have hfull : ∀ t ∈ ts, ∀ j < t.write.data.length,
      (applyWrites prev (ts.map Transfer.write))[t.write.off + j]? = t.write.data[j]? :=
    fun t ht => holds_iff_getElem?.mp (holds_applyWrites_of_mem prev h (List.mem_map_of_mem ht))
  have hdone : ∀ t ∈ ts, ∀ j < t.count,
      (applyWrites prev (ts.map Transfer.done))[t.write.off + j]? = t.write.data[j]? := by
    intro t ht j hj
    have hheld := holds_applyWrites_of_mem prev (apartWrites_done h)
      (List.mem_map_of_mem ht)
    rw [holds_iff_getElem?, t.length_done] at hheld
    exact (hheld j hj).trans (List.getElem?_take_of_lt hj)
  have htail : ∀ t ∈ ts, ∀ j, t.count ≤ j → j < t.write.data.length →
      (applyWrites prev (ts.map Transfer.done))[t.write.off + j]? =
        untouched prev (ts.map Transfer.write) (t.write.off + j) := by
    intro t ht j hle hlt
    rw [getElem?_applyWrites_of_untouched (List.forall_mem_map.mpr fun t' ht' =>
      tail_untouched h t ht t' ht' j hle hlt), untouched_done]
  constructor
  · intro heq t ht j hle hlt
    rw [← htail t ht j hle hlt, heq, hfull t ht j hlt]
  · intro hkeep
    apply List.ext_getElem?
    intro p
    by_cases hex : ∃ t ∈ ts, p ∈ positions t.write.extent
    · obtain ⟨t, ht, hp⟩ := hex
      obtain ⟨j, rfl⟩ : ∃ j, p = t.write.off + j := Nat.exists_eq_add_of_le hp.1
      have hlt : j < t.write.data.length := Nat.lt_of_add_lt_add_left hp.2
      rw [hfull t ht j hlt]
      rcases Nat.lt_or_ge j t.count with hj | hj
      · exact hdone t ht j hj
      · exact (htail t ht j hj hlt).trans (hkeep t ht j hj hlt)
    · push Not at hex
      have hmiss : ∀ t ∈ ts, p ∉ positions t.done.extent := by
        intro t ht hp
        refine hex t ht ⟨hp.1, hp.2.trans_le (Nat.add_le_add_left ?_ _)⟩
        exact t.length_done.trans_le t.le
      rw [getElem?_applyWrites_of_untouched (List.forall_mem_map.mpr hmiss), untouched_done,
        getElem?_applyWrites_of_untouched (List.forall_mem_map.mpr hex)]

/-! ## Cutting data into writes -/

/-- Two writes behind each other are one. -/
theorem pwrite_pwrite (f a b : Bytes) (off : ℕ) :
    pwrite (pwrite f a off) b (off + a.length) = pwrite f (a ++ b) off := by
  by_cases ha : a = []
  · rw [ha, pwrite_nil, List.nil_append, List.length_nil, Nat.add_zero]
  · by_cases hb : b = []
    · rw [hb, pwrite_nil, List.append_nil]
    · have hab : a ++ b ≠ [] := List.append_ne_nil_of_left_ne_nil ha b
      apply List.ext_getElem?
      intro p
      rw [getElem?_pwrite hb, getElem?_pwrite ha, getElem?_pwrite hab, length_pwrite ha,
        List.length_append, List.getElem?_append]
      split_ifs
      all_goals first | rfl | omega | (congr 1; omega)

/-- **Consecutive writes are one write**. -/
theorem applyWrites_seqWrites (f : Bytes) (off : ℕ) (ps : List Bytes) :
    applyWrites f (seqWrites off ps) = pwrite f ps.flatten off := by
  induction ps generalizing f off with
  | nil => exact (pwrite_nil f off).symm
  | cons p ps ih => rw [seqWrites, applyWrites_cons, ih, List.flatten_cons, pwrite_pwrite]

/-- Pieces of `n` bytes, the last one shorter. -/
def cutInto (n : ℕ) (bs : Bytes) : List Bytes :=
  (List.range ((bs.length + (n - 1)) / n)).map fun i => slice bs (i * n) n

/-- The first pieces of bytes, put together. -/
theorem flatten_map_slice (n k : ℕ) (bs : Bytes) :
    ((List.range k).map fun i => slice bs (i * n) n).flatten = bs.take (k * n) := by
  induction k with
  | zero => rw [Nat.zero_mul, List.take_zero]; rfl
  | succ k ih =>
      rw [List.range_succ, List.map_append, List.flatten_append, ih, Nat.succ_mul, List.take_add]
      exact congrArg _ (List.append_nil _)

/-- The pieces of bytes are the bytes. -/
theorem flatten_cutInto {n : ℕ} (hn : 0 < n) (bs : Bytes) : (cutInto n bs).flatten = bs := by
  rw [cutInto, flatten_map_slice]
  exact List.take_of_length_le (le_alignUp hn bs.length)

/-- The pieces are not empty, and not too large. -/
theorem length_of_mem_cutInto {n : ℕ} (hn : 0 < n) {bs p : Bytes} (hp : p ∈ cutInto n bs) :
    0 < p.length ∧ p.length ≤ n := by
  obtain ⟨i, hi, rfl⟩ := List.mem_map.mp hp
  have hle := (Nat.le_div_iff_mul_le hn).mp (Nat.succ_le_of_lt (List.mem_range.mp hi))
  rw [Nat.succ_mul] at hle
  rw [length_slice]
  omega

end EosShard.Found
