import EosShard.Dictionary.Filters
import EosShard.Dictionary.Reader

/-!
# What opening a dictionary validates

* `CompleteAt`: the header, and the filter it names, are inside the file.
* `newForFd_isOk_iff`: a dictionary is opened if its magic is read and the places of its filter are file
  offsets. The lengths the reads return decide nothing.
* `newForFd_complete_iff`: so what is opened is complete unless the file is cut behind the magic
  (`OpensCut`).
-/

namespace EosShard.Dictionary

open EosShard.Found

/-- A 64-bit number that is not negative as an `off_t`. -/
def IsOffset (off : ℕ) : Prop := off % 2 ^ 64 < 2 ^ 63

/-- Whether a number is an offset can be decided. -/
instance (off : ℕ) : Decidable (IsOffset off) := inferInstanceAs (Decidable (_ < _))

/-- The `n` bytes at an offset are in the file. -/
def Inside (fd : Bytes) (off n : ℕ) : Prop := IsOffset off ∧ off % 2 ^ 64 + n ≤ fd.length

/-- Whether a part is in the file can be decided. -/
instance (fd : Bytes) (off n : ℕ) : Decidable (Inside fd off n) :=
  inferInstanceAs (Decidable (_ ∧ _))

/-- The header in the file. -/
def dictionaryHeaderAt (fd : Bytes) (offset : ℕ) : DictionaryHeader :=
  .ofBytes (slice fd (offset % 2 ^ 64) DictionaryHeader.sizeof)

/-- The header and its filter, the header of the filter and all its buckets, are in the file. -/
structure CompleteAt (fd : Bytes) (offset : ℕ) : Prop where
  header : Inside fd offset DictionaryHeader.sizeof
  magic : (dictionaryHeaderAt fd offset).magic = magic
  filter : (dictionaryHeaderAt fd offset).bloomFilterStart ≠ 0 →
    Inside fd (offset + (dictionaryHeaderAt fd offset).bloomFilterStart) BloomFilterHeader.sizeof ∧
      Inside fd (offset + (dictionaryHeaderAt fd offset).bloomFilterStart + BloomFilterHeader.sizeof)
        ((bloomFilterHeaderAt fd
          (offset + (dictionaryHeaderAt fd offset).bloomFilterStart)).nBuckets * 4)

/-- The header as it is read: what the file has of it, over the memory that was there. -/
def dictionaryHeaderOver (heap : Heap) (fd : Bytes) (offset : ℕ) : DictionaryHeader :=
  .ofBytes (overlay (heap DictionaryHeader.sizeof).toList
    ((pread fd DictionaryHeader.sizeof offset).getD []))

/-- The magic is read and the filter is at an offset a read can have, but the file ends in front of the
end of the header, of the filter's header or of its buckets. -/
structure OpensCut (heap : Heap) (fd : Bytes) (offset : ℕ) : Prop where
  magic : (dictionaryHeaderOver heap fd offset).magic = magic
  filter : (dictionaryHeaderOver heap fd offset).bloomFilterStart ≠ 0 →
    IsOffset (offset + (dictionaryHeaderOver heap fd offset).bloomFilterStart) ∧
      IsOffset (offset + (dictionaryHeaderOver heap fd offset).bloomFilterStart +
        BloomFilterHeader.sizeof)
  cut : ¬ Inside fd offset DictionaryHeader.sizeof ∨
    (dictionaryHeaderOver heap fd offset).bloomFilterStart ≠ 0 ∧
      (¬ Inside fd (offset + (dictionaryHeaderOver heap fd offset).bloomFilterStart)
          BloomFilterHeader.sizeof ∨
        ¬ Inside fd (offset + (dictionaryHeaderOver heap fd offset).bloomFilterStart +
            BloomFilterHeader.sizeof)
          ((bloomFilterHeaderAt fd
            (offset + (dictionaryHeaderOver heap fd offset).bloomFilterStart)).nBuckets * 4))

section opening

variable {heap : Heap} {fd : Bytes} {offset : ℕ}

/-- A read at an offset gives the bytes there. -/
theorem pread_of_isOffset (h : IsOffset offset) (n : ℕ) :
    pread fd n offset = some (slice fd (offset % 2 ^ 64) n) := if_pos h

/-- A read beyond `off_t` fails. -/
theorem pread_of_not_isOffset (h : ¬ IsOffset offset) (n : ℕ) : pread fd n offset = none := if_neg h

/-- A filter is loaded from every place that is an offset. -/
theorem bloomFilterInitForFd_isOk_iff :
    (∃ self, bloomFilterInitForFd fd offset = .ok self) ↔
      IsOffset offset ∧ IsOffset (offset + BloomFilterHeader.sizeof) := by
  unfold bloomFilterInitForFd
  by_cases h₁ : IsOffset offset
  · by_cases h₂ : IsOffset (offset + BloomFilterHeader.sizeof)
    · simp [pread_of_isOffset h₁, pread_of_isOffset h₂, h₁, h₂]
    · simp [pread_of_isOffset h₁, pread_of_not_isOffset h₂, h₂]
  · simp [pread_of_not_isOffset h₁, h₁]

/-- A filter that cannot be read has one error. -/
theorem bloomFilterInitForFd_eq_error {e : Failure} (h : bloomFilterInitForFd fd offset = .error e) :
    e = bloomFilterCorrupt := by
  unfold bloomFilterInitForFd at h
  split at h
  · cases h
    rfl
  · dsimp only at h
    split at h
    · cases h
      rfl
    · cases h

/-- **When a dictionary is opened.** -/
theorem newForFd_isOk_iff :
    (∃ d, newForFd heap fd offset = .ok d) ↔
      (dictionaryHeaderOver heap fd offset).magic = magic ∧
        ((dictionaryHeaderOver heap fd offset).bloomFilterStart ≠ 0 →
          IsOffset (offset + (dictionaryHeaderOver heap fd offset).bloomFilterStart) ∧
            IsOffset (offset + (dictionaryHeaderOver heap fd offset).bloomFilterStart +
              BloomFilterHeader.sizeof)) := by
  have hopen : dictionaryOpen heap fd offset =
      if (dictionaryHeaderOver heap fd offset).magic = magic then
        some (dictionaryHeaderOver heap fd offset) else none := rfl
  by_cases hmagic : (dictionaryHeaderOver heap fd offset).magic = magic
  · rw [if_pos hmagic] at hopen
    rw [newForFd, hopen]
    dsimp only
    by_cases hstart : (dictionaryHeaderOver heap fd offset).bloomFilterStart = 0
    · simp [hmagic, hstart]
    · rw [if_pos hstart, ← bloomFilterInitForFd_isOk_iff]
      rcases bloomFilterInitForFd fd _ with e | filter <;> simp [Except.map, hmagic, hstart]
  · rw [if_neg hmagic] at hopen
    rw [newForFd, hopen]
    simp [hmagic]

/-- A dictionary that is not opened sets an error. -/
theorem newForFd_gerror (h : ¬ ∃ d, newForFd heap fd offset = .ok d) :
    ∃ e, newForFd heap fd offset = .error (.gerror e) := by
  unfold newForFd at h ⊢
  split at h
  · exact ⟨_, rfl⟩
  · split_ifs at h ⊢
    · rcases hfilter : bloomFilterInitForFd fd _ with e | filter
      · rw [bloomFilterInitForFd_eq_error hfilter]
        exact ⟨_, rfl⟩
      · rw [hfilter] at h
        exact absurd ⟨_, rfl⟩ h
    · exact absurd ⟨_, rfl⟩ h

/-- A header that is in the file is read as it is. -/
theorem dictionaryHeaderOver_eq (heap : Heap) (h : Inside fd offset DictionaryHeader.sizeof) :
    dictionaryHeaderOver heap fd offset = dictionaryHeaderAt fd offset := by
  rw [dictionaryHeaderOver, pread_of_isOffset h.1, Option.getD_some, overlay_full, dictionaryHeaderAt]
  rw [List.Vector.toList_length, length_slice_of_le h.2]

/-- What is opened is complete, or the file is cut. -/
theorem completeAt_or_opensCut (h : ∃ d, newForFd heap fd offset = .ok d) :
    CompleteAt fd offset ↔ ¬ OpensCut heap fd offset := by
  obtain ⟨hmagic, hfilter⟩ := newForFd_isOk_iff.mp h
  constructor
  · intro hc hcut
    have hheader := dictionaryHeaderOver_eq heap hc.header
    rcases hcut.cut with hcut | ⟨hstart, hcut⟩
    · exact hcut hc.header
    · rw [hheader] at hstart hcut
      obtain ⟨h₁, h₂⟩ := hc.filter hstart
      exact hcut.elim (· h₁) (· h₂)
  · intro hcut
    have hinside : Inside fd offset DictionaryHeader.sizeof := by
      by_contra hc
      exact hcut ⟨hmagic, hfilter, Or.inl hc⟩
    have hheader := dictionaryHeaderOver_eq heap hinside
    refine ⟨hinside, hheader ▸ hmagic, fun hstart => ?_⟩
    rw [← hheader] at hstart ⊢
    by_contra hc
    exact hcut ⟨hmagic, hfilter, Or.inr ⟨hstart, not_and_or.mp hc⟩⟩

/-- **What opening validates.** What is opened is complete, and what is not complete sets an error, unless
the file is cut behind its magic. -/
theorem newForFd_complete_iff (heap : Heap) (fd : Bytes) (offset : ℕ) :
    ((∃ d, newForFd heap fd offset = .ok d) → CompleteAt fd offset) ∧
        (¬ CompleteAt fd offset → ∃ e, newForFd heap fd offset = .error (.gerror e)) ↔
      ¬ OpensCut heap fd offset := by
  constructor
  · rintro ⟨hsound, -⟩ hcut
    have hok := newForFd_isOk_iff.mpr ⟨hcut.magic, hcut.filter⟩
    exact (completeAt_or_opensCut hok).mp (hsound hok) hcut
  · intro hcut
    have hsound : (∃ d, newForFd heap fd offset = .ok d) → CompleteAt fd offset := fun hok =>
      (completeAt_or_opensCut hok).mpr hcut
    exact ⟨hsound, fun hc => newForFd_gerror (mt hsound hc)⟩

end opening

/-- A header that names a filter at the end of the file. -/
def headerOnly : Bytes := DictionaryHeader.toBytes ⟨magic, 24, 24⟩

/-- It is opened, although the file has nothing of the filter. -/
theorem not_newForFd_complete :
    ¬ ∀ (heap : Heap) (fd : Bytes) (offset : ℕ),
      ((∃ d, newForFd heap fd offset = .ok d) → CompleteAt fd offset) ∧
        (¬ CompleteAt fd offset → ∃ e, newForFd heap fd offset = .error (.gerror e)) := by
  intro h
  have hheader : dictionaryHeaderAt headerOnly 0 = ⟨magic, 24, 24⟩ := by decide
  have hok : ∃ d, newForFd (fun n => List.Vector.replicate n 0) headerOnly 0 = .ok d :=
    ⟨⟨headerOnly, 0, ⟨magic, 24, 24⟩, some ⟨⟨0, 0, 0⟩, []⟩⟩, by rfl⟩
  have hfilter := ((h (fun n => List.Vector.replicate n 0) headerOnly 0).1 hok).filter
  rw [hheader] at hfilter
  exact absurd (hfilter (by decide)).1 (by decide)

end EosShard.Dictionary
