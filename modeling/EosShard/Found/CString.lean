import EosShard.Found.File

/-!
# C strings

* `CString` carries its own well-formedness: the characters in front of the NUL contain no NUL.
  `CString.toBytes` is the string as it lies in memory, with its NUL; `CString.size` is
  `strlen (s) + 1`.
* `cstr buf` is the string that starts at the beginning of a buffer, up to the first NUL or to the
  end of the buffer. `cstr_toBytes_append` reads a string back out of a longer buffer and
  `cstr_take_append` out of a truncated one. `cstr_slice_of_holds` and
  `chars_cstr_slice_of_holds` are a string in a file, read as a whole or cut.
* `CString.cmp` is the sign of `strcmp`; strings are linearly ordered by it. `strncmp` compares
  possibly unterminated buffers, as far as `n` bytes: it orders the cut strings
  (`strncmp_gt_iff_take`), and cutting keeps the order (`CString.take_le_take`). **A comparison cut
  after `size` bytes of the second operand has the sign of the full comparison**
  (`CString.take_size_le_iff`), prefixes included.
-/

namespace EosShard.Found

/-- A C string: the characters in front of its NUL. -/
structure CString where
  /-- The characters, without the NUL. -/
  chars : Bytes
  /-- No character is the NUL. -/
  nul_free : (0 : UInt8) ∉ chars
  deriving DecidableEq

namespace CString

/-- Strings with the same characters are equal. -/
@[ext] theorem ext {s t : CString} (h : s.chars = t.chars) : s = t := by
  cases s; cases t; simp_all

/-- `strlen`. -/
def length (s : CString) : ℕ := s.chars.length

/-- The bytes the string takes in memory, its NUL included. -/
def size (s : CString) : ℕ := s.chars.length + 1

/-- The string in memory. -/
def toBytes (s : CString) : Bytes := s.chars ++ [0]

/-- A string takes its size, with the zero at its end. -/
@[simp] theorem length_toBytes (s : CString) : s.toBytes.length = s.size := by simp [toBytes, size]

/-- A string takes at least the zero at its end. -/
theorem size_pos (s : CString) : 0 < s.size := Nat.succ_pos _

/-- A string takes at least the zero at its end. -/
theorem toBytes_ne_nil (s : CString) : s.toBytes ≠ [] := by simp [toBytes]

/-- The string cut after `n` characters. -/
def take (s : CString) (n : ℕ) : CString := ⟨s.chars.take n, fun h => s.nul_free (List.mem_of_mem_take h)⟩

/-- A string that ends within `n` bytes is not cut by them. -/
theorem take_of_size_le {s : CString} {n : ℕ} (h : s.size ≤ n) : s.take n = s :=
  ext (List.take_of_length_le (Nat.le_of_succ_le h))

/-- The empty string. -/
def empty : CString := ⟨[], by simp⟩

instance : Inhabited CString := ⟨empty⟩

/-- Strings are ordered byte by byte. -/
instance : LinearOrder CString :=
  LinearOrder.lift' CString.chars fun _ _ h => CString.ext h

/-- The sign of `strcmp`. -/
def cmp (s t : CString) : Ordering := memcmp s.chars t.chars

/-- The comparison tells when the first string is greater. -/
theorem cmp_eq_gt {s t : CString} : cmp s t = .gt ↔ t < s := memcmp_eq_gt _ _

/-- The comparison tells when the strings are equal. -/
theorem cmp_eq_eq {s t : CString} : cmp s t = .eq ↔ s = t :=
  (memcmp_eq_eq _ _).trans ⟨CString.ext, congrArg _⟩

end CString

/-! ## The string at the start of a buffer -/

/-- There is no zero in front of the first one. -/
theorem not_mem_takeWhile_ne_zero (buf : Bytes) : (0 : UInt8) ∉ buf.takeWhile (· ≠ 0) := by
  intro h
  simpa using List.mem_takeWhile_imp h

/-- The string that starts at the beginning of `buf`. -/
def cstr (buf : Bytes) : CString := ⟨buf.takeWhile (· ≠ 0), not_mem_takeWhile_ne_zero buf⟩

/-- Bytes without a zero are all different from zero. -/
theorem forall_ne_zero_of_not_mem {l : Bytes} (h : (0 : UInt8) ∉ l) :
    ∀ x ∈ l, decide (x ≠ 0) = true := by
  intro x hx
  rw [decide_eq_true_eq]
  rintro rfl
  exact h hx

/-- Bytes without a zero are read to their end. -/
theorem takeWhile_ne_zero_of_not_mem {l : Bytes} (h : (0 : UInt8) ∉ l) :
    l.takeWhile (· ≠ 0) = l :=
  List.takeWhile_eq_self_iff.mpr (forall_ne_zero_of_not_mem h)

/-- A string in a buffer ends at the first zero. -/
theorem cstr_append_zero {l : Bytes} (h : (0 : UInt8) ∉ l) (rest : Bytes) :
    cstr (l ++ 0 :: rest) = ⟨l, h⟩ := by
  apply CString.ext
  simp only [cstr]
  rw [List.takeWhile_append_of_pos (forall_ne_zero_of_not_mem h)]
  simp

/-- A string is read back from a buffer that starts with it. -/
@[simp] theorem cstr_toBytes_append (s : CString) (rest : Bytes) :
    cstr (s.toBytes ++ rest) = s := by
  rw [CString.toBytes, List.append_assoc, List.singleton_append, cstr_append_zero s.nul_free]

/-- A string reads back from its bytes. -/
@[simp] theorem cstr_toBytes (s : CString) : cstr s.toBytes = s := by
  simpa using cstr_toBytes_append s []

/-- The first `n` bytes of a buffer that starts with a string are the string, cut after `n`
characters. -/
theorem chars_cstr_take_toBytes_append (s : CString) (rest : Bytes) (n : ℕ) :
    (cstr ((s.toBytes ++ rest).take n)).chars = s.chars.take n := by
  rcases Nat.lt_or_ge s.length n with hlt | hle
  · have hn : s.toBytes.length ≤ n := by
      rw [CString.length_toBytes]
      exact hlt
    rw [List.take_append, List.take_of_length_le hn, cstr_toBytes_append,
      List.take_of_length_le hlt.le]
  · rw [CString.toBytes, List.append_assoc, List.take_append_of_le_length hle]
    exact takeWhile_ne_zero_of_not_mem fun hm => s.nul_free (List.mem_of_mem_take hm)

/-- Reading `n` bytes of a string and what follows it. -/
theorem cstr_take_append (s : CString) (rest : Bytes) (n : ℕ) :
    cstr ((s.toBytes ++ rest).take n) = s.take n :=
  CString.ext (chars_cstr_take_toBytes_append s rest n)

/-- Behind the end of what was read the buffer was zero from the start. -/
theorem cstr_append_replicate_zero (buf : Bytes) (n : ℕ) :
    cstr (buf ++ List.replicate n 0) = cstr buf := by
  apply CString.ext
  simp only [cstr]
  by_cases h : (0 : UInt8) ∈ buf
  · obtain ⟨l, r, rfl⟩ := List.append_of_mem h
    induction l with
    | nil => simp
    | cons x l ih =>
        by_cases hx : x = 0
        · simp [hx]
        · simp only [List.cons_append, List.takeWhile_cons, hx, ne_eq, not_false_eq_true,
            decide_true, if_true]
          rw [ih (by simp)]
  · rw [List.takeWhile_append_of_pos (forall_ne_zero_of_not_mem h), takeWhile_ne_zero_of_not_mem h]
    cases n <;> simp [List.replicate_succ]

/-- A string that lies in a file is read back by a slice that has all of it. -/
theorem cstr_slice_of_holds {f : Bytes} {off n : ℕ} {s : CString} (h : Holds f off s.toBytes)
    (hn : s.size ≤ n) : cstr (slice f off n) = s := by
  rw [h.slice_of_le (by rwa [CString.length_toBytes]), cstr_toBytes_append]

/-- A buffer with a NUL starts with its string. -/
theorem exists_eq_toBytes_append {buf : Bytes} (h : (0 : UInt8) ∈ buf) :
    ∃ rest, buf = (cstr buf).toBytes ++ rest := by
  induction buf with
  | nil => cases h
  | cons x buf ih =>
      by_cases hx : x = 0
      · refine ⟨buf, ?_⟩
        subst hx
        simp [cstr, CString.toBytes]
      · obtain ⟨rest, hrest⟩ := ih ((List.mem_cons.mp h).resolve_left (Ne.symm hx))
        refine ⟨rest, ?_⟩
        have hchars : (cstr (x :: buf)).chars = x :: (cstr buf).chars := by
          simp [cstr, hx]
        rw [CString.toBytes, hchars, List.cons_append, List.cons_append, ← CString.toBytes, ← hrest]

/-- The string at an offset with a NUL at or behind it. -/
theorem holds_cstr_drop {f : Bytes} {off : ℕ} (h : (0 : UInt8) ∈ f.drop off) :
    Holds f off (cstr (f.drop off)).toBytes := by
  obtain ⟨rest, hrest⟩ := exists_eq_toBytes_append h
  unfold Holds slice
  rw [hrest, cstr_toBytes_append, List.take_left]

/-- A slice of a string that lies in a file, cut after `n` characters. -/
theorem chars_cstr_slice_of_holds {f : Bytes} {off : ℕ} {s : CString} (h : Holds f off s.toBytes)
    (n : ℕ) : (cstr (slice f off n)).chars = s.chars.take n := by
  obtain ⟨a, rest, hf, ha⟩ := (holds_iff_exists_append s.toBytes_ne_nil).mp h
  have hslice : slice f off n = (s.toBytes ++ rest).take n := by
    unfold slice
    rw [hf, List.append_assoc, ← ha, List.drop_left]
  rw [hslice, chars_cstr_take_toBytes_append]

/-- A slice that ends in front of the NUL is a string of its own length. -/
theorem size_cstr_slice_of_holds {f : Bytes} {off n : ℕ} {s : CString} (h : Holds f off s.toBytes)
    (hn : n < s.size) : (cstr (slice f off n)).size = n + 1 := by
  have hle : n ≤ s.chars.length := Nat.le_of_lt_succ hn
  rw [CString.size, chars_cstr_slice_of_holds h, List.length_take, Nat.min_eq_left hle]

/-! ## Truncated comparison -/

/-- The sign of `strncmp (a, b, n)` on two buffers, neither of which has to be terminated within its
first `n` bytes. -/
def strncmp (n : ℕ) (a b : Bytes) : Ordering := (cstr (a.take n)).cmp (cstr (b.take n))

/-- Cutting the left operand one byte behind the end of the right one does not change which of them
is greater. -/
theorem take_le_iff (a b : Bytes) : a.take (b.length + 1) ≤ b ↔ a ≤ b := by
  induction b generalizing a with
  | nil =>
      cases a with
      | nil => simp
      | cons x a => exact iff_of_false (not_le.mpr (by simp)) (not_le.mpr (by simp))
  | cons y b ih =>
      cases a with
      | nil => simp
      | cons x a =>
          rw [List.length_cons, List.take_succ_cons, ← not_lt, ← not_lt, List.cons_lt_cons_iff,
            List.cons_lt_cons_iff, ← not_le (a := a.take _), ih, not_le]

/-- Cutting keeps the order. -/
theorem take_le_take {a b : Bytes} (h : a ≤ b) (n : ℕ) : a.take n ≤ b.take n := by
  induction n generalizing a b with
  | zero => exact le_refl _
  | succ n ih =>
      cases a with
      | nil => exact not_lt.mp (List.not_lt_nil _)
      | cons x a =>
          cases b with
          | nil => exact absurd h (by simp)
          | cons y b =>
              rw [← not_lt, List.cons_lt_cons_iff, not_or, not_and] at h
              rw [List.take_succ_cons, List.take_succ_cons, ← not_lt, List.cons_lt_cons_iff, not_or,
                not_and]
              exact ⟨h.1, fun hxy => not_lt.mpr (ih (not_lt.mp (h.2 hxy)))⟩

namespace CString

/-- To cut two strings at one place keeps their order. -/
theorem take_le_take {s t : CString} (h : s ≤ t) (n : ℕ) : s.take n ≤ t.take n :=
  Found.take_le_take (a := s.chars) (b := t.chars) h n

/-- As many characters as the right operand has bytes decide the comparison. -/
theorem take_size_le_iff (s t : CString) : s.take t.size ≤ t ↔ s ≤ t := take_le_iff s.chars t.chars

end CString

/-- Comparing `n` bytes compares the cut strings. -/
theorem strncmp_gt_iff_take (s key : CString) (rest : Bytes) (n : ℕ) :
    strncmp n (s.toBytes ++ rest) key.toBytes = .gt ↔ key.take n < s.take n := by
  have hkey : cstr (key.toBytes.take n) = key.take n := by
    rw [← List.append_nil key.toBytes, cstr_take_append]
  rw [strncmp, hkey, cstr_take_append, CString.cmp_eq_gt]

end EosShard.Found
