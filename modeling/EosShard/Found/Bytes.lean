import Mathlib

/-!
# Byte strings and little-endian integers

* `Bytes` is a list of octets, ordered lexicographically by unsigned octet value: that order is
  the sign of `memcmp` on blocks of one length (`memcmp_eq_lt`, `memcmp_eq_gt`).
* `slice f off n` are the bytes `[off, off + n)` of `f`, cut at the end of `f`. A struct is read by
  taking slices at its field offsets, so the slice of an append is what field lemmas rewrite with
  (`slice_append_of_le`, `slice_append_self`).
* `le w n` is the `w`-byte little-endian image of `n` (reduced modulo `256 ^ w`, as a store into a
  `w`-byte integer does), `leNat` the number a byte string denotes; `leNat_le` is the round trip.
* `overlay buf bs` is a buffer whose first bytes have been overwritten by a read.
-/

namespace EosShard.Found

/-- A byte string. -/
abbrev Bytes := List UInt8

/-- Octets in their unsigned order. -/
instance instLinearOrderUInt8 : LinearOrder UInt8 where
  le_refl := UInt8.le_refl
  le_trans _ _ _ := UInt8.le_trans
  le_antisymm _ _ := UInt8.le_antisymm
  le_total := UInt8.le_total
  toDecidableLE := inferInstance
  toDecidableEq := inferInstance
  toDecidableLT := inferInstance
  lt_iff_le_not_ge a b := by
    rw [UInt8.lt_iff_le_and_ne]
    exact ⟨fun h => ⟨h.1, fun h' => h.2 (UInt8.le_antisymm h.1 h')⟩,
      fun h => ⟨h.1, fun he => h.2 (he ▸ UInt8.le_refl _)⟩⟩

/-! ## Slices -/

/-- The bytes `[off, off + n)` of `f`, fewer where `f` ends before. -/
def slice (f : Bytes) (off n : ℕ) : Bytes := (f.drop off).take n

/-- The length of a slice, which ends where the bytes do. -/
theorem length_slice (f : Bytes) (off n : ℕ) : (slice f off n).length = min n (f.length - off) := by
  simp [slice]

/-- A slice is not longer than asked for. -/
theorem length_slice_le (f : Bytes) (off n : ℕ) : (slice f off n).length ≤ n := by
  rw [length_slice]
  exact Nat.min_le_left _ _

/-- A slice within the bytes is as long as asked for. -/
theorem length_slice_of_le {f : Bytes} {off n : ℕ} (h : off + n ≤ f.length) :
    (slice f off n).length = n := by
  rw [length_slice]
  omega

/-- The bytes of a slice. -/
theorem getElem?_slice (f : Bytes) (off n i : ℕ) :
    (slice f off n)[i]? = if i < n then f[off + i]? else none := by
  simp [slice, List.getElem?_take, List.getElem?_drop]

@[simp] theorem slice_zero (f : Bytes) (off : ℕ) : slice f off 0 = [] := by simp [slice]

/-- The slice of all bytes. -/
theorem slice_full (f : Bytes) : slice f 0 f.length = f := by simp [slice]

/-- A slice that starts behind the first part of an append is a slice of the second part. -/
theorem slice_append_of_le {a b : Bytes} {off n : ℕ} (h : a.length ≤ off) :
    slice (a ++ b) off n = slice b (off - a.length) n := by
  simp [slice, List.drop_append, List.drop_eq_nil_of_le h]

/-- The first part of an append is the slice of its own length. -/
theorem slice_append_self {a b : Bytes} {n : ℕ} (h : n = a.length) : slice (a ++ b) 0 n = a := by
  subst h
  simp [slice]

/-- A slice of the first one of two parts. -/
theorem slice_append_left {a b : Bytes} {off n : ℕ} (h : off + n ≤ a.length) :
    slice (a ++ b) off n = slice a off n := by
  unfold slice
  rw [List.drop_append, List.take_append_of_le_length]
  simp only [List.length_drop]
  omega

/-- A slice of a slice, inside the outer one. -/
theorem slice_slice {f : Bytes} {off n i m : ℕ} (h : i + m ≤ n) :
    slice (slice f off n) i m = slice f (off + i) m := by
  apply List.ext_getElem?
  intro k
  simp only [getElem?_slice]
  split_ifs with h₁ h₂
  · rw [Nat.add_assoc]
  · omega
  · rfl

/-- Two neighbouring slices make one. -/
theorem slice_add (f : Bytes) (off n m : ℕ) :
    slice f off (n + m) = slice f off n ++ slice f (off + n) m := by
  unfold slice
  rw [List.take_add, List.drop_drop]

/-- Pieces of one length. -/
theorem length_flatten_map_of_forall {α : Type} {l : List α} {f : α → Bytes} {m : ℕ}
    (h : ∀ a ∈ l, (f a).length = m) : (l.map f).flatten.length = l.length * m := by
  induction l with
  | nil => simp
  | cons a l ih =>
      rw [List.map_cons, List.flatten_cons, List.length_append, h a List.mem_cons_self,
        ih fun b hb => h b (List.mem_cons_of_mem _ hb), List.length_cons]
      ring

/-! ## Little-endian integers -/

/-- The `w`-byte little-endian image of `n`. -/
def le : ℕ → ℕ → Bytes
  | 0, _ => []
  | w + 1, n => UInt8.ofNat (n % 256) :: le w (n / 256)

/-- The number a little-endian byte string denotes. -/
def leNat : Bytes → ℕ
  | [] => 0
  | b :: bs => b.toNat + 256 * leNat bs

@[simp] theorem length_le (w n : ℕ) : (le w n).length = w := by
  induction w generalizing n with
  | zero => rfl
  | succ w ih => simp [le, ih]

/-- The number of `n` bytes is below `256 ^ n`. -/
theorem leNat_lt (bs : Bytes) : leNat bs < 256 ^ bs.length := by
  induction bs with
  | nil => simp [leNat]
  | cons b bs ih =>
      have hb : b.toNat < 256 := b.toNat_lt
      simp only [leNat, List.length_cons, pow_succ]
      omega

/-- Storing into `w` bytes and loading again reduces modulo `256 ^ w`. -/
@[simp] theorem leNat_le (w n : ℕ) : leNat (le w n) = n % 256 ^ w := by
  induction w generalizing n with
  | zero => simp [le, leNat, Nat.mod_one]
  | succ w ih =>
      have hb : (UInt8.ofNat (n % 256)).toNat = n % 256 := by simp
      rw [le, leNat, ih, hb, pow_succ', Nat.mod_mul]

/-- A number reads back from enough bytes. -/
theorem leNat_le_of_lt {w n : ℕ} (h : n < 256 ^ w) : leNat (le w n) = n := by
  rw [leNat_le, Nat.mod_eq_of_lt h]

/-- The bytes of zero. -/
theorem le_zero (w : ℕ) : le w 0 = List.replicate w 0 := by
  induction w with
  | zero => rfl
  | succ w ih => simp [le, ih, List.replicate_succ]

/-- The low bytes of a number, and the high ones. -/
theorem le_add (v w n : ℕ) : le (v + w) n = le v n ++ le w (n / 256 ^ v) := by
  induction v generalizing n with
  | zero => simp [le]
  | succ v ih =>
      rw [Nat.succ_add, le, ih, le, List.cons_append, Nat.div_div_eq_div_mul, pow_succ']

/-- The bytes above the ones a number needs are zero. -/
theorem le_add_of_lt {v n : ℕ} (w : ℕ) (h : n < 256 ^ v) :
    le (v + w) n = le v n ++ List.replicate w 0 := by
  rw [le_add, Nat.div_eq_of_lt h, le_zero]

/-! ## Buffers -/

/-- A buffer `buf` whose first bytes a read has overwritten with `bs`. -/
def overlay (buf bs : Bytes) : Bytes := bs ++ buf.drop bs.length

/-- To read into a buffer keeps its length. -/
theorem length_overlay {buf bs : Bytes} (h : bs.length ≤ buf.length) :
    (overlay buf bs).length = buf.length := by
  simp [overlay]
  omega

/-- What fills the buffer is all there is in it. -/
theorem overlay_full {buf bs : Bytes} (h : buf.length ≤ bs.length) : overlay buf bs = bs := by
  simp [overlay, List.drop_eq_nil_of_le h]

/-! ## Comparing blocks -/

/-- The sign of `memcmp` on two blocks. -/
def memcmp : Bytes → Bytes → Ordering
  | [], [] => .eq
  | [], _ :: _ => .lt
  | _ :: _, [] => .gt
  | a :: as, b :: bs => if a < b then .lt else if b < a then .gt else memcmp as bs

/-- The comparison tells when the first one is smaller. -/
theorem memcmp_eq_lt (a b : Bytes) : memcmp a b = .lt ↔ a < b := by
  induction a, b using memcmp.induct with
  | case1 => simp [memcmp]
  | case2 => simp [memcmp]
  | case3 => simp [memcmp]
  | case4 a as b bs h => simp [memcmp, h, List.cons_lt_cons_iff]
  | case5 a as b bs h h' =>
      simp only [memcmp, h, h', if_false, if_true, List.cons_lt_cons_iff, reduceCtorEq, false_or,
        false_iff, not_and]
      exact fun hab => absurd h' (hab ▸ lt_irrefl _)
  | case6 a as b bs h h' ih =>
      have hab : a = b := le_antisymm (not_lt.mp h') (not_lt.mp h)
      simp [memcmp, hab, ih]

/-- The comparison tells when both are equal. -/
theorem memcmp_eq_eq (a b : Bytes) : memcmp a b = .eq ↔ a = b := by
  induction a, b using memcmp.induct with
  | case1 => simp [memcmp]
  | case2 => simp [memcmp]
  | case3 => simp [memcmp]
  | case4 a as b bs h => simp [memcmp, h, h.ne]
  | case5 a as b bs h h' => simp [memcmp, h, h', h'.ne']
  | case6 a as b bs h h' ih =>
      have hab : a = b := le_antisymm (not_lt.mp h') (not_lt.mp h)
      simp [memcmp, hab, ih]

/-- The comparison tells when the first one is greater. -/
theorem memcmp_eq_gt (a b : Bytes) : memcmp a b = .gt ↔ b < a := by
  rcases h : memcmp a b with _ | _ | _
  · have := (memcmp_eq_lt a b).mp h
    simp [this.asymm]
  · have := (memcmp_eq_eq a b).mp h
    simp [this]
  · have hlt : ¬ a < b := fun hc => by simp [(memcmp_eq_lt a b).mpr hc] at h
    have hne : a ≠ b := fun hc => by simp [(memcmp_eq_eq a b).mpr hc] at h
    simpa using lt_of_le_of_ne (not_lt.mp hlt) hne.symm

end EosShard.Found
