import EosShard.Found.Bytes

/-!
# Files, positioned reads and writes, and what a file holds

A file is the byte string of its contents.

* `pread f n off` and `pwrite f d off` are the positioned calls. `pread` answers `none` (the `-1`
  of the C interface) for an offset that is negative as an `off_t`; `pwrite` past the end leaves a
  hole that reads as zeros.
* `Holds f off d`: the bytes of `f` from `off` on start with `d`. This is what a layout is made of:
  `Holds.append_iff` splits a region, `Holds.slice` reads from one.
* A run of a program is judged by its sequence of writes. `applyWrites f ws` performs them in order.
  The **frame rule** `Holds.applyWrites` keeps a region that every write of the sequence misses;
  `holds_applyWrites_seqWrites` is the region written by consecutive pieces.
-/

namespace EosShard.Found

/-! ## Positioned reads -/

/-- `pread(2)`: at most `n` bytes from `off`; `none` where `off` is negative as an `off_t`. -/
def pread (f : Bytes) (n off : ℕ) : Option Bytes :=
  if off % 2 ^ 64 < 2 ^ 63 then some (slice f (off % 2 ^ 64) n) else none

/-- A read at an offset within `off_t` gives the bytes there. -/
theorem pread_eq {f : Bytes} {n off : ℕ} (h : off < 2 ^ 63) : pread f n off = some (slice f off n) := by
  have hm : off % 2 ^ 64 = off := Nat.mod_eq_of_lt (by omega)
  rw [pread, hm, if_pos h]

/-- A read that has to return exactly `n` bytes. -/
def preadExact (f : Bytes) (n off : ℕ) : Option Bytes :=
  (pread f n off).filter fun bs => bs.length = n

/-- A read succeeds in full exactly if the offset is within `off_t` and the bytes are there. -/
theorem preadExact_eq_some_iff {f : Bytes} {n off : ℕ} {bs : Bytes} :
    preadExact f n off = some bs ↔
      off % 2 ^ 64 < 2 ^ 63 ∧ slice f (off % 2 ^ 64) n = bs ∧ bs.length = n := by
  unfold preadExact pread
  split_ifs with h
  · simp only [Option.filter_eq_some_iff, Option.some.injEq, decide_eq_true_eq, h, true_and]
  · simp only [Option.filter_none, reduceCtorEq, h, false_and]

/-! ## Positioned writes -/

/-- `pwrite(2)`: write `d` at `off`, filling a hole behind the old end with zeros. An empty write
changes nothing. -/
def pwrite (f d : Bytes) (off : ℕ) : Bytes :=
  if d = [] then f
  else f.take off ++ List.replicate (off - f.length) 0 ++ d ++ f.drop (off + d.length)

@[simp] theorem pwrite_nil (f : Bytes) (off : ℕ) : pwrite f [] off = f := by simp [pwrite]

/-- A write that is not empty extends the file up to its end. -/
theorem length_pwrite {f d : Bytes} {off : ℕ} (hd : d ≠ []) :
    (pwrite f d off).length = max f.length (off + d.length) := by
  simp only [pwrite, hd, if_false, List.length_append, List.length_take, List.length_replicate,
    List.length_drop]
  omega

/-- A write does not shorten a file. -/
theorem le_length_pwrite (f d : Bytes) (off : ℕ) : f.length ≤ (pwrite f d off).length := by
  by_cases hd : d = []
  · simp [hd]
  · rw [length_pwrite hd]
    exact Nat.le_max_left _ _

/-- The bytes after a write, position by position. -/
theorem getElem?_pwrite {f d : Bytes} {off : ℕ} (hd : d ≠ []) (i : ℕ) :
    (pwrite f d off)[i]? =
      if i < off then (if i < f.length then f[i]? else some 0)
      else if i < off + d.length then d[i - off]? else f[i]? := by
  have hlen : (f.take off ++ List.replicate (off - f.length) (0 : UInt8)).length = off := by
    simp only [List.length_append, List.length_take, List.length_replicate]
    omega
  simp only [pwrite, hd, if_false]
  rw [List.append_assoc, List.getElem?_append, hlen]
  split_ifs with h₁ h₂ h₃
  · rw [List.getElem?_append_left (by simp; omega), List.getElem?_take, if_pos h₁]
  · rw [List.getElem?_append_right (by simp; omega), List.getElem?_replicate, if_pos]
    simp only [List.length_take]
    omega
  · rw [List.getElem?_append_left (by omega)]
  · rw [List.getElem?_append_right (by omega), List.getElem?_drop]
    congr 1
    omega

/-! ## What a file holds -/

/-- From `off` on the file starts with `d`. -/
def Holds (f : Bytes) (off : ℕ) (d : Bytes) : Prop := slice f off d.length = d

/-- Whether a file holds bytes can be decided. -/
instance (f : Bytes) (off : ℕ) (d : Bytes) : Decidable (Holds f off d) :=
  inferInstanceAs (Decidable (slice f off d.length = d))

/-- A file holds bytes if it has each of them at its place. -/
theorem holds_iff_getElem? {f : Bytes} {off : ℕ} {d : Bytes} :
    Holds f off d ↔ ∀ i, i < d.length → f[off + i]? = d[i]? := by
  constructor
  · intro h i hi
    have := getElem?_slice f off d.length i
    rw [h, if_pos hi] at this
    exact this.symm
  · intro h
    apply List.ext_getElem?
    intro i
    rw [getElem?_slice]
    split_ifs with hi
    · exact h i hi
    · exact (List.getElem?_eq_none (not_lt.mp hi)).symm

@[simp] theorem Holds.nil (f : Bytes) (off : ℕ) : Holds f off [] := by simp [Holds]

/-- A file holds its contents. -/
theorem holds_self (f : Bytes) : Holds f 0 f := slice_full f

/-- A region that is held lies inside the file. -/
theorem Holds.le_length {f : Bytes} {off : ℕ} {d : Bytes} (h : Holds f off d) (hd : d ≠ []) :
    off + d.length ≤ f.length := by
  have hlen : 0 < d.length := List.length_pos_iff.mpr hd
  have := congrArg List.length h
  rw [length_slice] at this
  omega

/-- Two pieces are held behind each other. -/
theorem Holds.append_iff {f : Bytes} {off : ℕ} {a b : Bytes} :
    Holds f off (a ++ b) ↔ Holds f off a ∧ Holds f (off + a.length) b := by
  unfold Holds
  rw [List.length_append, slice_add]
  constructor
  · intro h
    have hl : (slice f off a.length).length = a.length := by
      have h₁ := congrArg List.length h
      simp only [List.length_append] at h₁
      have h₂ := length_slice_le f off a.length
      have h₃ := length_slice_le f (off + a.length) b.length
      omega
    exact List.append_inj h hl
  · rintro ⟨ha, hb⟩
    rw [ha, hb]

/-- Reading inside a held region reads the region. -/
theorem Holds.slice {f : Bytes} {off : ℕ} {d : Bytes} (h : Holds f off d) {i n : ℕ}
    (hin : i + n ≤ d.length) : slice f (off + i) n = Found.slice d i n := by
  rw [← slice_slice hin, h]

/-- Reading the whole of a held region, and possibly more. -/
theorem Holds.slice_eq {f : Bytes} {off : ℕ} {d : Bytes} (h : Holds f off d) {n : ℕ}
    (hn : n = d.length) : Found.slice f off n = d := by
  rw [hn]
  exact h

/-- Loading a little-endian field that lies in the file. -/
theorem Holds.leNat_slice {f : Bytes} {off w x : ℕ} (h : Holds f off (le w x)) {n : ℕ} (hn : n = w)
    (hx : x < 256 ^ w) : leNat (Found.slice f off n) = x := by
  rw [h.slice_eq (by rw [length_le, hn]), leNat_le_of_lt hx]

/-- What is held can be read. -/
theorem Holds.preadExact {f : Bytes} {off : ℕ} {d : Bytes} (h : Holds f off d) {n : ℕ}
    (hn : n = d.length) (hoff : off < 2 ^ 63) : preadExact f n off = some d := by
  have hm : off % 2 ^ 64 = off := Nat.mod_eq_of_lt (by omega)
  rw [preadExact_eq_some_iff, hm]
  exact ⟨hoff, h.slice_eq hn, hn.symm⟩

/-- A longer slice over a held region starts with the region. -/
theorem Holds.slice_of_le {f : Bytes} {off : ℕ} {d : Bytes} (h : Holds f off d) {n : ℕ}
    (hn : d.length ≤ n) : Found.slice f off n = d ++ Found.slice f (off + d.length) (n - d.length) := by
  obtain ⟨k, rfl⟩ := Nat.exists_eq_add_of_le hn
  rw [slice_add, Nat.add_sub_cancel_left]
  exact congrArg (· ++ _) h

/-- One of several pieces of one length. -/
theorem Holds.piece {f : Bytes} {off m : ℕ} {ps : List Bytes} (h : Holds f off ps.flatten)
    (hm : ∀ p ∈ ps, p.length = m) {i : ℕ} {p : Bytes} (hi : ps[i]? = some p) :
    Holds f (off + i * m) p := by
  induction ps generalizing off i with
  | nil => simp at hi
  | cons q ps ih =>
      rw [List.flatten_cons, Holds.append_iff] at h
      cases i with
      | zero =>
          cases hi
          simpa using h.1
      | succ i =>
          have := ih h.2 (fun p hp => hm p (List.mem_cons_of_mem _ hp)) hi
          rwa [hm q List.mem_cons_self, Nat.add_assoc, Nat.add_comm m, ← Nat.succ_mul] at this

/-- Any held region is one part of the file between two others. -/
theorem holds_iff_exists_append {f : Bytes} {off : ℕ} {d : Bytes} (hd : d ≠ []) :
    Holds f off d ↔ ∃ a b, f = a ++ d ++ b ∧ a.length = off := by
  constructor
  · intro h
    have hle := h.le_length hd
    refine ⟨f.take off, f.drop (off + d.length), ?_, by simp; omega⟩
    have hd' : d = (f.drop off).take d.length := h.symm
    conv_rhs => rw [hd']
    rw [List.length_take, Nat.min_eq_left (by simp; omega), ← List.drop_drop, List.append_assoc,
      List.take_append_drop, List.take_append_drop]
  · rintro ⟨a, b, rfl, rfl⟩
    unfold Holds
    rw [List.append_assoc, slice_append_of_le (le_refl _), Nat.sub_self, slice_append_self rfl]

/-- A region of a part of the file. -/
theorem Holds.embed {f : Bytes} {off : ℕ} {d : Bytes} (h : Holds f off d) (pre post : Bytes) :
    Holds (pre ++ f ++ post) (pre.length + off) d := by
  rw [holds_iff_getElem?] at h ⊢
  intro i hi
  have hin : off + i < f.length := by
    by_contra hc
    have := h i hi
    rw [List.getElem?_eq_none (not_lt.mp hc), eq_comm, List.getElem?_eq_none_iff] at this
    omega
  rw [List.append_assoc, Nat.add_assoc, List.getElem?_append_right (Nat.le_add_right _ _),
    Nat.add_sub_cancel_left, List.getElem?_append_left hin, h i hi]

/-! ## One write -/

/-- Two extents `[o, o + n)` and `[o', o' + n')` do not meet. -/
def Apart (o n o' n' : ℕ) : Prop := o + n ≤ o' ∨ o' + n' ≤ o

/-- Whether two extents are apart can be decided. -/
instance (o n o' n' : ℕ) : Decidable (Apart o n o' n') :=
  inferInstanceAs (Decidable (_ ∨ _))

/-- What has been written is held. -/
theorem holds_pwrite (f d : Bytes) (off : ℕ) : Holds (pwrite f d off) off d := by
  rw [holds_iff_getElem?]
  intro i hi
  have hd : d ≠ [] := List.ne_nil_of_length_pos (by omega)
  rw [getElem?_pwrite hd, if_neg (by omega), if_pos (by omega), Nat.add_sub_cancel_left]

/-- A write keeps every region it does not meet. -/
theorem Holds.pwrite {f e : Bytes} {o : ℕ} (h : Holds f o e) {d : Bytes} {off : ℕ}
    (hap : Apart o e.length off d.length) : Holds (pwrite f d off) o e := by
  by_cases hd : d = []
  · simpa [hd] using h
  rw [holds_iff_getElem?] at h ⊢
  intro i hi
  have hi' := h i hi
  have hin : o + i < f.length := by
    by_contra hc
    rw [List.getElem?_eq_none (not_lt.mp hc), eq_comm, List.getElem?_eq_none_iff] at hi'
    omega
  rw [getElem?_pwrite hd, if_pos hin, hi']
  unfold Apart at hap
  split_ifs
  · rfl
  · omega
  · rfl

/-! ## Sequences of writes -/

/-- One positioned write. -/
structure Write where
  /-- Where it starts. -/
  off : ℕ
  /-- The bytes it transfers. -/
  data : Bytes
  deriving DecidableEq, Repr

/-- Perform writes in order. -/
def applyWrites (f : Bytes) (ws : List Write) : Bytes :=
  ws.foldl (fun f w => pwrite f w.data w.off) f

@[simp] theorem applyWrites_nil (f : Bytes) : applyWrites f [] = f := rfl

@[simp] theorem applyWrites_cons (f : Bytes) (w : Write) (ws : List Write) :
    applyWrites f (w :: ws) = applyWrites (pwrite f w.data w.off) ws := rfl

/-- The writes of a second list are applied after those of the first one. -/
theorem applyWrites_append (f : Bytes) (ws ws' : List Write) :
    applyWrites f (ws ++ ws') = applyWrites (applyWrites f ws) ws' := List.foldl_append

/-- The file does not get longer than where its writes end. -/
theorem length_applyWrites_le {f : Bytes} {ws : List Write} {m : ℕ} (hf : f.length ≤ m)
    (hws : ∀ w ∈ ws, w.off + w.data.length ≤ m) : (applyWrites f ws).length ≤ m := by
  induction ws generalizing f with
  | nil => exact hf
  | cons w ws ih =>
      rw [applyWrites_cons]
      refine ih ?_ fun w' hw' => hws w' (List.mem_cons_of_mem _ hw')
      by_cases hd : w.data = []
      · rwa [hd, pwrite_nil]
      · rw [length_pwrite hd]
        exact max_le hf (hws w List.mem_cons_self)

/-- Nor shorter. -/
theorem le_length_applyWrites (f : Bytes) (ws : List Write) :
    f.length ≤ (applyWrites f ws).length := by
  induction ws generalizing f with
  | nil => exact le_refl _
  | cons w ws ih => exact (le_length_pwrite f w.data w.off).trans (ih _)

/-- **Frame rule**: a region every write misses is kept. -/
theorem Holds.applyWrites {f e : Bytes} {o : ℕ} (h : Holds f o e) {ws : List Write}
    (hws : ∀ w ∈ ws, Apart o e.length w.off w.data.length) : Holds (applyWrites f ws) o e := by
  induction ws generalizing f with
  | nil => exact h
  | cons w ws ih =>
      exact ih (h.pwrite (hws w List.mem_cons_self)) fun w' hw' =>
        hws w' (List.mem_cons_of_mem _ hw')

/-- Every write of the sequence starts at `lo` or later. -/
def WritesFrom (lo : ℕ) (ws : List Write) : Prop := ∀ w ∈ ws, lo ≤ w.off

/-- Writes from a position on are writes from any smaller one on. -/
theorem WritesFrom.mono {lo lo' : ℕ} {ws : List Write} (h : WritesFrom lo ws) (hle : lo' ≤ lo) :
    WritesFrom lo' ws := fun w hw => hle.trans (h w hw)

/-- Writes after writes stay behind a position if both do. -/
theorem WritesFrom.append {lo : ℕ} {ws ws' : List Write} (h : WritesFrom lo ws)
    (h' : WritesFrom lo ws') : WritesFrom lo (ws ++ ws') := by
  intro w hw
  rcases List.mem_append.mp hw with hw | hw
  · exact h w hw
  · exact h' w hw

/-- A region below every write is kept. -/
theorem Holds.applyWrites_of_writesFrom {f e : Bytes} {o lo : ℕ} (h : Holds f o e) {ws : List Write}
    (hws : WritesFrom lo ws) (hlo : o + e.length ≤ lo) : Holds (Found.applyWrites f ws) o e :=
  h.applyWrites fun w hw => Or.inl (hlo.trans (hws w hw))

/-- The writes of consecutive pieces, one behind the other from `off` on. -/
def seqWrites : ℕ → List Bytes → List Write
  | _, [] => []
  | off, p :: ps => ⟨off, p⟩ :: seqWrites (off + p.length) ps

/-- The pieces of a second list follow those of the first one. -/
theorem seqWrites_append (off : ℕ) (ps qs : List Bytes) :
    seqWrites off (ps ++ qs) = seqWrites off ps ++ seqWrites (off + ps.flatten.length) qs := by
  induction ps generalizing off with
  | nil => simp [seqWrites]
  | cons p ps ih => simp [seqWrites, ih, Nat.add_assoc]

/-- Sequential writes stay behind their start. -/
theorem writesFrom_seqWrites (off : ℕ) (ps : List Bytes) : WritesFrom off (seqWrites off ps) := by
  induction ps generalizing off with
  | nil => intro w hw; cases hw
  | cons p ps ih =>
      intro w hw
      rcases List.mem_cons.mp hw with rfl | hw
      · exact le_refl _
      · exact (Nat.le_add_right _ _).trans (ih _ w hw)

/-- Consecutive writes stay below the end of what they transfer. -/
theorem end_le_of_mem_seqWrites {off : ℕ} {ps : List Bytes} {w : Write}
    (hw : w ∈ seqWrites off ps) : w.off + w.data.length ≤ off + ps.flatten.length := by
  induction ps generalizing off with
  | nil => cases hw
  | cons p ps ih =>
      rw [List.flatten_cons, List.length_append]
      rcases List.mem_cons.mp hw with rfl | hw
      · simp only
        omega
      · have := ih hw
        omega

/-- The bytes of the writes are the pieces. -/
theorem flatMap_data_seqWrites (off : ℕ) (ps : List Bytes) :
    (seqWrites off ps).flatMap Write.data = ps.flatten := by
  induction ps generalizing off with
  | nil => rfl
  | cons p ps ih => rw [seqWrites, List.flatMap_cons, List.flatten_cons, ih]

/-- Consecutive writes leave the concatenation of their pieces in the file. -/
theorem holds_applyWrites_seqWrites (f : Bytes) (off : ℕ) (ps : List Bytes) :
    Holds (applyWrites f (seqWrites off ps)) off ps.flatten := by
  induction ps generalizing f off with
  | nil => exact Holds.nil _ _
  | cons p ps ih =>
      rw [List.flatten_cons, Holds.append_iff]
      exact ⟨(holds_pwrite f p off).applyWrites_of_writesFrom (writesFrom_seqWrites _ ps) (le_refl _),
        ih _ _⟩

/-- All bytes below `lo` are zero, as far as the file has them. -/
def ZerosBelow (lo : ℕ) (f : Bytes) : Prop := ∀ i b, i < lo → f[i]? = some b → b = 0

/-- An empty file has nothing but zeros. -/
theorem zerosBelow_nil (lo : ℕ) : ZerosBelow lo [] := fun i b _ h => by simp at h

/-- Writes behind `lo` keep the zeros below; a hole they leave reads as zeros. -/
theorem ZerosBelow.applyWrites {lo : ℕ} {f : Bytes} (h : ZerosBelow lo f) {ws : List Write}
    (hws : WritesFrom lo ws) : ZerosBelow lo (applyWrites f ws) := by
  induction ws generalizing f with
  | nil => exact h
  | cons w ws ih =>
      have hoff := hws w List.mem_cons_self
      refine ih (f := pwrite f w.data w.off) (fun i b hi hb => ?_)
        fun w' hw' => hws w' (List.mem_cons_of_mem _ hw')
      by_cases hd : w.data = []
      · rw [hd, pwrite_nil] at hb
        exact h i b hi hb
      · rw [getElem?_pwrite hd, if_pos (by omega)] at hb
        split_ifs at hb
        · exact h i b hi hb
        · exact (Option.some.inj hb).symm

/-! ## Alignment -/

/-- `n` rounded up to the next multiple of `m`. -/
def alignUp (m n : ℕ) : ℕ := (n + (m - 1)) / m * m

/-- An aligned position is a multiple. -/
theorem dvd_alignUp (m n : ℕ) : m ∣ alignUp m n := Nat.dvd_mul_left _ _

/-- An aligned position does not lie in front of the position. -/
theorem le_alignUp {m : ℕ} (hm : 0 < m) (n : ℕ) : n ≤ alignUp m n := by
  have h := Nat.div_add_mod (n + (m - 1)) m
  have hlt := Nat.mod_lt (n + (m - 1)) hm
  rw [alignUp, Nat.mul_comm]
  omega

end EosShard.Found
