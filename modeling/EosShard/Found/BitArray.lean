import EosShard.Found.File

/-!
# Bit arrays in 32-bit words

* `bit ws i` is bit `i` of an array of words, `setBit ws i` sets it. `bit_setBit` is what a store does
  to every bit, including those of the other words; the words are determined by their bits
  (`eq_of_bit_eq`).
* `wordBytes ws` are the words in little-endian order, `wordsOf n bs` the first `n` words of a buffer.
-/

namespace EosShard.Found

/-- Bit `i` of an array of 32-bit words. -/
def bit (ws : List ℕ) (i : ℕ) : Bool := (ws.getD (i / 32) 0).testBit (i % 32)

/-- Set bit `i`. -/
def setBit (ws : List ℕ) (i : ℕ) : List ℕ := ws.modify (i / 32) fun w => w ||| 1 <<< (i % 32)

/-- The words in memory. -/
def wordBytes (ws : List ℕ) : Bytes := (ws.map (le 4)).flatten

/-- The first `n` words of a buffer. -/
def wordsOf (n : ℕ) (bs : Bytes) : List ℕ := (List.range n).map fun i => leNat (slice bs (i * 4) 4)

/-- To set a bit keeps the number of words. -/
@[simp] theorem length_setBit (ws : List ℕ) (i : ℕ) : (setBit ws i).length = ws.length :=
  List.length_modify _ _ _

/-- A store sets its bit and keeps all others. -/
theorem bit_setBit {ws : List ℕ} {i : ℕ} (hi : i / 32 < ws.length) (j : ℕ) :
    bit (setBit ws i) j = (bit ws j || decide (j = i)) := by
  unfold bit setBit
  rw [List.getD_eq_getElem?_getD, List.getElem?_modify, List.getD_eq_getElem?_getD]
  by_cases hw : i / 32 = j / 32
  · have hj : j / 32 < ws.length := hw ▸ hi
    have hiff : i % 32 = j % 32 ↔ j = i := by omega
    simp only [hw, if_true, List.getElem?_eq_getElem hj, Option.map_eq_map, Option.map_some,
      Option.getD_some, Nat.testBit_or, Nat.one_shiftLeft, Nat.testBit_two_pow, hiff]
  · have hne : j ≠ i := fun h => hw (by rw [h])
    simp [hw, hne]

/-- The words are determined by their bits. -/
theorem eq_of_bit_eq {ws ws' : List ℕ} (hlen : ws.length = ws'.length) (h : ∀ w ∈ ws, w < 2 ^ 32)
    (h' : ∀ w ∈ ws', w < 2 ^ 32) (hbit : ∀ j, bit ws j = bit ws' j) : ws = ws' := by
  apply List.ext_getElem hlen
  intro k hk hk'
  apply Nat.eq_of_testBit_eq
  intro i
  by_cases hi : i < 32
  · have hdiv : (k * 32 + i) / 32 = k := by omega
    have hmod : (k * 32 + i) % 32 = i := by omega
    have := hbit (k * 32 + i)
    rwa [bit, bit, hdiv, hmod, List.getD_eq_getElem _ _ hk, List.getD_eq_getElem _ _ hk'] at this
  · have hle : 2 ^ 32 ≤ 2 ^ i := Nat.pow_le_pow_right (by norm_num) (not_lt.mp hi)
    rw [Nat.testBit_lt_two_pow ((h _ (List.getElem_mem hk)).trans_le hle),
      Nat.testBit_lt_two_pow ((h' _ (List.getElem_mem hk')).trans_le hle)]

/-- A store keeps the words in their range. -/
theorem lt_of_mem_setBit {ws : List ℕ} (h : ∀ w ∈ ws, w < 2 ^ 32) (i : ℕ) :
    ∀ w ∈ setBit ws i, w < 2 ^ 32 := by
  intro w hw
  obtain ⟨k, hk⟩ := List.mem_iff_getElem?.mp hw
  rw [setBit, List.getElem?_modify, Option.map_eq_map, Option.map_eq_some_iff] at hk
  obtain ⟨v, hv, rfl⟩ := hk
  have hlt := h v (List.mem_of_getElem? hv)
  split_ifs
  · refine Nat.or_lt_two_pow hlt ?_
    rw [Nat.one_shiftLeft]
    exact Nat.pow_lt_pow_right (by norm_num) (Nat.mod_lt _ (by norm_num))
  · exact hlt

/-- A word takes four bytes. -/
theorem length_wordBytes (ws : List ℕ) : (wordBytes ws).length = ws.length * 4 := by
  induction ws with
  | nil => rfl
  | cons w ws ih =>
      rw [wordBytes, List.map_cons, List.flatten_cons, List.length_append, length_le]
      rw [wordBytes] at ih
      rw [ih, List.length_cons]
      ring

/-- The words are read back. -/
theorem wordsOf_wordBytes {ws : List ℕ} (h : ∀ w ∈ ws, w < 2 ^ 32) :
    wordsOf ws.length (wordBytes ws) = ws := by
  apply List.ext_getElem?
  intro k
  rw [wordsOf, List.getElem?_map]
  by_cases hk : k < ws.length
  · have hpiece : Holds (wordBytes ws) (0 + k * 4) (le 4 ws[k]) := by
      have hheld : Holds (wordBytes ws) 0 (ws.map (le 4)).flatten := holds_self (wordBytes ws)
      refine hheld.piece (fun p hp => ?_) ?_
      · obtain ⟨w, -, rfl⟩ := List.mem_map.mp hp
        exact length_le _ _
      · rw [List.getElem?_map, List.getElem?_eq_getElem hk]
        rfl
    rw [Nat.zero_add] at hpiece
    rw [List.getElem?_range hk, List.getElem?_eq_getElem hk, Option.map_some,
      hpiece.leNat_slice rfl ((h _ (List.getElem_mem hk)).trans_eq (by norm_num))]
  · rw [List.getElem?_eq_none (by simpa using hk), List.getElem?_eq_none (not_lt.mp hk)]
    rfl

end EosShard.Found
