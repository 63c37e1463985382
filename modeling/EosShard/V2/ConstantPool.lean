import EosShard.V2.Writer

/-!
# What the constant pool keeps

Strings are only ever appended to the pool, so the place a string is first given is its place for
good.

* `poolOffset strings S` is the distance of the first `S` from the start of the pool;
  `holds_poolOffset` is the string in the bytes of the pool, `poolOffset_append` its stability.
* `ConstantPool.Ok` ties the hash table and the running size to the list of strings.
  `constantPoolAdd_spec` is one addition: the invariant is kept, and the answer is `poolOffset`, cut
  to 32 bits if the string was there before.
* `constantPoolWrite_eq`: the writes of `finish` are the strings of the pool one after another.
-/

namespace EosShard.V2

open EosShard.Found

/-- A number goes through a pointer as its last 32 bits. -/
theorem gpointerToUint_guintToPointer (n : ℕ) : gpointerToUint (guintToPointer n) = n % 2 ^ 32 := by
  unfold gpointerToUint guintToPointer
  omega

/-! ## Places in the pool -/

/-- The bytes of a pool. -/
def poolBytes (strings : List CString) : Bytes := (strings.map CString.toBytes).flatten

/-- Where the first copy of `S` starts. -/
def poolOffset : List CString → CString → ℕ
  | [], _ => 0
  | T :: strings, S => if T = S then 0 else T.size + poolOffset strings S

/-- An empty pool takes nothing. -/
@[simp] theorem poolBytes_nil : poolBytes [] = [] := rfl

/-- The bytes of the first string come first. -/
@[simp] theorem poolBytes_cons (T : CString) (strings : List CString) :
    poolBytes (T :: strings) = T.toBytes ++ poolBytes strings := rfl

/-- The strings of a second list are behind those of the first one. -/
theorem poolBytes_append (strings strings' : List CString) :
    poolBytes (strings ++ strings') = poolBytes strings ++ poolBytes strings' := by
  simp [poolBytes]

/-- A string of the pool lies at its place. -/
theorem holds_poolOffset {strings : List CString} {S : CString} (h : S ∈ strings) :
    Holds (poolBytes strings) (poolOffset strings S) S.toBytes := by
  induction strings with
  | nil => cases h
  | cons T strings ih =>
      unfold poolOffset
      split_ifs with hT
      · subst hT
        exact slice_append_self rfl
      · have hS := ih (List.mem_of_ne_of_mem (Ne.symm hT) h)
        unfold Holds at hS ⊢
        rw [poolBytes_cons, slice_append_of_le (by simp), CString.length_toBytes T,
          Nat.add_sub_cancel_left]
        exact hS

/-- Later additions do not move a string. -/
theorem poolOffset_append {strings : List CString} {S : CString} (h : S ∈ strings)
    (more : List CString) : poolOffset (strings ++ more) S = poolOffset strings S := by
  induction strings with
  | nil => cases h
  | cons T strings ih =>
      rw [List.cons_append, poolOffset, poolOffset]
      split_ifs with hT
      · rfl
      · rw [ih (List.mem_of_ne_of_mem (Ne.symm hT) h)]

/-- A string stays at its offset when the pool grows. -/
theorem poolOffset_append_of_isPrefix {strings strings' : List CString} {S : CString}
    (hp : strings <+: strings') (h : S ∈ strings) : poolOffset strings' S = poolOffset strings S := by
  obtain ⟨more, rfl⟩ := hp
  exact poolOffset_append h more

/-- A new string starts where the pool ended. -/
theorem poolOffset_append_self {strings : List CString} {S : CString} (h : S ∉ strings) :
    poolOffset (strings ++ [S]) S = (poolBytes strings).length := by
  induction strings with
  | nil => simp [poolOffset]
  | cons T strings ih =>
      rw [List.mem_cons, not_or] at h
      rw [List.cons_append, poolOffset, if_neg (Ne.symm h.1), ih h.2, poolBytes_cons,
        List.length_append, CString.length_toBytes]

/-- A string starts within the pool. -/
theorem poolOffset_lt {strings : List CString} {S : CString} (h : S ∈ strings) :
    poolOffset strings S < (poolBytes strings).length := by
  have hle := (holds_poolOffset h).le_length S.toBytes_ne_nil
  have := S.size_pos
  rw [CString.length_toBytes] at hle
  omega

/-- A pool that grows gets longer. -/
theorem length_poolBytes_le_of_isPrefix {strings strings' : List CString}
    (h : strings <+: strings') : (poolBytes strings).length ≤ (poolBytes strings').length := by
  obtain ⟨more, rfl⟩ := h
  rw [poolBytes_append, List.length_append]
  exact Nat.le_add_right _ _

/-! ## The hash table -/

/-- The running size is the size of the pool, and the hash table knows the place of every string. -/
structure ConstantPool.Ok (cpool : ConstantPool) : Prop where
  totalSize : cpool.totalSize = (poolBytes cpool.strings).length
  lookup : ∀ S, cpool.stringsToOffsets.lookup S =
    if S ∈ cpool.strings then some (guintToPointer (poolOffset cpool.strings S)) else none

/-- A new pool is in order. -/
theorem constantPoolInit_ok : constantPoolInit.Ok := ⟨rfl, fun _ => rfl⟩

/-- **One addition to the pool.** -/
theorem constantPoolAdd_spec {cpool : ConstantPool} (h : cpool.Ok) (S : CString) :
    (constantPoolAdd cpool S).1.Ok ∧ cpool.strings <+: (constantPoolAdd cpool S).1.strings ∧
      S ∈ (constantPoolAdd cpool S).1.strings ∧
      (constantPoolAdd cpool S).2 =
        if S ∈ cpool.strings then poolOffset cpool.strings S % 2 ^ 32
        else poolOffset (constantPoolAdd cpool S).1.strings S := by
  unfold constantPoolAdd
  rw [h.lookup]
  by_cases hS : S ∈ cpool.strings
  · simp only [hS, if_true, gpointerToUint_guintToPointer, and_true]
    exact ⟨h, List.prefix_rfl⟩
  · simp only [hS, if_false]
    refine ⟨⟨?_, fun T => ?_⟩, List.prefix_append _ _, by simp, ?_⟩
    · rw [poolBytes_append, List.length_append, ← h.totalSize]
      simp [poolBytes]
    · rw [Table.lookup_insert, h.lookup]
      by_cases hT : T = S
      · subst hT
        simp [poolOffset_append_self hS, h.totalSize]
      · by_cases hm : T ∈ cpool.strings
        · simp [hT, hm, poolOffset_append hm]
        · simp [hT, hm]
    · rw [poolOffset_append_self hS, h.totalSize]

/-! ## The pool in the file -/

/-- The strings are written behind each other. -/
theorem constantPoolWrite_eq (strings : List CString) (offset : ℕ) :
    constantPoolWrite strings offset = seqWrites offset (strings.map CString.toBytes) := by
  induction strings generalizing offset with
  | nil => rfl
  | cons T strings ih => simp [constantPoolWrite, seqWrites, ih]

end EosShard.V2
