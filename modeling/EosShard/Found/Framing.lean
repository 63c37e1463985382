import EosShard.Found.File

/-!
# Containers with alignment padding and framing offsets

A container is its members one behind the other, each padded to the alignment of its type, followed by
a table of framing offsets: the ends of the members whose size the type does not fix.

* `body pos ms` are the padded members from position `pos` on, `frames all pos ms` the framing offsets
  in member order. The last member of a tuple ends where the table starts and needs no offset; `all`
  tells whether it has one nevertheless, as in an array.
* The offsets are as wide as the size of the whole container needs (`offsetWidth`), and the reader
  recovers the width from that size (`widthOf_length`).
* `unframe` splits a container again, given a way to read its offsets (`unframe_body`). Tuples store
  the table backwards and arrays forwards: `unpackTuple_packTuple` and `unpackArray_packArray`.
-/

namespace EosShard.Found

/-- The type of a member as far as its container has to know it: the alignment, and the size if the
type fixes it. -/
structure Slot where
  align : ℕ
  size : Option ℕ
  deriving DecidableEq

/-! ## Packing -/

/-- The members from position `pos` on, padded with zeros. -/
def body : ℕ → List (Slot × Bytes) → Bytes
  | _, [] => []
  | pos, (s, bs) :: ms =>
      List.replicate (alignUp s.align pos - pos) 0 ++
        (bs ++ body (alignUp s.align pos + bs.length) ms)

/-- Whether a member of this type has a framing offset; `last` says that nothing follows it. -/
def Slot.framed (s : Slot) (all last : Bool) : Bool := s.size.isNone && (all || !last)

/-- The framing offsets, in the order of the members. -/
def frames (all : Bool) : ℕ → List (Slot × Bytes) → List ℕ
  | _, [] => []
  | pos, (s, bs) :: ms =>
      let stop := alignUp s.align pos + bs.length
      if s.framed all ms.isEmpty then stop :: frames all stop ms else frames all stop ms

/-- How many framing offsets members of these types have. -/
def countFrames (all : Bool) : List Slot → ℕ
  | [] => 0
  | s :: ss => (if s.framed all ss.isEmpty then 1 else 0) + countFrames all ss

/-- The width of `n` offsets behind a body of the given size. -/
def offsetWidth (size n : ℕ) : ℕ :=
  if size + n < 2 ^ 8 then 1 else if size + 2 * n < 2 ^ 16 then 2
  else if size + 4 * n < 2 ^ 32 then 4 else 8

/-- The width of the offsets in a container of the given size. -/
def widthOf (size : ℕ) : ℕ :=
  if size < 2 ^ 8 then 1 else if size < 2 ^ 16 then 2 else if size < 2 ^ 32 then 4 else 8

/-- A table of offsets of one width. -/
def offsetTable (w : ℕ) (es : List ℕ) : Bytes := (es.map (le w)).flatten

/-- A tuple: the body, and the offsets backwards. -/
def packTuple (ms : List (Slot × Bytes)) : Bytes :=
  let es := frames false 0 ms
  body 0 ms ++ offsetTable (offsetWidth (body 0 ms).length es.length) es.reverse

/-- An array of elements of one type without a fixed size: the body, and the offsets. -/
def packArray (align : ℕ) (bss : List Bytes) : Bytes :=
  let ms := bss.map fun bs => (⟨align, none⟩, bs)
  let es := frames true 0 ms
  body 0 ms ++ offsetTable (offsetWidth (body 0 ms).length es.length) es

/-! ## Unpacking -/

/-- The end of a member that starts at `start`: by its fixed size, by its framing offset, or at the end
of the body. -/
def Slot.endOf (s : Slot) (framed : Bool) (start offset stop : ℕ) : ℕ :=
  match s.size with
  | some n => start + n
  | none => if framed then offset else stop

/-- Split a body into its members: `off k` is the framing offset of number `k`, and the last member
ends at `stop` if it has none. -/
def unframe (all : Bool) (bytes : Bytes) (off : ℕ → ℕ) (stop : ℕ) : List Slot → ℕ → ℕ → List Bytes
  | [], _, _ => []
  | s :: ss, pos, k =>
      let start := alignUp s.align pos
      let fr := s.framed all ss.isEmpty
      let next := s.endOf fr start (off k) stop
      slice bytes start (next - start) ::
        unframe all bytes off stop ss next (if fr then k + 1 else k)

/-- The members of a tuple. -/
def unpackTuple (ss : List Slot) (bytes : Bytes) : List Bytes :=
  let w := widthOf bytes.length
  unframe false bytes (fun k => leNat (slice bytes (bytes.length - (k + 1) * w) w))
    (bytes.length - countFrames false ss * w) ss 0 0

/-- The elements of an array. The last offset is where the table starts. -/
def unpackArray (align : ℕ) (bytes : Bytes) : List Bytes :=
  if bytes = [] then []
  else
    let w := widthOf bytes.length
    let stop := leNat (slice bytes (bytes.length - w) w)
    unframe true bytes (fun k => leNat (slice bytes (stop + k * w) w)) stop
      (List.replicate ((bytes.length - stop) / w) ⟨align, none⟩) 0 0

/-! ## Sizes -/

/-- The table takes its width for every offset. -/
theorem length_offsetTable (w : ℕ) (es : List ℕ) :
    (offsetTable w es).length = es.length * w := by
  induction es with
  | nil => simp [offsetTable]
  | cons e es ih =>
      rw [offsetTable, List.map_cons, List.flatten_cons, List.length_append, length_le]
      rw [offsetTable] at ih
      rw [ih, List.length_cons]
      ring

/-- There are as many offsets as members that need one. -/
theorem length_frames (all : Bool) (pos : ℕ) (ms : List (Slot × Bytes)) :
    (frames all pos ms).length = countFrames all (ms.map Prod.fst) := by
  induction ms generalizing pos with
  | nil => rfl
  | cons m ms ih =>
      have hempty : (ms.map Prod.fst).isEmpty = ms.isEmpty := by cases ms <;> rfl
      simp only [frames, List.map_cons, countFrames, hempty]
      split_ifs
      · rw [List.length_cons, ih, Nat.add_comm]
      · rw [ih, Nat.zero_add]

/-- Lengths and offsets of a body depend on the types and sizes of the members only. -/
theorem length_body_eq {pos : ℕ} {ms ms' : List (Slot × Bytes)}
    (h : ms.map (fun m => (m.1, m.2.length)) = ms'.map fun m => (m.1, m.2.length)) :
    (body pos ms).length = (body pos ms').length := by
  induction ms generalizing pos ms' with
  | nil =>
      rw [List.map_nil, eq_comm, List.map_eq_nil_iff] at h
      rw [h]
  | cons m ms ih =>
      cases ms' with
      | nil => cases h
      | cons m' ms' =>
          simp only [List.map_cons, List.cons.injEq, Prod.mk.injEq] at h
          obtain ⟨⟨hs, hl⟩, h⟩ := h
          simp only [body, List.length_append, List.length_replicate, hs, hl, ih h]

/-- The slots of members are those of members with the same slots and sizes. -/
theorem map_fst_eq {ms ms' : List (Slot × Bytes)}
    (h : ms.map (fun m => (m.1, m.2.length)) = ms'.map fun m => (m.1, m.2.length)) :
    ms.map Prod.fst = ms'.map Prod.fst := by
  have := congrArg (List.map Prod.fst) h
  simpa [List.map_map, Function.comp_def] using this

/-- The size of a tuple depends on the slots and sizes of its members only. -/
theorem length_packTuple_eq {ms ms' : List (Slot × Bytes)}
    (h : ms.map (fun m => (m.1, m.2.length)) = ms'.map fun m => (m.1, m.2.length)) :
    (packTuple ms).length = (packTuple ms').length := by
  simp only [packTuple, List.length_append, length_offsetTable, List.length_reverse, length_frames,
    length_body_eq h, map_fst_eq h]

/-- The size of an array depends on the sizes of its elements only. -/
theorem length_packArray_eq {align : ℕ} {bss bss' : List Bytes}
    (h : bss.map List.length = bss'.map List.length) :
    (packArray align bss).length = (packArray align bss').length := by
  have hms : (bss.map fun bs => ((⟨align, none⟩ : Slot), bs)).map (fun m => (m.1, m.2.length)) =
      (bss'.map fun bs => (⟨align, none⟩, bs)).map fun m => (m.1, m.2.length) := by
    have := congrArg (List.map fun n => ((⟨align, none⟩ : Slot), n)) h
    simpa [List.map_map, Function.comp_def] using this
  simp only [packArray, List.length_append, length_offsetTable, length_frames, length_body_eq hms,
    map_fst_eq hms]

/-- A member is not longer than the body. -/
theorem length_le_length_body (pos : ℕ) {ms : List (Slot × Bytes)} {m : Slot × Bytes} (hm : m ∈ ms) :
    m.2.length ≤ (body pos ms).length := by
  induction ms generalizing pos with
  | nil => cases hm
  | cons m' ms ih =>
      simp only [body, List.length_append]
      rcases List.mem_cons.mp hm with rfl | hm
      · omega
      · have := ih (alignUp m'.1.align pos + m'.2.length) hm
        omega

/-- A member is not larger than the tuple. -/
theorem length_le_length_packTuple {ms : List (Slot × Bytes)} {m : Slot × Bytes} (hm : m ∈ ms) :
    m.2.length ≤ (packTuple ms).length := by
  have := length_le_length_body 0 hm
  simp only [packTuple, List.length_append]
  omega

/-- An element is not larger than the array. -/
theorem length_le_length_packArray {align : ℕ} {bss : List Bytes} {bs : Bytes} (hbs : bs ∈ bss) :
    bs.length ≤ (packArray align bss).length := by
  have hm : ((⟨align, none⟩ : Slot), bs) ∈ bss.map fun bs => ((⟨align, none⟩ : Slot), bs) :=
    List.mem_map_of_mem hbs
  have hle : bs.length ≤ _ := length_le_length_body 0 hm
  simp only [packArray, List.length_append]
  omega

/-- The reader finds the width the writer has chosen, if there is an offset at all. -/
theorem widthOf_length {size n : ℕ} (hn : 0 < n) :
    widthOf (size + n * offsetWidth size n) = offsetWidth size n := by
  unfold offsetWidth
  split_ifs with h₁ h₂ h₃ <;> unfold widthOf <;> split_ifs <;> omega

/-- An offset takes at least one byte. -/
theorem offsetWidth_pos (size n : ℕ) : 0 < offsetWidth size n := by
  unfold offsetWidth
  split_ifs <;> norm_num

/-- The offsets fit their width. -/
theorem lt_of_le_length {size n e : ℕ} (he : e ≤ size) (hn : 0 < n)
    (hlt : size + n * offsetWidth size n < 2 ^ 64) : e < 256 ^ offsetWidth size n := by
  unfold offsetWidth at *
  split_ifs at * with h₁ h₂ h₃ <;> norm_num <;> omega

/-! ## Round trips -/

/-- The members end where the body does, or in front of it. -/
theorem le_of_mem_frames {all : Bool} {pos : ℕ} {ms : List (Slot × Bytes)}
    (ha : ∀ m ∈ ms, 0 < m.1.align) : ∀ e ∈ frames all pos ms, e ≤ pos + (body pos ms).length := by
  induction ms generalizing pos with
  | nil => simp [frames]
  | cons m ms ih =>
      intro e he
      have hle := le_alignUp (ha m List.mem_cons_self) pos
      have hlen : pos + (body pos (m :: ms)).length = alignUp m.1.align pos + m.2.length +
          (body (alignUp m.1.align pos + m.2.length) ms).length := by
        simp only [body, List.length_append, List.length_replicate]
        omega
      rw [hlen]
      simp only [frames] at he
      split_ifs at he
      · rcases List.mem_cons.mp he with rfl | he
        · exact Nat.le_add_right _ _
        · exact ih (fun m' hm => ha m' (List.mem_cons_of_mem _ hm)) e he
      · exact ih (fun m' hm => ha m' (List.mem_cons_of_mem _ hm)) e he

/-- **Splitting a body** that is held at `pos`, with the framing offsets from number `k` on. -/
theorem unframe_body {all : Bool} {bytes : Bytes} {off : ℕ → ℕ} {stop pos k : ℕ}
    {ms : List (Slot × Bytes)} (ha : ∀ m ∈ ms, 0 < m.1.align)
    (hsize : ∀ m ∈ ms, ∀ n, m.1.size = some n → m.2.length = n) (hb : Holds bytes pos (body pos ms))
    (hoff : ∀ j e, (frames all pos ms)[j]? = some e → off (k + j) = e)
    (hstop : pos + (body pos ms).length = stop) :
    unframe all bytes off stop (ms.map Prod.fst) pos k = ms.map Prod.snd := by
  induction ms generalizing pos k with
  | nil => rfl
  | cons m ms ih =>
      obtain ⟨s, bs⟩ := m
      have hle : pos ≤ alignUp s.align pos := le_alignUp (ha (s, bs) List.mem_cons_self) pos
      have hempty : (ms.map Prod.fst).isEmpty = ms.isEmpty := by cases ms <;> rfl
      simp only [body, Holds.append_iff, List.length_replicate, Nat.add_sub_cancel' hle] at hb
      simp only [body, List.length_append, List.length_replicate] at hstop
      -- the end of the member, as the reader finds it
      have hend : s.endOf (s.framed all ms.isEmpty) (alignUp s.align pos) (off k) stop =
          alignUp s.align pos + bs.length := by
        unfold Slot.endOf
        cases hs : s.size with
        | some n => simp only [hsize (s, bs) List.mem_cons_self n hs]
        | none =>
            cases hf : s.framed all ms.isEmpty with
            | true => exact hoff 0 _ (by simp only [frames, hf, if_true]; rfl)
            | false =>
                -- only the last member can lack an offset
                have hnil : ms = [] := by
                  simp only [Slot.framed, hs, Option.isNone_none, Bool.true_and, Bool.or_eq_false_iff,
                    Bool.not_eq_false', List.isEmpty_iff] at hf
                  exact hf.2
                rw [hnil] at hstop
                simp only [body, List.length_nil, Bool.false_eq_true, if_false] at hstop ⊢
                omega
      simp only [List.map_cons, unframe, hempty, hend]
      refine congrArg₂ _ ?_ (ih (fun m hm => ha m (List.mem_cons_of_mem _ hm))
        (fun m hm => hsize m (List.mem_cons_of_mem _ hm)) hb.2.2 (fun j e hj => ?_) (by omega))
      · rw [Nat.add_sub_cancel_left]
        exact hb.2.1
      · cases hf : s.framed all ms.isEmpty with
        | true =>
            rw [if_pos rfl, Nat.add_assoc, Nat.add_comm 1]
            exact hoff (j + 1) e (by simp only [frames, hf, if_true]; exact hj)
        | false =>
            rw [if_neg Bool.false_ne_true]
            exact hoff j e (by simp only [frames, hf, Bool.false_eq_true, if_false]; exact hj)

/-- An entry of a table of offsets. -/
theorem holds_offsetTable {f : Bytes} {o w : ℕ} {es : List ℕ} (h : Holds f o (offsetTable w es))
    {j e : ℕ} (hj : es[j]? = some e) : Holds f (o + j * w) (le w e) := by
  refine h.piece (fun p hp => ?_) ?_
  · obtain ⟨e', -, rfl⟩ := List.mem_map.mp hp
    exact length_le _ _
  · rw [List.getElem?_map, hj]
    rfl

/-- The two parts of a file. -/
theorem holds_parts {f bs bs' : Bytes} (h : f = bs ++ bs') : Holds f 0 bs ∧ Holds f bs.length bs' := by
  have hself := holds_self f
  rw [h, Holds.append_iff, Nat.zero_add] at hself
  rw [h]
  exact hself

/-- The reader finds the width of a table that is not empty. -/
theorem widthOf_append_offsetTable (bs : Bytes) {es : List ℕ} (hn : 0 < es.length) :
    widthOf (bs ++ offsetTable (offsetWidth bs.length es.length) es).length =
      offsetWidth bs.length es.length := by
  rw [List.length_append, length_offsetTable]
  exact widthOf_length hn

/-- The offsets behind a body are read back, each from its place. -/
theorem leNat_offsetTable {bytes bs : Bytes} {es : List ℕ} {w : ℕ}
    (hw : w = offsetWidth bs.length es.length) (hpack : bytes = bs ++ offsetTable w es)
    (hle : ∀ e ∈ es, e ≤ bs.length) (hlt : bytes.length < 2 ^ 64) {j e : ℕ} (hj : es[j]? = some e) :
    leNat (slice bytes (bs.length + j * w) w) = e := by
  have hmem : e ∈ es := List.mem_of_getElem? hj
  refine (holds_offsetTable (holds_parts hpack).2 hj).leNat_slice rfl ?_
  rw [hpack, List.length_append, length_offsetTable, hw] at hlt
  rw [hw]
  exact lt_of_le_length (hle e hmem) (List.length_pos_of_mem hmem) hlt

/-- The last of them is at the end. -/
theorem leNat_lastOffset {bytes bs : Bytes} {es : List ℕ} {w : ℕ}
    (hw : w = offsetWidth bs.length es.length) (hpack : bytes = bs ++ offsetTable w es)
    (hle : ∀ e ∈ es, e ≤ bs.length) (hlt : bytes.length < 2 ^ 64) {e : ℕ} (he : es.getLast? = some e) :
    leNat (slice bytes (bytes.length - w) w) = e := by
  rw [List.getLast?_eq_getElem?] at he
  have hn := (List.getElem?_eq_some_iff.mp he).1
  have hpos : bytes.length - w = bs.length + (es.length - 1) * w := by
    have hsplit : (es.length - 1) * w + w = es.length * w := by
      rw [← Nat.succ_mul]
      congr 1
      omega
    rw [hpack, List.length_append, length_offsetTable]
    omega
  rw [hpos]
  exact leNat_offsetTable hw hpack hle hlt he

/-- **The members of a tuple are recovered** from its bytes. -/
theorem unpackTuple_packTuple (ms : List (Slot × Bytes)) (ha : ∀ m ∈ ms, 0 < m.1.align)
    (hsize : ∀ m ∈ ms, ∀ n, m.1.size = some n → m.2.length = n)
    (hlt : (packTuple ms).length < 2 ^ 64) :
    unpackTuple (ms.map Prod.fst) (packTuple ms) = ms.map Prod.snd := by
  obtain ⟨es, hes⟩ : ∃ es, es = frames false 0 ms := ⟨_, rfl⟩
  obtain ⟨w, hw⟩ : ∃ w, w = offsetWidth (body 0 ms).length es.reverse.length := ⟨_, rfl⟩
  have hpack : packTuple ms = body 0 ms ++ offsetTable w es.reverse := by
    rw [hw, hes, List.length_reverse]
    rfl
  have hlen : (packTuple ms).length = (body 0 ms).length + es.length * w := by
    rw [hpack, List.length_append, length_offsetTable, List.length_reverse]
  have hcount : countFrames false (ms.map Prod.fst) = es.length := by rw [hes, length_frames]
  have hbody : Holds (packTuple ms) 0 (body 0 ms) := (holds_parts hpack).1
  have hle : ∀ e ∈ es.reverse, e ≤ (body 0 ms).length := fun e he => by
    have hframe := le_of_mem_frames ha e (hes ▸ List.mem_reverse.mp he)
    rwa [Nat.zero_add] at hframe
  unfold unpackTuple
  by_cases hn : es.length = 0
  · -- without offsets their width does not matter
    refine unframe_body ha hsize hbody (fun j e hj => ?_) ?_
    · rw [← hes, List.length_eq_zero_iff.mp hn] at hj
      cases hj
    · rw [hcount, hn, hlen, hn]
      omega
  · have hwidth : widthOf (packTuple ms).length = w := by
      rw [hpack, hw]
      refine widthOf_append_offsetTable _ ?_
      rw [List.length_reverse]
      exact Nat.pos_of_ne_zero hn
    rw [hwidth, hcount]
    refine unframe_body ha hsize hbody (fun j e hj => ?_) (by omega)
    -- the table is stored backwards
    rw [← hes] at hj
    have hj' := (List.getElem?_eq_some_iff.mp hj).1
    have hrev : es.reverse[es.length - 1 - j]? = some e := by
      rw [List.getElem?_reverse (by omega), ← hj]
      congr 1
      omega
    have hpos : (body 0 ms).length + (es.length - 1 - j) * w =
        (packTuple ms).length - (0 + j + 1) * w := by
      have hsplit : (es.length - 1 - j) * w + (0 + j + 1) * w = es.length * w := by
        rw [← Nat.add_mul]
        congr 1
        omega
      omega
    rw [← hpos]
    exact leNat_offsetTable hw hpack hle hlt hrev

/-- Every element of an array has a framing offset. -/
theorem countFrames_replicate (n align : ℕ) :
    countFrames true (List.replicate n ⟨align, none⟩) = n := by
  induction n with
  | zero => rfl
  | succ n ih =>
      rw [List.replicate_succ, countFrames, ih]
      simp only [Slot.framed, Option.isNone_none, Bool.true_or, Bool.and_self, if_true]
      omega

/-- The last framing offset of an array is the length of its body. -/
theorem frames_getLast {align pos : ℕ} {bss : List Bytes} (ha : 0 < align) (hne : bss ≠ []) :
    (frames true pos (bss.map fun bs => (⟨align, none⟩, bs))).getLast? =
      some (pos + (body pos (bss.map fun bs => (⟨align, none⟩, bs))).length) := by
  induction bss generalizing pos with
  | nil => exact absurd rfl hne
  | cons bs bss ih =>
      have hle := le_alignUp ha pos
      simp only [List.map_cons, frames, Slot.framed, Option.isNone_none, Bool.true_or, Bool.and_self,
        if_true, body, List.length_append, List.length_replicate]
      by_cases hnil : bss = []
      · rw [hnil]
        simp only [List.map_nil, frames, body, List.getLast?_singleton, List.length_nil]
        congr 1
        omega
      · rw [List.getLast?_cons, ih hnil, Option.getD_some]
        congr 1
        omega

/-- The members of an array have one type each, and as many offsets. -/
theorem map_fst_elements (align : ℕ) (bss : List Bytes) :
    (bss.map fun bs => ((⟨align, none⟩ : Slot), bs)).map Prod.fst =
      List.replicate bss.length ⟨align, none⟩ := by
  rw [List.map_map, List.eq_replicate_iff]
  simp

/-- An array has an offset for every element. -/
theorem length_frames_elements (align pos : ℕ) (bss : List Bytes) :
    (frames true pos (bss.map fun bs => (⟨align, none⟩, bs))).length = bss.length := by
  rw [length_frames, map_fst_elements, countFrames_replicate]

/-- **The elements of an array are recovered** from its bytes. -/
theorem unpackArray_packArray {align : ℕ} {bss : List Bytes} (ha : 0 < align)
    (hlt : (packArray align bss).length < 2 ^ 64) :
    unpackArray align (packArray align bss) = bss := by
  by_cases hnil : bss = []
  · rw [hnil]
    rfl
  obtain ⟨ms, hms⟩ : ∃ ms : List (Slot × Bytes), ms = bss.map fun bs => (⟨align, none⟩, bs) := ⟨_, rfl⟩
  obtain ⟨es, hes⟩ : ∃ es, es = frames true 0 ms := ⟨_, rfl⟩
  obtain ⟨w, hw⟩ : ∃ w, w = offsetWidth (body 0 ms).length es.length := ⟨_, rfl⟩
  have hpack : packArray align bss = body 0 ms ++ offsetTable w es := by rw [hw, hes, hms]; rfl
  have hlen : (packArray align bss).length = (body 0 ms).length + es.length * w := by
    rw [hpack, List.length_append, length_offsetTable]
  have hcount : es.length = bss.length := by
    rw [hes, hms]
    exact length_frames_elements align 0 bss
  have hn : 0 < es.length := by
    rw [hcount]
    exact List.length_pos_iff.mpr hnil
  have hwpos : 0 < w := by
    rw [hw]
    exact offsetWidth_pos _ _
  have hwidth : widthOf (packArray align bss).length = w := by
    rw [hpack, hw]
    exact widthOf_append_offsetTable _ hn
  have halign : ∀ m ∈ ms, 0 < m.1.align := by
    rw [hms]
    exact List.forall_mem_map.mpr fun _ _ => ha
  have hle : ∀ e ∈ es, e ≤ (body 0 ms).length := fun e he => by
    have hframe := le_of_mem_frames halign e (hes ▸ he)
    rwa [Nat.zero_add] at hframe
  -- the last offset tells where the table starts
  have hstop : leNat (slice (packArray align bss) ((packArray align bss).length - w) w) =
      (body 0 ms).length := by
    refine leNat_lastOffset hw hpack hle hlt ?_
    rw [hes, hms, frames_getLast ha hnil, Nat.zero_add]
  have hne : packArray align bss ≠ [] := by
    refine List.ne_nil_of_length_pos ?_
    rw [hlen]
    have := Nat.mul_pos hn hwpos
    omega
  have hnum : ((packArray align bss).length - (body 0 ms).length) / w = bss.length := by
    rw [hlen, Nat.add_sub_cancel_left, Nat.mul_div_cancel _ hwpos, hcount]
  have hbody : Holds (packArray align bss) 0 (body 0 ms) := (holds_parts hpack).1
  have hfst : ms.map Prod.fst = List.replicate bss.length ⟨align, none⟩ := by
    rw [hms]
    exact map_fst_elements align bss
  have hsnd : ms.map Prod.snd = bss := by
    rw [hms, List.map_map]
    simp [Function.comp_def]
  unfold unpackArray
  simp only [hne, if_false, hwidth, hstop, hnum]
  rw [← hfst]
  refine (unframe_body halign ?_ hbody (fun j e hj => ?_) (Nat.zero_add _)).trans hsnd
  · rw [hms]
    refine List.forall_mem_map.mpr fun bs _ n hsome => ?_
    cases hsome
  · rw [Nat.zero_add]
    exact leNat_offsetTable hw hpack hle hlt (hes ▸ hj)

end EosShard.Found
