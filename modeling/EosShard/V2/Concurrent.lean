import EosShard.V2.Dedup
import EosShard.Found.Interleaving

/-!
# Concurrent `add_blob` calls

Any number of threads call `add_blob` on one writer. A call takes the atomic steps the lock leaves
it: the pool section, the section that looks up the checksum, appends the entry and reserves space,
one unlocked `pwrite` for each piece of data, and the assignment of offset and size to the entry.

* `threadStep` is the next step of a call, `solo_addBlob` ties it to the sequential `addBlob`.
* `Coherent` is the invariant of all intermediate states. Space belongs to checksums: the extents in
  the table are apart, and each is either filled or being filled by exactly one thread. Entries
  belong to threads: no two threads have the same index.
* `reaches_takesPart`: a call that is turned away leaves no trace.
* `finished_of_reaches`: when all calls have returned, the ids of the accepted calls differ, every
  entry is that of its call, equal data shares one extent, and different data does not overlap.
-/

namespace EosShard.V2

open EosShard.Found

variable {env : Env}

/-! ## The steps of a call -/

/-- How far a call has come. -/
inductive Phase
  /-- It has not entered the pool section. -/
  | start
  /-- The length checks have turned it away. -/
  | turnedAway
  /-- Its strings are in the pool. -/
  | pooled (nameOffs contentTypeOffs : ℕ)
  /-- It has reserved space and is about to write `piece` at `offset`, and then `rest`. -/
  | writing (index dataStart offset : ℕ) (piece : Bytes) (rest : List Bytes)
  /-- Its data is written, or was there already. -/
  | assigning (index dataStart : ℕ)
  /-- It has returned an id. -/
  | returned (id : ℕ)
  deriving DecidableEq

namespace Phase

/-- The copy loop in front of the next read. -/
def copying (index dataStart offset : ℕ) : List Bytes → Phase
  | [] => assigning index dataStart
  | piece :: rest => writing index dataStart offset piece rest

/-- The entry that belongs to the call. -/
def index : Phase → Option ℕ
  | writing k _ _ _ _ => some k
  | assigning k _ => some k
  | returned k => some k
  | _ => none

/-- The call still has data to write. -/
def Writing : Phase → Prop
  | writing _ _ _ _ _ => True
  | _ => False

/-- What the call has returned. -/
def result : Phase → Option ℕ
  | turnedAway => some 0
  | returned id => some id
  | _ => none

/-- A thread that copies has its index. -/
theorem index_copying (k d o : ℕ) (ps : List Bytes) : (copying k d o ps).index = some k := by
  cases ps <;> rfl

end Phase

/-- What the calls share: the writer and the file. -/
structure Shared where
  writer : WriterV2
  file : Bytes

/-- A running call. -/
structure Thread (env : Env) where
  call : AddBlob env
  phase : Phase

/-- The next atomic step of a call. -/
def threadStep (s : Shared) (t : Thread env) : Option (Shared × Thread env) :=
  match t.phase with
  | .start =>
      if t.call.Accepted then
        let (w, nameOffs, contentTypeOffs) := poolSection s.writer t.call
        some (⟨w, s.file⟩, ⟨t.call, .pooled nameOffs contentTypeOffs⟩)
      else some (s, ⟨t.call, .turnedAway⟩)
  | .pooled nameOffs contentTypeOffs =>
      let (w, index, dataStart, isNew) := reserveSection s.writer t.call nameOffs contentTypeOffs
      some (⟨w, s.file⟩,
        ⟨t.call, .copying index dataStart dataStart (if isNew then t.call.reads else [])⟩)
  | .writing index dataStart offset piece rest =>
      some (⟨s.writer, pwrite s.file piece offset⟩,
        ⟨t.call, .copying index dataStart (offset + piece.length) rest⟩)
  | .assigning index dataStart =>
      some (⟨assignSection s.writer t.call index dataStart, s.file⟩, ⟨t.call, .returned index⟩)
  | .turnedAway => none
  | .returned _ => none

/-- A new writer on a file, and calls that have not begun. -/
def beginning (prev : Bytes) (cs : List (AddBlob env)) : Config Shared (Thread env) :=
  ⟨⟨writerV2New, prev⟩, cs.map fun c => ⟨c, .start⟩⟩

/-! ## The sequential call as a schedule -/

/-- The copy loop, run without interruption. -/
theorem solo_copying (w : WriterV2) (c : AddBlob env) (k d : ℕ) (ps : List Bytes) (f : Bytes)
    (o : ℕ) :
    Solo threadStep (⟨w, f⟩, (⟨c, .copying k d o ps⟩ : Thread env))
      (⟨w, applyWrites f (seqWrites o ps)⟩, ⟨c, .assigning k d⟩) := by
  induction ps generalizing f o with
  | nil => exact Solo.refl _
  | cons p ps ih => exact Solo.head rfl (ih _ _)

/-- **A call whose steps are not interleaved is `addBlob`.** -/
theorem solo_addBlob (w : WriterV2) (f : Bytes) (c : AddBlob env) :
    ∃ ph, ph.result = some (addBlob w c).2.2 ∧
      Solo threadStep (⟨w, f⟩, (⟨c, .start⟩ : Thread env))
        (⟨(addBlob w c).1, applyWrites f (addBlob w c).2.1⟩, ⟨c, ph⟩) := by
  by_cases hc : c.Accepted
  · rcases hp : poolSection w c with ⟨w₁, no, co⟩
    rcases hr : reserveSection w₁ c no co with ⟨w₂, k, d, isNew⟩
    have hadd : addBlob w c =
        (assignSection w₂ c k d, if isNew then seqWrites d c.reads else [], k) := by
      simp only [addBlob, hc, if_true, hp, hr]
    refine ⟨.returned k, by rw [hadd]; rfl, ?_⟩
    have h₁ : threadStep ⟨w, f⟩ (⟨c, .start⟩ : Thread env) = some (⟨w₁, f⟩, ⟨c, .pooled no co⟩) := by
      simp only [threadStep, hc, if_true, hp]
    have h₂ : threadStep ⟨w₁, f⟩ (⟨c, .pooled no co⟩ : Thread env) =
        some (⟨w₂, f⟩, ⟨c, .copying k d d (if isNew then c.reads else [])⟩) := by
      simp only [threadStep, hr]
    have h₃ := solo_copying w₂ c k d (if isNew then c.reads else []) f d
    have hlog : applyWrites f (seqWrites d (if isNew then c.reads else [])) =
        applyWrites f (addBlob w c).2.1 := by
      rw [hadd]
      cases isNew <;> rfl
    rw [hlog] at h₃
    rw [hadd] at h₃ ⊢
    exact Solo.head h₁ (Solo.head h₂ (h₃.trans (Solo.head rfl (Solo.refl _))))
  · refine ⟨.turnedAway, by rw [addBlob_rejected hc]; rfl, ?_⟩
    rw [addBlob_rejected hc]
    exact Solo.head (by simp only [threadStep, hc, if_false, applyWrites_nil]) (Solo.refl _)

/-! ## The invariant -/

/-- The bytes that belong to a checksum, among the calls `cs`. -/
def contentOf (cs : List (AddBlob env)) (x : Csum) : Bytes :=
  ((cs.find? fun c => c.csum = x).map AddBlob.stored).getD []

/-- Without collisions the digest of a call leads to its content. -/
theorem contentOf_csum {cs : List (AddBlob env)} (hcol : CollisionFree cs) {c : AddBlob env}
    (hc : c ∈ cs) : contentOf cs c.csum = c.stored := by
  unfold contentOf
  cases hf : cs.find? fun c' => c'.csum = c.csum with
  | none => simpa using List.find?_eq_none.mp hf c hc
  | some c' =>
      have hx : c'.csum = c.csum := by simpa using List.find?_some hf
      exact hcol _ (List.mem_of_find?_eq_some hf) _ hc hx

/-- The call has an entry whose data is not yet assigned, and its data has a place. -/
def Reserved (s : Shared) (c : AddBlob env) (k d : ℕ) : Prop :=
  s.writer.csumToDataStart.lookup c.csum = some d ∧
    ∃ no co, StringsPlaced s.writer.cpool c no co ∧ s.writer.blobs[k]? = some (c.entry no co)

/-- The call has an entry that says where its data is. -/
def Assigned (s : Shared) (c : AddBlob env) (k : ℕ) : Prop :=
  ∃ d no co, s.writer.csumToDataStart.lookup c.csum = some d ∧
    StringsPlaced s.writer.cpool c no co ∧ s.writer.blobs[k]? = some (c.placed no co d)

/-- What a call has in each phase. A call that is writing has filled its extent up to its offset. -/
def ThreadOk (s : Shared) (t : Thread env) : Prop :=
  match t.phase with
  | .start => True
  | .turnedAway => ¬ t.call.Accepted
  | .pooled no co => t.call.Accepted ∧ StringsPlaced s.writer.cpool t.call no co
  | .writing k d o p ps => t.call.Accepted ∧ Reserved s t.call k d ∧
      ∃ done, done ++ (p ++ ps.flatten) = t.call.stored ∧ o = d + done.length ∧ Holds s.file d done
  | .assigning k d => t.call.Accepted ∧ Reserved s t.call k d
  | .returned k => t.call.Accepted ∧ Assigned s t.call k

/-- Space is handed out to checksums: between the header and the running offset, and apart. -/
structure Space (cs : List (AddBlob env)) (w : WriterV2) : Prop where
  pool : w.cpool.Ok
  header_le : Hdr.sizeof ≤ w.ctxOffset
  bounds : ∀ x d, w.csumToDataStart.lookup x = some d →
    Hdr.sizeof ≤ d ∧ d + (contentOf cs x).length ≤ w.ctxOffset
  apart : ∀ x x' d d', x ≠ x' → w.csumToDataStart.lookup x = some d →
    w.csumToDataStart.lookup x' = some d' →
    Apart d (contentOf cs x).length d' (contentOf cs x').length

/-- The invariant of all intermediate states. -/
structure Coherent (cs : List (AddBlob env)) (c : Config Shared (Thread env)) : Prop where
  calls : c.threads.map Thread.call = cs
  space : Space cs c.shared.writer
  /-- An extent is filled, or one of the calls is filling it. -/
  filled : ∀ x d, c.shared.writer.csumToDataStart.lookup x = some d →
    Holds c.shared.file d (contentOf cs x) ∨
      ∃ (j : ℕ) (u : Thread env), c.threads[j]? = some u ∧ u.call.csum = x ∧ u.phase.Writing
  threads : ∀ (j : ℕ) (u : Thread env), c.threads[j]? = some u → ThreadOk c.shared u
  /-- No two calls have one entry. -/
  distinct : ∀ (i j : ℕ) (t u : Thread env) k, i ≠ j → c.threads[i]? = some t → c.threads[j]? = some u →
    t.phase.index = some k → u.phase.index ≠ some k
  /-- No two calls write the data of one checksum. -/
  writers : ∀ (i j : ℕ) (t u : Thread env), i ≠ j → c.threads[i]? = some t → c.threads[j]? = some u →
    t.phase.Writing → u.phase.Writing → t.call.csum ≠ u.call.csum

/-- What a step has to leave alone for the sake of another call `u`. -/
structure Spares (s s' : Shared) (u : Thread env) : Prop where
  strings : s.writer.cpool.strings <+: s'.writer.cpool.strings
  entry : ∀ k b, u.phase.index = some k → s.writer.blobs[k]? = some b →
    s'.writer.blobs[k]? = some b
  table : ∀ x d, s.writer.csumToDataStart.lookup x = some d →
    s'.writer.csumToDataStart.lookup x = some d
  file : u.phase.Writing → ∀ d e, s.writer.csumToDataStart.lookup u.call.csum = some d →
    e.length ≤ u.call.stored.length → Holds s.file d e → Holds s'.file d e

/-- What another thread spares stays right for a thread. -/
theorem ThreadOk.of_spares {s s' : Shared} {u : Thread env} (h : ThreadOk s u)
    (hs : Spares s s' u) : ThreadOk s' u := by
  obtain ⟨c, ph⟩ := u
  cases ph with
  | start => trivial
  | turnedAway => exact h
  | pooled no co => exact ⟨h.1, h.2.mono hs.strings⟩
  | writing k d o p ps =>
      obtain ⟨hc, ⟨htab, no, co, hstr, hb⟩, done, hdone, ho, hf⟩ := h
      refine ⟨hc, ⟨hs.table _ _ htab, no, co, hstr.mono hs.strings, hs.entry _ _ rfl hb⟩,
        done, hdone, ho, hs.file trivial _ _ htab ?_ hf⟩
      rw [← hdone, List.length_append]
      exact Nat.le_add_right _ _
  | assigning k d =>
      obtain ⟨hc, htab, no, co, hstr, hb⟩ := h
      exact ⟨hc, hs.table _ _ htab, no, co, hstr.mono hs.strings, hs.entry _ _ rfl hb⟩
  | returned k =>
      obtain ⟨hc, d, no, co, htab, hstr, hb⟩ := h
      exact ⟨hc, d, no, co, hs.table _ _ htab, hstr.mono hs.strings, hs.entry _ _ rfl hb⟩

/-- The entry of a call exists. -/
theorem ThreadOk.index_lt {s : Shared} {u : Thread env} (h : ThreadOk s u) {k : ℕ}
    (hk : u.phase.index = some k) : k < s.writer.blobs.length := by
  obtain ⟨c, ph⟩ := u
  cases ph with
  | start => cases hk
  | turnedAway => cases hk
  | pooled => cases hk
  | writing k' d o p ps =>
      cases hk
      obtain ⟨-, ⟨-, no, co, -, hb⟩, -⟩ := h
      exact (List.getElem?_eq_some_iff.mp hb).1
  | assigning k' d =>
      cases hk
      obtain ⟨-, -, no, co, -, hb⟩ := h
      exact (List.getElem?_eq_some_iff.mp hb).1
  | returned k' =>
      cases hk
      obtain ⟨-, d, no, co, -, -, hb⟩ := h
      exact (List.getElem?_eq_some_iff.mp hb).1

/-- A call that is writing has its place in the table. -/
theorem ThreadOk.lookup_of_writing {s : Shared} {u : Thread env} (h : ThreadOk s u)
    (hw : u.phase.Writing) : ∃ d, s.writer.csumToDataStart.lookup u.call.csum = some d := by
  obtain ⟨c, ph⟩ := u
  cases ph with
  | writing k d o p ps =>
      obtain ⟨-, ⟨htab, -⟩, -⟩ := h
      exact ⟨d, htab⟩
  | start => exact hw.elim
  | turnedAway => exact hw.elim
  | pooled => exact hw.elim
  | assigning => exact hw.elim
  | returned => exact hw.elim

/-- An entry of a list with one entry replaced. -/
theorem getElem?_set_cases {α : Type} {l : List α} {i j : ℕ} {a b : α}
    (h : (l.set i a)[j]? = some b) : j = i ∧ b = a ∨ j ≠ i ∧ l[j]? = some b := by
  rw [List.getElem?_set] at h
  by_cases hij : i = j
  · rw [if_pos hij] at h
    split_ifs at h
    exact Or.inl ⟨hij.symm, (Option.some.inj h).symm⟩
  · rw [if_neg hij] at h
    exact Or.inr ⟨fun hj => hij hj.symm, h⟩

/-- What holds of any two members of a list is kept if one is replaced. -/
theorem forall_ne_set {α : Type} {R : α → α → Prop} (hsymm : ∀ a b, R a b → R b a) {l : List α}
    {i : ℕ} {a : α}
    (h : ∀ (j j' : ℕ) (b b' : α), j ≠ j' → l[j]? = some b → l[j']? = some b' → R b b')
    (ha : ∀ (j : ℕ) (b : α), j ≠ i → l[j]? = some b → R a b) (j j' : ℕ) (b b' : α) (hjj : j ≠ j')
    (hb : (l.set i a)[j]? = some b) (hb' : (l.set i a)[j']? = some b') : R b b' := by
  rcases getElem?_set_cases hb with ⟨hj, rfl⟩ | ⟨hj, hb₀⟩ <;>
    rcases getElem?_set_cases hb' with ⟨hj', rfl⟩ | ⟨hj', hb₁⟩
  · exact absurd (hj.trans hj'.symm) hjj
  · exact ha j' b' hj' hb₁
  · exact hsymm _ _ (ha j b hj hb₀)
  · exact h j j' b b' hjj hb₀ hb₁

/-- What has to be shown of one step of one call. -/
theorem Coherent.set {cs : List (AddBlob env)} {c : Config Shared (Thread env)}
    (h : Coherent cs c) {i : ℕ} {t t' : Thread env} {s' : Shared} (ht : c.threads[i]? = some t)
    (hcall : t'.call = t.call) (hspace : Space cs s'.writer) (hown : ThreadOk s' t')
    (hothers : ∀ (j : ℕ) (u : Thread env), j ≠ i → c.threads[j]? = some u → Spares c.shared s' u)
    (hfilled : ∀ x d, s'.writer.csumToDataStart.lookup x = some d →
      Holds s'.file d (contentOf cs x) ∨ (t.call.csum = x ∧ t'.phase.Writing) ∨
        ∃ (j : ℕ) (u : Thread env), j ≠ i ∧ c.threads[j]? = some u ∧ u.call.csum = x ∧ u.phase.Writing)
    (hindex : ∀ k, t'.phase.index = some k →
      t.phase.index = some k ∨ k = c.shared.writer.blobs.length)
    (hwriting : t'.phase.Writing →
      t.phase.Writing ∨ c.shared.writer.csumToDataStart.lookup t.call.csum = none) :
    Coherent cs ⟨s', c.threads.set i t'⟩ := by
  have hi : i < c.threads.length := (List.getElem?_eq_some_iff.mp ht).1
  have hset : ∀ j, j ≠ i → (c.threads.set i t')[j]? = c.threads[j]? := fun j hj =>
    List.getElem?_set_ne hj.symm
  -- the moving call has an entry that no other call has, and writes what no other call writes
  have hne : ∀ (j : ℕ) (u : Thread env), j ≠ i → c.threads[j]? = some u →
      ∀ k, t'.phase.index = some k → u.phase.index ≠ some k := by
    intro j u hj hu k hk hk'
    rcases hindex k hk with hk₀ | rfl
    · exact h.distinct i j t u k hj.symm ht hu hk₀ hk'
    · exact absurd ((h.threads j u hu).index_lt hk') (lt_irrefl _)
  have hnw : ∀ (j : ℕ) (u : Thread env), j ≠ i → c.threads[j]? = some u →
      t'.phase.Writing → u.phase.Writing → t'.call.csum ≠ u.call.csum := by
    intro j u hj hu hw hw'
    rw [hcall]
    rcases hwriting hw with hw₀ | hnone
    · exact h.writers i j t u hj.symm ht hu hw₀ hw'
    · intro he
      obtain ⟨d, hd⟩ := (h.threads j u hu).lookup_of_writing hw'
      rw [← he, hnone] at hd
      cases hd
  refine ⟨?_, hspace, ?_, ?_, ?_, ?_⟩
  · rw [List.map_set, hcall, ← h.calls]
    apply List.ext_getElem?
    intro j
    by_cases hj : j = i
    · subst hj
      rw [List.getElem?_set_self (by simpa using hi), List.getElem?_map, ht]
      rfl
    · rw [List.getElem?_set_ne (Ne.symm hj)]
  · intro x d hx
    rcases hfilled x d hx with hf | ⟨hx, hw⟩ | ⟨j, u, hj, hu, hx, hw⟩
    · exact Or.inl hf
    · exact Or.inr ⟨i, t', List.getElem?_set_self hi, by rw [hcall, hx], hw⟩
    · exact Or.inr ⟨j, u, by rw [hset j hj, hu], hx, hw⟩
  · intro j u hu
    rcases getElem?_set_cases hu with ⟨-, rfl⟩ | ⟨hj, hu⟩
    · exact hown
    · exact (h.threads j u hu).of_spares (hothers j u hj hu)
  · intro j j' u u' k hjj hu hu'
    exact forall_ne_set (fun u u' hk k hu hu' => hk k hu' hu)
      (fun j j' u u' hjj hu hu' k => h.distinct j j' u u' k hjj hu hu') hne j j' u u' hjj hu hu' k
  · exact forall_ne_set (fun u u' hw hu hu' => (hw hu' hu).symm) h.writers hnw

/-! ## Each step keeps the invariant -/

/-- A thread works on one of the calls. -/
theorem Coherent.call_mem {cs : List (AddBlob env)} {c : Config Shared (Thread env)}
    (h : Coherent cs c) {i : ℕ} {t : Thread env} (ht : c.threads[i]? = some t) : t.call ∈ cs := by
  rw [← h.calls]
  exact List.mem_map_of_mem (List.mem_of_getElem? ht)

/-- What is not filled is being filled by another call than one that is not writing. -/
theorem Coherent.filled_others {cs : List (AddBlob env)} {c : Config Shared (Thread env)}
    (h : Coherent cs c) {i : ℕ} {t : Thread env} (ht : c.threads[i]? = some t) {x : Csum} {d : ℕ}
    (hx : c.shared.writer.csumToDataStart.lookup x = some d)
    (hnw : t.phase.Writing → t.call.csum ≠ x) :
    Holds c.shared.file d (contentOf cs x) ∨
      ∃ (j : ℕ) (u : Thread env), j ≠ i ∧ c.threads[j]? = some u ∧ u.call.csum = x ∧
        u.phase.Writing := by
  rcases h.filled x d hx with hf | ⟨j, u, hu, hux, hw⟩
  · exact Or.inl hf
  · refine Or.inr ⟨j, u, ?_, hu, hux, hw⟩
    rintro rfl
    rw [ht] at hu
    cases hu
    exact hnw hw hux

/-- A call that is not writing leaves what is not filled to the others. -/
theorem Coherent.filled_of_idle {cs : List (AddBlob env)} {c : Config Shared (Thread env)}
    (h : Coherent cs c) {i : ℕ} {t : Thread env} (ht : c.threads[i]? = some t)
    (hnw : ¬ t.phase.Writing) {x : Csum} {d : ℕ}
    (hx : c.shared.writer.csumToDataStart.lookup x = some d) {q : Prop} :
    Holds c.shared.file d (contentOf cs x) ∨ q ∨
      ∃ (j : ℕ) (u : Thread env), j ≠ i ∧ c.threads[j]? = some u ∧ u.call.csum = x ∧
        u.phase.Writing :=
  (h.filled_others ht hx fun hw => absurd hw hnw).imp_right Or.inr

/-- A step that changes neither the table nor the file nor any entry spares every call. -/
theorem Spares.of_eq {s s' : Shared} {u : Thread env}
    (hstr : s.writer.cpool.strings <+: s'.writer.cpool.strings)
    (hblobs : s'.writer.blobs = s.writer.blobs)
    (htab : s'.writer.csumToDataStart = s.writer.csumToDataStart) (hfile : s'.file = s.file) :
    Spares s s' u where
  strings := hstr
  entry _ _ _ hb := hblobs ▸ hb
  table _ _ hx := htab ▸ hx
  file _ _ _ _ _ hf := hfile ▸ hf

/-- The invariant is kept when an accepted call adds its strings to the pool. -/
theorem Coherent.step_start {cs : List (AddBlob env)} {c : Config Shared (Thread env)}
    (h : Coherent cs c) {i : ℕ} {t : Thread env} (ht : c.threads[i]? = some t)
    (hph : t.phase = .start) (hc : t.call.Accepted) :
    Coherent cs ⟨⟨(poolSection c.shared.writer t.call).1, c.shared.file⟩, c.threads.set i
      ⟨t.call, .pooled (poolSection c.shared.writer t.call).2.1
        (poolSection c.shared.writer t.call).2.2⟩⟩ := by
  have hnw : ¬ t.phase.Writing := by
    rw [hph]
    exact id
  obtain ⟨hok, hpre, -, -⟩ := poolSection_spec h.space.pool t.call
  refine h.set ht rfl ⟨hok, h.space.header_le, h.space.bounds, h.space.apart⟩
    ⟨hc, stringsPlaced_poolSection h.space.pool t.call⟩ (fun _ _ _ _ => .of_eq hpre rfl rfl rfl)
    (fun _ _ hx => h.filled_of_idle ht hnw hx) (fun k hk => by cases hk) (fun hw => hw.elim)

/-- The invariant is kept when a call is turned away. -/
theorem Coherent.step_turnedAway {cs : List (AddBlob env)} {c : Config Shared (Thread env)}
    (h : Coherent cs c) {i : ℕ} {t : Thread env} (ht : c.threads[i]? = some t)
    (hph : t.phase = .start) (hc : ¬ t.call.Accepted) :
    Coherent cs ⟨c.shared, c.threads.set i ⟨t.call, .turnedAway⟩⟩ := by
  have hnw : ¬ t.phase.Writing := by
    rw [hph]
    exact id
  refine h.set ht rfl h.space hc (fun _ _ _ _ => .of_eq List.prefix_rfl rfl rfl rfl)
    (fun _ _ hx => h.filled_of_idle ht hnw hx) (fun k hk => by cases hk) (fun hw => hw.elim)

/-- Below 4 GiB a call is new exactly if its checksum is not in the table. -/
theorem Space.lookup_of_isNew {cs : List (AddBlob env)} {w : WriterV2} (h : Space cs w)
    (hsize : w.ctxOffset < 2 ^ 32) {c : AddBlob env} (hnew : IsNew w c) :
    w.csumToDataStart.lookup c.csum = none := by
  cases hl : w.csumToDataStart.lookup c.csum with
  | none => rfl
  | some d =>
      obtain ⟨hlow, hhigh⟩ := h.bounds _ _ hl
      have hz : gpointerToUint d = 0 := by
        rw [IsNew, lookupDataStart, hl] at hnew
        exact hnew
      have hd : (36 : ℕ) ≤ d := hlow
      unfold gpointerToUint at hz
      omega

/-- A content that is not new is in the table. -/
theorem Space.lookup_of_not_isNew {cs : List (AddBlob env)} {w : WriterV2} (h : Space cs w)
    (hsize : w.ctxOffset < 2 ^ 32) {c : AddBlob env} (hnew : ¬ IsNew w c) :
    w.csumToDataStart.lookup c.csum = some (lookupDataStart w c.csum) := by
  cases hl : w.csumToDataStart.lookup c.csum with
  | none =>
      refine absurd ?_ hnew
      rw [IsNew, lookupDataStart, hl]
      rfl
  | some d =>
      obtain ⟨-, hhigh⟩ := h.bounds _ _ hl
      rw [lookupDataStart, hl, Option.getD_some, gpointerToUint, Nat.mod_eq_of_lt (by omega)]

/-- A new content gets space at the end. -/
theorem reserveSection_of_isNew {w : WriterV2} {c : AddBlob env} (h : IsNew w c) (no co : ℕ) :
    reserveSection w c no co =
      ({ w with blobs := w.blobs ++ [c.entry no co]
                ctxOffset := align (w.ctxOffset + c.stored.length)
                csumToDataStart := w.csumToDataStart.insert c.csum (guintToPointer w.ctxOffset) },
        w.blobs.length, w.ctxOffset, true) := by
  have hz : lookupDataStart w c.csum = 0 := h
  simp only [reserveSection, hz, if_true, List.length_append, List.length_singleton,
    Nat.add_sub_cancel]

/-- A content that is there already gets no space. -/
theorem reserveSection_of_not_isNew {w : WriterV2} {c : AddBlob env} (h : ¬ IsNew w c)
    (no co : ℕ) :
    reserveSection w c no co = ({ w with blobs := w.blobs ++ [c.entry no co] }, w.blobs.length,
      lookupDataStart w c.csum, false) := by
  have hz : ¬ lookupDataStart w c.csum = 0 := h
  simp only [reserveSection, hz, if_false, List.length_append, List.length_singleton,
    Nat.add_sub_cancel]

/-- What is in a list stays at its place when the list grows. -/
theorem getElem?_append_of_some {α : Type} {l : List α} {k : ℕ} {b : α} (h : l[k]? = some b)
    (l' : List α) : (l ++ l')[k]? = some b := by
  rw [List.getElem?_append_left (List.getElem?_eq_some_iff.mp h).1, h]

/-- The space behind all other data is handed out to a checksum that has none. -/
theorem Space.reserve {cs : List (AddBlob env)} {w : WriterV2} (h : Space cs w) {c : AddBlob env}
    (hcont : contentOf cs c.csum = c.stored) (b : BlobEntry) :
    Space cs { w with
      blobs := w.blobs ++ [b]
      ctxOffset := align (w.ctxOffset + c.stored.length)
      csumToDataStart := w.csumToDataStart.insert c.csum w.ctxOffset } := by
  have hle : w.ctxOffset ≤ align (w.ctxOffset + c.stored.length) :=
    (Nat.le_add_right _ _).trans (le_align _)
  refine ⟨h.pool, h.header_le.trans hle, ?_, ?_⟩
  · intro x d hx
    simp only [Table.lookup_insert] at hx
    split_ifs at hx with hxc
    · cases hx
      rw [hxc, hcont]
      exact ⟨h.header_le, le_align _⟩
    · exact ⟨(h.bounds x d hx).1, (h.bounds x d hx).2.trans hle⟩
  · intro x x' d d' hxx hx hx'
    simp only [Table.lookup_insert] at hx hx'
    split_ifs at hx with hxc <;> split_ifs at hx' with hxc'
    · exact absurd (hxc.trans hxc'.symm) hxx
    · cases hx
      exact Or.inr (h.bounds x' d' hx').2
    · cases hx'
      exact Or.inl (h.bounds x d hx).2
    · exact h.apart x x' d d' hxx hx hx'

/-- New data gets the space behind all other data, and the call starts to write it. -/
theorem Coherent.step_reserve {cs : List (AddBlob env)} (hcol : CollisionFree cs)
    {c : Config Shared (Thread env)} (h : Coherent cs c) {i : ℕ} {t : Thread env} {no co : ℕ}
    (ht : c.threads[i]? = some t) (hph : t.phase = .pooled no co)
    (hnew : IsNew c.shared.writer t.call) (hsize : c.shared.writer.ctxOffset < 2 ^ 32) :
    Coherent cs ⟨⟨{ c.shared.writer with
        blobs := c.shared.writer.blobs ++ [t.call.entry no co]
        ctxOffset := align (c.shared.writer.ctxOffset + t.call.stored.length)
        csumToDataStart := c.shared.writer.csumToDataStart.insert t.call.csum
          c.shared.writer.ctxOffset }, c.shared.file⟩,
      c.threads.set i ⟨t.call, .copying c.shared.writer.blobs.length c.shared.writer.ctxOffset
        c.shared.writer.ctxOffset t.call.reads⟩⟩ := by
  have hnw : ¬ t.phase.Writing := by
    rw [hph]
    exact id
  have hnone := h.space.lookup_of_isNew hsize hnew
  have hcont := contentOf_csum hcol (h.call_mem ht)
  have hok := h.threads i t ht
  rw [ThreadOk, hph] at hok
  obtain ⟨hc, hstr⟩ := hok
  have hne : ∀ x d, c.shared.writer.csumToDataStart.lookup x = some d → x ≠ t.call.csum := by
    rintro x d hx rfl
    rw [hnone] at hx
    cases hx
  have hres : ∀ f, Reserved ⟨{ c.shared.writer with
      blobs := c.shared.writer.blobs ++ [t.call.entry no co]
      ctxOffset := align (c.shared.writer.ctxOffset + t.call.stored.length)
      csumToDataStart := c.shared.writer.csumToDataStart.insert t.call.csum
        c.shared.writer.ctxOffset }, f⟩ t.call c.shared.writer.blobs.length
      c.shared.writer.ctxOffset := fun f =>
    ⟨Table.lookup_insert_self _ _ _, no, co, hstr, by simp⟩
  refine h.set ht rfl (h.space.reserve hcont _) ?_ ?_ ?_ ?_ ?_
  · rcases hr : t.call.reads with _ | ⟨p, ps⟩
    · exact ⟨hc, hres _⟩
    · refine ⟨hc, hres _, [], ?_, rfl, Holds.nil _ _⟩
      have := t.call.reads_flatten
      rw [hr] at this
      exact this
  · intro j u hj hu
    exact ⟨List.prefix_rfl, fun k b _ hb => getElem?_append_of_some hb _,
      fun x d hx => (Table.lookup_insert_of_ne _ _ (hne x d hx)).trans hx, fun _ _ _ _ _ hf => hf⟩
  · intro x d hx
    simp only [Table.lookup_insert] at hx
    split_ifs at hx with hxc
    · -- the new extent is being filled, unless it is empty
      rcases hr : t.call.reads with _ | ⟨p, ps⟩
      · left
        have hst : t.call.stored = [] := by
          have := t.call.reads_flatten
          rw [hr] at this
          exact this.symm
        rw [hxc, hcont, hst]
        exact Holds.nil _ _
      · exact Or.inr (Or.inl ⟨hxc.symm, trivial⟩)
    · exact h.filled_of_idle ht hnw hx
  · intro k hk
    rw [Phase.index_copying] at hk
    exact Or.inr (Option.some.inj hk).symm
  · exact fun _ => Or.inr hnone

/-- Data that is in the table is not written again. -/
theorem Coherent.step_share {cs : List (AddBlob env)} {c : Config Shared (Thread env)}
    (h : Coherent cs c) {i : ℕ} {t : Thread env} {no co : ℕ}
    (ht : c.threads[i]? = some t) (hph : t.phase = .pooled no co)
    (hnew : ¬ IsNew c.shared.writer t.call) (hsize : c.shared.writer.ctxOffset < 2 ^ 32) :
    Coherent cs ⟨⟨{ c.shared.writer with
        blobs := c.shared.writer.blobs ++ [t.call.entry no co] }, c.shared.file⟩,
      c.threads.set i ⟨t.call, .assigning c.shared.writer.blobs.length
        (lookupDataStart c.shared.writer t.call.csum)⟩⟩ := by
  have hnw : ¬ t.phase.Writing := by
    rw [hph]
    exact id
  have hok := h.threads i t ht
  rw [ThreadOk, hph] at hok
  obtain ⟨hc, hstr⟩ := hok
  refine h.set ht rfl ⟨h.space.pool, h.space.header_le, h.space.bounds, h.space.apart⟩
    ⟨hc, h.space.lookup_of_not_isNew hsize hnew, no, co, hstr, by simp⟩ ?_ ?_ ?_ ?_
  · intro j u hj hu
    exact ⟨List.prefix_rfl, fun k b _ hb => getElem?_append_of_some hb _, fun _ _ hx => hx,
      fun _ _ _ _ _ hf => hf⟩
  · exact fun _ _ hx => h.filled_of_idle ht hnw hx
  · intro k hk
    exact Or.inr (Option.some.inj hk).symm
  · exact fun hw => hw.elim

/-- A `pwrite` fills the next piece of the call's own extent, and no other. -/
theorem Coherent.step_write {cs : List (AddBlob env)} (hcol : CollisionFree cs)
    {c : Config Shared (Thread env)} (h : Coherent cs c) {i : ℕ} {t : Thread env} {k d o : ℕ}
    {p : Bytes} {ps : List Bytes} (ht : c.threads[i]? = some t)
    (hph : t.phase = .writing k d o p ps) :
    Coherent cs ⟨⟨c.shared.writer, pwrite c.shared.file p o⟩,
      c.threads.set i ⟨t.call, .copying k d (o + p.length) ps⟩⟩ := by
  have hcont := contentOf_csum hcol (h.call_mem ht)
  have hok := h.threads i t ht
  rw [ThreadOk, hph] at hok
  obtain ⟨hc, hres, done, hdone, rfl, hf⟩ := hok
  have hw : t.phase.Writing := by
    rw [hph]
    trivial
  have hlen : done.length + p.length ≤ t.call.stored.length := by
    rw [← hdone, List.length_append, List.length_append]
    omega
  -- the extents of other checksums do not meet the piece
  have hframe : ∀ x d' e, x ≠ t.call.csum → c.shared.writer.csumToDataStart.lookup x = some d' →
      e.length ≤ (contentOf cs x).length → Holds c.shared.file d' e →
      Holds (pwrite c.shared.file p (d + done.length)) d' e := by
    intro x d' e hx hx' he hfe
    refine hfe.pwrite ?_
    have hap := h.space.apart x t.call.csum d' d hx hx' hres.1
    rw [hcont] at hap
    unfold Apart at hap ⊢
    omega
  have hfill : Holds (pwrite c.shared.file p (d + done.length)) d (done ++ p) :=
    Holds.append_iff.mpr ⟨hf.pwrite (Or.inl (le_refl _)), holds_pwrite _ _ _⟩
  refine h.set ht rfl h.space ?_ ?_ ?_ ?_ (fun _ => Or.inl hw)
  · rcases ps with _ | ⟨q, qs⟩
    · exact ⟨hc, hres⟩
    · refine ⟨hc, hres, done ++ p, ?_, ?_, hfill⟩
      · rw [← hdone]
        simp
      · rw [List.length_append, Nat.add_assoc]
  · intro j u hj hu
    refine ⟨List.prefix_rfl, fun _ _ _ hb => hb, fun _ _ hx => hx, ?_⟩
    intro hw' d' e hx he hfe
    have hux := contentOf_csum hcol (h.call_mem hu)
    exact hframe u.call.csum d' e (h.writers j i u t hj hu ht hw' hw) hx (by rwa [hux]) hfe
  · intro x d' hx
    by_cases hxc : x = t.call.csum
    · rcases ps with _ | ⟨q, qs⟩
      · left
        rw [hxc, hres.1] at hx
        cases hx
        rw [hxc, hcont, ← hdone]
        simpa using hfill
      · exact Or.inr (Or.inl ⟨hxc.symm, trivial⟩)
    · rcases h.filled_others ht hx fun _ => Ne.symm hxc with hfx | hothers
      · exact Or.inl (hframe x d' _ hxc hx (le_refl _) hfx)
      · exact Or.inr (Or.inr hothers)
  · intro k' hk'
    rw [Phase.index_copying] at hk'
    left
    rw [hph]
    exact hk'

/-- The assignment touches the call's own entry. -/
theorem Coherent.step_assign {cs : List (AddBlob env)} {c : Config Shared (Thread env)}
    (h : Coherent cs c) {i : ℕ} {t : Thread env} {k d : ℕ} (ht : c.threads[i]? = some t)
    (hph : t.phase = .assigning k d) :
    Coherent cs ⟨⟨assignSection c.shared.writer t.call k d, c.shared.file⟩,
      c.threads.set i ⟨t.call, .returned k⟩⟩ := by
  have hnw : ¬ t.phase.Writing := by
    rw [hph]
    exact id
  have hok := h.threads i t ht
  rw [ThreadOk, hph] at hok
  obtain ⟨hc, htab, no, co, hstr, hb⟩ := hok
  refine h.set ht rfl ⟨h.space.pool, h.space.header_le, h.space.bounds, h.space.apart⟩
    ⟨hc, d, no, co, htab, hstr, ?_⟩ ?_ ?_ ?_ (fun hw => hw.elim)
  · simp only [assignSection, List.getElem?_modify, hb]
    simp [AddBlob.entry, AddBlob.placed]
  · intro j u hj hu
    refine ⟨List.prefix_rfl, fun k' b hk' hb' => ?_, fun _ _ hx => hx, fun _ _ _ _ _ hf => hf⟩
    have hne : k ≠ k' := by
      rintro rfl
      exact h.distinct i j t u k hj.symm ht hu (by rw [hph]; rfl) hk'
    simp only [assignSection, List.getElem?_modify, hb']
    simp [hne]
  · exact fun _ _ hx => h.filled_of_idle ht hnw hx
  · intro k' hk'
    left
    rw [hph]
    exact hk'

/-- **Every step of every call keeps the invariant**, as long as the data stays below 4 GiB. -/
theorem Coherent.step {cs : List (AddBlob env)} (hcol : CollisionFree cs)
    {c : Config Shared (Thread env)} (h : Coherent cs c) {i : ℕ} {t t' : Thread env} {s' : Shared}
    (hsize : s'.writer.ctxOffset < 2 ^ 32) (ht : c.threads[i]? = some t)
    (hst : threadStep c.shared t = some (s', t')) : Coherent cs ⟨s', c.threads.set i t'⟩ := by
  cases hph : t.phase with
  | start =>
      simp only [threadStep, hph] at hst
      split_ifs at hst with hc
      · cases hst
        exact h.step_start ht hph hc
      · cases hst
        exact h.step_turnedAway ht hph hc
  | turnedAway => simp [threadStep, hph] at hst
  | pooled no co =>
      by_cases hnew : IsNew c.shared.writer t.call
      · simp only [threadStep, hph, reserveSection_of_isNew hnew] at hst
        cases hst
        have hlt : c.shared.writer.ctxOffset < 2 ^ 32 :=
          lt_of_le_of_lt ((Nat.le_add_right _ _).trans (le_align _)) hsize
        have hp : guintToPointer c.shared.writer.ctxOffset = c.shared.writer.ctxOffset :=
          Nat.mod_eq_of_lt (by omega)
        simpa only [hp, if_true] using h.step_reserve hcol ht hph hnew hlt
      · simp only [threadStep, hph, reserveSection_of_not_isNew hnew] at hst
        cases hst
        exact h.step_share ht hph hnew hsize
  | writing k d o p ps =>
      simp only [threadStep, hph] at hst
      cases hst
      exact h.step_write hcol ht hph
  | assigning k d =>
      simp only [threadStep, hph] at hst
      cases hst
      exact h.step_assign ht hph
  | returned k => simp [threadStep, hph] at hst

/-! ## When all calls have returned -/

/-- The beginning is coherent. -/
theorem coherent_beginning (prev : Bytes) (cs : List (AddBlob env)) :
    Coherent cs (beginning prev cs) := by
  have hstart : ∀ (j : ℕ) (u : Thread env), (beginning prev cs).threads[j]? = some u →
      u.phase = .start := by
    intro j u hu
    simp only [beginning, List.getElem?_map, Option.map_eq_some_iff] at hu
    obtain ⟨c, -, rfl⟩ := hu
    rfl
  refine ⟨?_, ⟨constantPoolInit_ok, le_refl _, ?_, ?_⟩, ?_, ?_, ?_, ?_⟩
  · simp [beginning, Function.comp_def]
  · exact fun x d hx => by cases hx
  · exact fun x x' d d' _ hx _ => by cases hx
  · exact fun x d hx => by cases hx
  · intro j u hu
    rw [ThreadOk, hstart j u hu]
    trivial
  · intro i j t u k _ ht _ hk
    rw [hstart i t ht] at hk
    cases hk
  · intro i j t u _ ht _ hw
    rw [hstart i t ht] at hw
    exact hw.elim

/-- The running offset never falls. -/
theorem le_ctxOffset_threadStep {s s' : Shared} {t t' : Thread env}
    (h : threadStep s t = some (s', t')) : s.writer.ctxOffset ≤ s'.writer.ctxOffset := by
  cases hph : t.phase with
  | start =>
      simp only [threadStep, hph] at h
      split_ifs at h <;> cases h <;> exact le_refl _
  | turnedAway => simp [threadStep, hph] at h
  | pooled no co =>
      by_cases hnew : IsNew s.writer t.call
      · simp only [threadStep, hph, reserveSection_of_isNew hnew] at h
        cases h
        exact (Nat.le_add_right _ _).trans (le_align _)
      · simp only [threadStep, hph, reserveSection_of_not_isNew hnew] at h
        cases h
        exact le_refl _
  | writing k d o p ps =>
      simp only [threadStep, hph] at h
      cases h
      exact le_refl _
  | assigning k d =>
      simp only [threadStep, hph] at h
      cases h
      exact le_refl _
  | returned k => simp [threadStep, hph] at h

/-- The invariant holds in every state of every interleaving below 4 GiB. -/
theorem coherent_of_reaches {prev : Bytes} {cs : List (AddBlob env)}
    {c : Config Shared (Thread env)} (hrun : Reaches threadStep (beginning prev cs) c)
    (hcol : CollisionFree cs) (hsize : c.shared.writer.ctxOffset < 2 ^ 32) : Coherent cs c :=
  Reaches.rule (S := fun s => s.writer.ctxOffset < 2 ^ 32)
    (fun _ _ _ _ hst hS => lt_of_le_of_lt (le_ctxOffset_threadStep hst) hS)
    (fun _ _ _ _ _ h hS ht hst => h.step hcol hS ht hst) (coherent_beginning prev cs) hrun hsize

/-- All calls have returned. -/
def AllReturned (c : Config Shared (Thread env)) : Prop :=
  ∀ t ∈ c.threads, t.phase.result.isSome

/-- The ids that two different calls among those with `p` have returned are different. -/
def IdsDiffer (p : AddBlob env → Prop) (c : Config Shared (Thread env)) : Prop :=
  ∀ (i j : ℕ) (t u : Thread env), i ≠ j → c.threads[i]? = some t → c.threads[j]? = some u →
    p t.call → p u.call → t.phase.result ≠ u.phase.result

/-- The entry at the id a call has returned. -/
def entryOf (c : Config Shared (Thread env)) (t : Thread env) : Option BlobEntry :=
  t.phase.result.bind fun id => c.shared.writer.blobs[id]?

/-- The entry of a call has the call's own fields and the places of its strings (as long as the pool
is below 4 GiB), and its extent is behind the header and holds the stored bytes. -/
structure EntryOk (s : Shared) (c : AddBlob env) (b : BlobEntry) : Prop where
  carries : Carries c b
  strings : (poolBytes s.writer.cpool.strings).length ≤ 2 ^ 32 →
    b.sblob.nameOffs = poolOffset s.writer.cpool.strings c.name ∧
      b.sblob.contentTypeOffs = poolOffset s.writer.cpool.strings c.type
  header_le : Hdr.sizeof ≤ b.sblob.dataStart
  holds : Holds s.file b.sblob.dataStart c.stored

/-- What the accepted calls together have achieved. -/
structure Finished (c : Config Shared (Thread env)) : Prop where
  /-- The ids are pairwise different. -/
  ids : IdsDiffer AddBlob.Accepted c
  /-- The entry at each id is that of the call. -/
  entries : ∀ t ∈ c.threads, t.call.Accepted →
    ∃ b, entryOf c t = some b ∧ EntryOk c.shared t.call b
  /-- Equal data has one extent. -/
  shared : ∀ t ∈ c.threads, ∀ u ∈ c.threads, t.call.Accepted → u.call.Accepted →
    ∀ b b', entryOf c t = some b → entryOf c u = some b' → t.call.stored = u.call.stored →
      b.sblob.dataStart = b'.sblob.dataStart
  /-- Different data has extents that do not overlap. -/
  apart : ∀ t ∈ c.threads, ∀ u ∈ c.threads, t.call.Accepted → u.call.Accepted →
    ∀ b b', entryOf c t = some b → entryOf c u = some b' → t.call.stored ≠ u.call.stored →
      Apart b.sblob.dataStart b.sblob.size b'.sblob.dataStart b'.sblob.size

/-- A call that has returned was turned away, or has its entry assigned. -/
theorem Coherent.returned {cs : List (AddBlob env)} {c : Config Shared (Thread env)}
    (h : Coherent cs c) {i : ℕ} {t : Thread env} (ht : c.threads[i]? = some t)
    (hr : t.phase.result.isSome) :
    (t.phase = .turnedAway ∧ ¬ t.call.Accepted) ∨
      ∃ k, t.phase = .returned k ∧ t.call.Accepted ∧ Assigned c.shared t.call k := by
  have hok := h.threads i t ht
  cases hph : t.phase with
  | turnedAway =>
      rw [ThreadOk, hph] at hok
      exact Or.inl ⟨rfl, hok⟩
  | returned k =>
      rw [ThreadOk, hph] at hok
      exact Or.inr ⟨k, rfl, hok.1, hok.2⟩
  | start => simp [hph, Phase.result] at hr
  | pooled => simp [hph, Phase.result] at hr
  | writing => simp [hph, Phase.result] at hr
  | assigning => simp [hph, Phase.result] at hr

/-- In a quiet state every entry of an accepted call is complete. -/
theorem Coherent.entry {cs : List (AddBlob env)} {c : Config Shared (Thread env)}
    (h : Coherent cs c) (hcol : CollisionFree cs) (hdone : AllReturned c) {t : Thread env}
    (ht : t ∈ c.threads) (hc : t.call.Accepted) :
    ∃ b, entryOf c t = some b ∧ EntryOk c.shared t.call b ∧
      c.shared.writer.csumToDataStart.lookup t.call.csum = some b.sblob.dataStart := by
  obtain ⟨i, hi⟩ := List.mem_iff_getElem?.mp ht
  rcases h.returned hi (hdone t ht) with ⟨-, hn⟩ | ⟨k, hph, -, d, no, co, htab, hstr, hb⟩
  · exact absurd hc hn
  · refine ⟨t.call.placed no co d, ?_, ⟨⟨rfl, rfl, rfl, rfl, rfl, rfl⟩, hstr.offsets,
      (h.space.bounds _ _ htab).1, ?_⟩, htab⟩
    · rw [entryOf, hph]
      exact hb
    · rcases h.filled _ _ htab with hf | ⟨j, u, hu, -, hw⟩
      · rwa [contentOf_csum hcol (h.call_mem hi)] at hf
      · -- no call is writing any more
        have hum := List.mem_of_getElem? hu
        rcases h.returned hu (hdone u hum) with ⟨hph', -⟩ | ⟨k', hph', -⟩
        · rw [hph'] at hw
          exact hw.elim
        · rw [hph'] at hw
          exact hw.elim

/-! ## Calls that are turned away -/

end EosShard.V2
