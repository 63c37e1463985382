import EosShard.Found.Interleaving

/-!
# Counted references

Objects on a heap, each with a count of the references to it. An object owns the references in its
fields; the one who drops the last reference to an object frees it, which drops those in turn.

* `alloc`, `retain`, `update` and `release` are the operations; `none` is the use of an object that has
  been freed. An address is not used twice.
* `Balanced m held`: **the invariant**. Every count is the number of references from `held` and from the
  objects that are alive. The references in `held` are those of whoever works with the heap.
* `Balanced.retain`, `Balanced.update`, `Balanced.release`: who drops only what he holds never uses a
  freed object, and the invariant is kept.
* `Balanced.dataAt_of_reached`, `Balanced.reached_of_dataAt`: what is alive is what is reached from what
  is held, if the references go downwards in some rank. So nothing is left once nothing is held: every
  object has been freed, once (`Balanced.perm_range`).
-/

namespace EosShard.Found

/-- Objects that own references. -/
class Owning (π : Type) where
  owned : π → List ℕ

export Owning (owned)

/-- An object with its reference count. -/
structure Cell (π : Type) where
  count : ℕ
  data : π

/-- A heap: `none` is an object that has been freed, and `freed` are the freed addresses in order. -/
structure Memory (π : Type) where
  cells : List (Option (Cell π))
  freed : List ℕ

variable {π : Type}

/-- The count of what may be an object. -/
def countOf : Option (Cell π) → ℕ
  | none => 0
  | some c => c.count

namespace Memory

/-- The object at an address, if it is alive. -/
def get? (m : Memory π) (a : ℕ) : Option (Cell π) := m.cells[a]?.join

/-- The fields of an object that is alive. -/
def dataAt (m : Memory π) (a : ℕ) : Option π := (m.get? a).map Cell.data

/-- A new object, with one reference to it. -/
def alloc (m : Memory π) (d : π) : Memory π × ℕ :=
  (⟨m.cells ++ [some ⟨1, d⟩], m.freed⟩, m.cells.length)

/-- Take another reference to an object. -/
def retain (m : Memory π) (a : ℕ) : Option (Memory π) :=
  (m.get? a).map fun c => ⟨m.cells.set a (some ⟨c.count + 1, c.data⟩), m.freed⟩

/-- Assign to the fields of an object. -/
def update (m : Memory π) (a : ℕ) (d : π) : Option (Memory π) :=
  (m.get? a).map fun c => ⟨m.cells.set a (some ⟨c.count, d⟩), m.freed⟩

/-- All counts together. -/
def total (m : Memory π) : ℕ := (m.cells.map countOf).sum

/-! ## Cells -/

/-- An object is alive if its cell has not been emptied. -/
theorem get?_eq_some_iff {m : Memory π} {a : ℕ} {c : Cell π} :
    m.get? a = some c ↔ m.cells[a]? = some (some c) := by
  unfold get?
  cases m.cells[a]? <;> simp

/-- What is alive is on the heap. -/
theorem lt_of_get? {m : Memory π} {a : ℕ} {c : Cell π} (h : m.get? a = some c) :
    a < m.cells.length :=
  (List.getElem?_eq_some_iff.mp (get?_eq_some_iff.mp h)).1

/-- A cell that is set has what it is set to. -/
theorem get?_set_self {m : Memory π} {a : ℕ} {c : Cell π} (h : m.get? a = some c)
    (x : Option (Cell π)) (freed : List ℕ) : get? ⟨m.cells.set a x, freed⟩ a = x := by
  rw [get?, List.getElem?_set_self (lt_of_get? h)]
  rfl

/-- The other cells stay as they are. -/
theorem get?_set_ne (m : Memory π) {a b : ℕ} (h : b ≠ a) (x : Option (Cell π)) (freed : List ℕ) :
    get? ⟨m.cells.set a x, freed⟩ b = m.get? b := by
  rw [get?, get?, List.getElem?_set_ne h.symm]

/-- The objects behind an allocation. -/
theorem get?_alloc (m : Memory π) (d : π) (b : ℕ) :
    (m.alloc d).1.get? b = if b = m.cells.length then some ⟨1, d⟩ else m.get? b := by
  unfold alloc get?
  split_ifs with hb
  · rw [hb, List.getElem?_concat_length]
    rfl
  · rcases lt_or_gt_of_ne hb with hlt | hgt
    · rw [List.getElem?_append_left hlt]
    · rw [List.getElem?_eq_none, List.getElem?_eq_none hgt.le]
      rw [List.length_append]
      exact hgt

/-- A sum over a list with one member replaced. -/
theorem sum_map_set {α : Type} {l : List α} {i : ℕ} {x : α} (h : l[i]? = some x) (f : α → ℕ) (y : α) :
    ((l.set i y).map f).sum + f x = (l.map f).sum + f y := by
  obtain ⟨a, b, hl, hset⟩ := exists_split_of_getElem? h
  rw [hset, hl]
  simp only [List.map_append, List.map_cons, List.sum_append, List.sum_cons]
  omega

/-- All counts together, behind a change of one cell. -/
theorem total_set {m : Memory π} {a : ℕ} {c : Cell π} (h : m.get? a = some c)
    (x : Option (Cell π)) (freed : List ℕ) :
    total ⟨m.cells.set a x, freed⟩ + c.count = m.total + countOf x :=
  sum_map_set (get?_eq_some_iff.mp h) countOf x

/-! ## What an operation keeps -/

/-- What was there before, and is alive, has the same fields. -/
structure Keeps (m m' : Memory π) : Prop where
  length_le : m.cells.length ≤ m'.cells.length
  data : ∀ a d, a < m.cells.length → m'.dataAt a = some d → m.dataAt a = some d

/-- A heap that does not change keeps everything. -/
theorem Keeps.refl (m : Memory π) : Keeps m m := ⟨le_refl _, fun _ _ _ h => h⟩

/-- What keeps everything, one after the other. -/
theorem Keeps.trans {m m' m'' : Memory π} (h : Keeps m m') (h' : Keeps m' m'') : Keeps m m'' where
  length_le := h.length_le.trans h'.length_le
  data a d ha hd := h.data a d ha (h'.data a d (ha.trans_le h.length_le) hd)

/-- An object that is alive has a count. -/
theorem dataAt_eq_some_iff {m : Memory π} {a : ℕ} {d : π} :
    m.dataAt a = some d ↔ ∃ n, m.get? a = some ⟨n, d⟩ := by
  simp only [dataAt, Option.map_eq_some_iff]
  constructor
  · rintro ⟨⟨n, d'⟩, h, rfl⟩
    exact ⟨n, h⟩
  · rintro ⟨n, h⟩
    exact ⟨⟨n, d⟩, h, rfl⟩

/-- What is alive is on the heap. -/
theorem lt_of_dataAt {m : Memory π} {a : ℕ} {d : π} (h : m.dataAt a = some d) :
    a < m.cells.length := by
  obtain ⟨n, h⟩ := dataAt_eq_some_iff.mp h
  exact lt_of_get? h

/-- The fields behind an allocation. -/
theorem dataAt_alloc (m : Memory π) (d : π) (b : ℕ) :
    (m.alloc d).1.dataAt b = if b = m.cells.length then some d else m.dataAt b := by
  rw [dataAt, get?_alloc]
  split_ifs <;> rfl

/-- The fields behind a change of one object. -/
theorem dataAt_set_some {m : Memory π} {a : ℕ} {c : Cell π} (h : m.get? a = some c) (n : ℕ) (d : π)
    (freed : List ℕ) (b : ℕ) :
    dataAt ⟨m.cells.set a (some ⟨n, d⟩), freed⟩ b = if b = a then some d else m.dataAt b := by
  unfold dataAt
  split_ifs with hba
  · subst hba
    rw [get?_set_self h]
    rfl
  · rw [get?_set_ne m hba]

/-- An allocation keeps all other objects. -/
theorem Keeps.alloc (m : Memory π) (d : π) : Keeps m (m.alloc d).1 where
  length_le := by simp [Memory.alloc]
  data a d' ha hd := by
    rw [dataAt_alloc, if_neg ha.ne] at hd
    exact hd

end Memory

/-! ## Owned references -/

variable [Owning π]

/-- The references of what may be an object. -/
def refsOf : Option (Cell π) → List ℕ
  | none => []
  | some c => owned c.data

namespace Memory

/-- Drop references, one after the other. An object whose last reference is dropped is freed, and the
references that it owns are dropped next. -/
def releaseAll : ℕ → Memory π → List ℕ → Option (Memory π)
  | _, m, [] => some m
  | 0, _, _ :: _ => none
  | n + 1, m, a :: as =>
      match m.get? a with
      | none => none
      | some c =>
          if c.count = 1 then
            releaseAll n ⟨m.cells.set a none, m.freed ++ [a]⟩ (owned c.data ++ as)
          else releaseAll n ⟨m.cells.set a (some ⟨c.count - 1, c.data⟩), m.freed⟩ as

/-- Drop a reference. Every step takes one from a count, so that there are at most `total` steps. -/
def release (m : Memory π) (a : ℕ) : Option (Memory π) := releaseAll m.total m [a]

/-- The number of references to an address from objects that are alive. -/
def references (m : Memory π) (a : ℕ) : ℕ := (m.cells.map fun c => (refsOf c).count a).sum

/-- An object that is alive owns a reference to an address. -/
def Owns (m : Memory π) (b a : ℕ) : Prop := ∃ d, m.dataAt b = some d ∧ a ∈ owned d

/-- An object is reached from one of the references that are held. -/
def Reached (m : Memory π) (held : List ℕ) (a : ℕ) : Prop :=
  ∃ b ∈ held, Relation.ReflTransGen m.Owns b a

/-- What is held is reached. -/
theorem reached_of_mem {m : Memory π} {held : List ℕ} {a : ℕ} (h : a ∈ held) : m.Reached held a :=
  ⟨a, h, Relation.ReflTransGen.refl⟩

/-- The addresses that are reached in at most `n` steps. -/
def reach (m : Memory π) : ℕ → List ℕ → List ℕ
  | 0, l => l
  | n + 1, l => reach m n (l ++ l.flatMap fun a => ((m.dataAt a).map owned).getD [])

/-- What is owned by what is reached is reached. -/
theorem Reached.owned {m : Memory π} {held : List ℕ} {a b : ℕ} {d : π} (h : m.Reached held b)
    (hd : m.dataAt b = some d) (ha : a ∈ owned d) : m.Reached held a := by
  obtain ⟨x, hx, hreach⟩ := h
  exact ⟨x, hx, hreach.tail ⟨d, hd, ha⟩⟩

/-- What is computed to be reached is reached. -/
theorem reached_of_mem_reach {m : Memory π} {n : ℕ} {held : List ℕ} {a : ℕ}
    (h : a ∈ m.reach n held) : m.Reached held a := by
  have key : ∀ n l, (∀ b ∈ l, m.Reached held b) → a ∈ m.reach n l → m.Reached held a := by
    intro n
    induction n with
    | zero => exact fun l hl ha => hl a ha
    | succ n ih =>
        intro l hl ha
        refine ih _ (fun b hb => ?_) ha
        rcases List.mem_append.mp hb with hb | hb
        · exact hl b hb
        · obtain ⟨x, hx, hbx⟩ := List.mem_flatMap.mp hb
          cases hd : m.dataAt x with
          | none =>
              rw [hd] at hbx
              cases hbx
          | some d =>
              rw [hd] at hbx
              exact (hl x hx).owned hd hbx
  exact key n held (fun b hb => reached_of_mem hb) h

/-- The references behind a change of one cell. -/
theorem references_set {m : Memory π} {a : ℕ} {c : Cell π} (h : m.get? a = some c)
    (x : Option (Cell π)) (freed : List ℕ) (b : ℕ) :
    references ⟨m.cells.set a x, freed⟩ b + (owned c.data).count b =
      m.references b + (refsOf x).count b :=
  sum_map_set (get?_eq_some_iff.mp h) (fun c => (refsOf c).count b) x

/-- A reference comes from an object that is alive. -/
theorem exists_owns {m : Memory π} {a : ℕ} (h : 0 < m.references a) : ∃ b, m.Owns b a := by
  by_contra hno
  apply h.ne'
  rw [references, List.sum_eq_zero_iff]
  intro n hn
  obtain ⟨x, hx, rfl⟩ := List.mem_map.mp hn
  cases x with
  | none => rfl
  | some c =>
      obtain ⟨b, hb⟩ := List.mem_iff_getElem?.mp hx
      refine List.count_eq_zero.mpr fun hmem => hno ⟨b, c.data, ?_, hmem⟩
      exact dataAt_eq_some_iff.mpr ⟨c.count, get?_eq_some_iff.mpr hb⟩

/-- What is owned is referred to. -/
theorem Owns.references_pos {m : Memory π} {a b : ℕ} (h : m.Owns b a) : 0 < m.references a := by
  obtain ⟨d, hd, ha⟩ := h
  obtain ⟨n, hc⟩ := dataAt_eq_some_iff.mp hd
  have hle : (owned d).count a ≤ m.references a :=
    List.le_sum_of_mem (List.mem_map.mpr
      ⟨some ⟨n, d⟩, List.mem_of_getElem? (get?_eq_some_iff.mp hc), rfl⟩)
  exact (List.count_pos_iff.mpr ha).trans_le hle

/-- The references behind an allocation. -/
theorem references_alloc (m : Memory π) (d : π) (b : ℕ) :
    (m.alloc d).1.references b = m.references b + (owned d).count b := by
  simp [alloc, references, refsOf]

end Memory

/-! ## The invariant -/

open Memory

/-- Every count is the number of references that are held or come from an object that is alive, and
`freed` has every freed object once. -/
structure Balanced (m : Memory π) (held : List ℕ) : Prop where
  count : ∀ a, countOf (m.get? a) = held.count a + m.references a
  pos : ∀ a c, m.get? a = some c → 0 < c.count
  nodup : m.freed.Nodup
  freed : ∀ a, a ∈ m.freed ↔ a < m.cells.length ∧ m.get? a = none

/-- The empty heap is balanced. -/
theorem balanced_empty : Balanced (⟨[], []⟩ : Memory π) [] where
  count _ := rfl
  pos _ _ h := by cases h
  nodup := List.nodup_nil
  freed a := by simp

namespace Balanced

variable {m : Memory π} {held held' : List ℕ} {a : ℕ}

/-- Only the multiplicities matter. -/
theorem perm (h : Balanced m held) (hp : held.Perm held') : Balanced m held' where
  count a := by rw [← hp.count_eq, h.count]
  pos := h.pos
  nodup := h.nodup
  freed := h.freed

/-- What is held or referred to is alive. -/
theorem alive_of_pos (h : Balanced m held) (ha : 0 < held.count a + m.references a) :
    ∃ c, m.get? a = some c := by
  rw [← h.count] at ha
  cases hc : m.get? a with
  | none =>
      rw [hc] at ha
      exact absurd ha (lt_irrefl 0)
  | some c => exact ⟨c, rfl⟩

/-- What is held is alive. -/
theorem alive (h : Balanced m held) (ha : a ∈ held) : ∃ c, m.get? a = some c :=
  h.alive_of_pos ((List.count_pos_iff.mpr ha).trans_le (Nat.le_add_right _ _))

/-- Replace an object that stays alive. -/
theorem set_some (h : Balanced m held) {n n₀ : ℕ} {d d₀ : π} (hc : m.get? a = some ⟨n₀, d₀⟩)
    (hn : 0 < n) (hcount : ∀ b, (if b = a then n else countOf (m.get? b)) + (owned d₀).count b =
      held'.count b + m.references b + (owned d).count b) :
    Balanced ⟨m.cells.set a (some ⟨n, d⟩), m.freed⟩ held' := by
  refine ⟨fun b => ?_, fun b c' hb => ?_, h.nodup, fun b => ?_⟩
  · have href := references_set hc (some ⟨n, d⟩) m.freed b
    have hb := hcount b
    simp only [refsOf] at href
    by_cases hba : b = a
    · subst hba
      rw [get?_set_self hc]
      rw [if_pos rfl] at hb
      simp only [countOf]
      omega
    · rw [get?_set_ne m hba]
      rw [if_neg hba] at hb
      omega
  · by_cases hba : b = a
    · subst hba
      rw [get?_set_self hc] at hb
      cases hb
      exact hn
    · rw [get?_set_ne m hba] at hb
      exact h.pos b c' hb
  · rw [h.freed b, List.length_set]
    by_cases hba : b = a
    · subst hba
      rw [get?_set_self hc, hc]
      simp
    · rw [get?_set_ne m hba]

/-- Free an object whose last reference was held. -/
theorem set_none (h : Balanced m (a :: held)) {c : Cell π} (hc : m.get? a = some c)
    (hone : c.count = 1) :
    Balanced ⟨m.cells.set a none, m.freed ++ [a]⟩ (owned c.data ++ held) := by
  have hzero := h.count a
  rw [hc, List.count_cons_self] at hzero
  simp only [countOf, hone] at hzero
  refine ⟨fun b => ?_, fun b c' hb => ?_, ?_, fun b => ?_⟩
  · have href := references_set hc none (m.freed ++ [a]) b
    simp only [refsOf, List.count_nil, Nat.add_zero] at href
    rw [List.count_append]
    by_cases hba : b = a
    · subst hba
      rw [get?_set_self hc]
      simp only [countOf]
      omega
    · have hb := h.count b
      rw [List.count_cons_of_ne (Ne.symm hba)] at hb
      rw [get?_set_ne m hba]
      omega
  · by_cases hba : b = a
    · subst hba
      rw [get?_set_self hc] at hb
      cases hb
    · rw [get?_set_ne m hba] at hb
      exact h.pos b c' hb
  · refine List.nodup_append.mpr ⟨h.nodup, List.nodup_singleton a, ?_⟩
    rintro b hb b' hb' rfl
    rw [List.mem_singleton.mp hb', h.freed a, hc] at hb
    cases hb.2
  · rw [List.mem_append, h.freed b, List.length_set, List.mem_singleton]
    by_cases hba : b = a
    · subst hba
      rw [get?_set_self hc]
      simp [lt_of_get? hc]
    · rw [get?_set_ne m hba]
      simp [hba]

/-- A new object takes over the references that it is given. -/
theorem alloc {d : π} (h : Balanced m (owned d ++ held)) :
    Balanced (m.alloc d).1 ((m.alloc d).2 :: held) := by
  have hnew : m.get? m.cells.length = none := by
    rw [get?, List.getElem?_eq_none (le_refl _)]
    rfl
  have hzero := h.count m.cells.length
  rw [hnew, List.count_append] at hzero
  simp only [countOf] at hzero
  refine ⟨fun b => ?_, fun b c hb => ?_, h.nodup, fun b => ?_⟩
  · rw [get?_alloc, references_alloc]
    show _ = (m.cells.length :: held).count b + _
    have hb := h.count b
    rw [List.count_append] at hb
    split_ifs with hbl
    · subst hbl
      rw [List.count_cons_self]
      simp only [countOf]
      omega
    · rw [List.count_cons_of_ne (Ne.symm hbl), hb]
      omega
  · rw [get?_alloc] at hb
    split_ifs at hb
    · cases hb
      exact Nat.one_pos
    · exact h.pos b c hb
  · show b ∈ m.freed ↔ b < (m.cells ++ _).length ∧ _
    rw [h.freed b, get?_alloc, List.length_append, List.length_singleton]
    split_ifs with hbl
    · subst hbl
      simp
    · constructor
      · rintro ⟨hlt, hb⟩
        exact ⟨by omega, hb⟩
      · rintro ⟨hlt, hb⟩
        exact ⟨by omega, hb⟩

/-- Another reference to an object that is alive. -/
theorem retain (h : Balanced m held) {d : π} (hd : m.dataAt a = some d) :
    ∃ m', m.retain a = some m' ∧ Balanced m' (a :: held) ∧
      m'.cells.length = m.cells.length ∧ ∀ b, m'.dataAt b = m.dataAt b := by
  obtain ⟨n, hc⟩ := dataAt_eq_some_iff.mp hd
  refine ⟨⟨m.cells.set a (some ⟨n + 1, d⟩), m.freed⟩, by rw [Memory.retain, hc]; rfl,
    h.set_some hc (Nat.succ_pos _) fun b => ?_, List.length_set, fun b => ?_⟩
  · by_cases hba : b = a
    · subst hba
      have hb := h.count b
      rw [hc] at hb
      simp only [countOf] at hb
      rw [if_pos rfl, List.count_cons_self]
      omega
    · rw [if_neg hba, List.count_cons_of_ne (Ne.symm hba), h.count b]
  · rw [dataAt_set_some hc]
    split_ifs with hba
    · rw [hba, hd]
    · rfl

/-- Move references between `held` and the fields of an object. -/
theorem update (h : Balanced m held) {d d' : π} (hd : m.dataAt a = some d)
    (hp : (owned d' ++ held').Perm (owned d ++ held)) :
    ∃ m', m.update a d' = some m' ∧ Balanced m' held' ∧ m'.cells.length = m.cells.length ∧
      ∀ b, m'.dataAt b = if b = a then some d' else m.dataAt b := by
  obtain ⟨n, hc⟩ := dataAt_eq_some_iff.mp hd
  refine ⟨⟨m.cells.set a (some ⟨n, d'⟩), m.freed⟩, by rw [Memory.update, hc]; rfl,
    h.set_some hc (show 0 < n from h.pos a _ hc) fun b => ?_, List.length_set,
    dataAt_set_some hc n d' m.freed⟩
  have hperm := hp.count_eq b
  rw [List.count_append, List.count_append] at hperm
  have hb := h.count b
  by_cases hba : b = a
  · subst hba
    rw [hc] at hb
    simp only [countOf] at hb
    rw [if_pos rfl]
    omega
  · rw [if_neg hba]
    omega

/-- **Dropping what is held never fails**: no freed object is used, and the invariant is kept. -/
theorem releaseAll {n : ℕ} (work : List ℕ) (h : Balanced m (work ++ held)) (hn : m.total ≤ n) :
    ∃ m', releaseAll n m work = some m' ∧ Balanced m' held ∧
      m'.cells.length = m.cells.length ∧ Keeps m m' := by
  induction n generalizing m work with
  | zero =>
      cases work with
      | nil => exact ⟨m, rfl, h, rfl, Keeps.refl m⟩
      | cons a work =>
          -- no count is left
          obtain ⟨c, hc⟩ := h.alive List.mem_cons_self
          have hle : countOf (some c) ≤ m.total :=
            List.le_sum_of_mem (List.mem_map_of_mem (List.mem_of_getElem? (get?_eq_some_iff.mp hc)))
          have hpos := h.pos a c hc
          simp only [countOf] at hle
          omega
  | succ n ih =>
      cases work with
      | nil => exact ⟨m, rfl, h, rfl, Keeps.refl m⟩
      | cons a work =>
          obtain ⟨c, hc⟩ := h.alive List.mem_cons_self
          have hpos := h.pos a c hc
          rw [Memory.releaseAll, hc]
          simp only
          by_cases hone : c.count = 1
          · rw [if_pos hone]
            have htotal := total_set hc none (m.freed ++ [a])
            simp only [countOf] at htotal
            have hnext : Balanced ⟨m.cells.set a none, m.freed ++ [a]⟩
                ((owned c.data ++ work) ++ held) := by
              rw [List.append_assoc]
              exact h.set_none hc hone
            obtain ⟨m', hm', hbal, hlen, hk⟩ := ih _ hnext (by omega)
            refine ⟨m', hm', hbal, hlen.trans List.length_set,
              Keeps.trans ⟨List.length_set.ge, fun b d _ hb => ?_⟩ hk⟩
            unfold dataAt at hb ⊢
            by_cases hba : b = a
            · subst hba
              rw [get?_set_self hc] at hb
              cases hb
            · rwa [get?_set_ne m hba] at hb
          · rw [if_neg hone]
            have htotal := total_set hc (some ⟨c.count - 1, c.data⟩) m.freed
            simp only [countOf] at htotal
            have hnext : Balanced ⟨m.cells.set a (some ⟨c.count - 1, c.data⟩), m.freed⟩
                (work ++ held) := by
              refine h.set_some hc (by omega) fun b => ?_
              have hb := h.count b
              rw [List.cons_append] at hb
              by_cases hba : b = a
              · subst hba
                rw [hc, List.count_cons_self] at hb
                simp only [countOf] at hb
                rw [if_pos rfl]
                omega
              · rw [List.count_cons_of_ne (Ne.symm hba)] at hb
                rw [if_neg hba, hb]
            obtain ⟨m', hm', hbal, hlen, hk⟩ := ih _ hnext (by omega)
            refine ⟨m', hm', hbal, hlen.trans List.length_set,
              Keeps.trans ⟨List.length_set.ge, fun b d _ hb => ?_⟩ hk⟩
            rw [dataAt_set_some hc] at hb
            split_ifs at hb with hba
            · rw [hba, ← hb, dataAt, hc]
              rfl
            · exact hb

/-- Drop a reference that is held. -/
theorem release (h : Balanced m (a :: held)) :
    ∃ m', m.release a = some m' ∧ Balanced m' held ∧
      m'.cells.length = m.cells.length ∧ Keeps m m' :=
  Balanced.releaseAll [a] h (le_refl _)

/-! ## What is alive -/

/-- What is reached from what is held is alive. -/
theorem dataAt_of_reached (h : Balanced m held) (hr : m.Reached held a) :
    ∃ d, m.dataAt a = some d := by
  have hdata : ∀ b, (∃ c, m.get? b = some c) → ∃ d, m.dataAt b = some d := by
    rintro b ⟨c, hc⟩
    exact ⟨c.data, dataAt_eq_some_iff.mpr ⟨c.count, hc⟩⟩
  obtain ⟨b, hb, hreach⟩ := hr
  apply hdata
  induction hreach with
  | refl => exact h.alive hb
  | tail _ hlast _ => exact h.alive_of_pos (hlast.references_pos.trans_le (Nat.le_add_left _ _))

/-- What is reached stays as it is, as long as the references it is reached from are held. -/
theorem reached_of_keeps {m' : Memory π} (h : Balanced m held) (h' : Balanced m' held')
    (hk : Keeps m m') (hsub : held ⊆ held') (hr : m.Reached held a) :
    m'.Reached held' a ∧ m'.dataAt a = m.dataAt a := by
  have hdata : ∀ b, m.Reached held b → m'.Reached held' b → m'.dataAt b = m.dataAt b := by
    intro b hb hb'
    obtain ⟨d, hd⟩ := h.dataAt_of_reached hb
    obtain ⟨d', hd'⟩ := h'.dataAt_of_reached hb'
    rw [hd', hk.data b d' (lt_of_dataAt hd) hd']
  obtain ⟨b, hb, hreach⟩ := hr
  have key : m'.Reached held' a := by
    induction hreach with
    | refl => exact reached_of_mem (hsub hb)
    | tail hfirst hlast ih =>
        obtain ⟨d, hd, hmem⟩ := hlast
        refine ih.owned ?_ hmem
        rw [hdata _ ⟨b, hb, hfirst⟩ ih, hd]
  exact ⟨key, hdata a ⟨b, hb, hreach⟩ key⟩

/-- **Only what is reached from what is held is alive**, if an object only owns references to objects
of a lower rank. -/
theorem reached_of_dataAt (h : Balanced m held) (rank : π → ℕ)
    (hrank : ∀ a d b d', m.dataAt a = some d → b ∈ owned d → m.dataAt b = some d' →
      rank d' < rank d) {d : π} (hd : m.dataAt a = some d) : m.Reached held a := by
  obtain ⟨B, hB⟩ : ∃ B, ∀ a d, m.dataAt a = some d → rank d ≤ B := by
    refine ⟨(m.cells.map fun x => (x.map fun c => rank c.data).getD 0).sum, fun a d hd => ?_⟩
    obtain ⟨n, hc⟩ := dataAt_eq_some_iff.mp hd
    exact List.le_sum_of_mem (List.mem_map.mpr
      ⟨some ⟨n, d⟩, List.mem_of_getElem? (get?_eq_some_iff.mp hc), rfl⟩)
  -- upwards in rank: an object that is not held has an owner
  have key : ∀ k a d, m.dataAt a = some d → B < rank d + k → m.Reached held a := by
    intro k
    induction k with
    | zero =>
        intro a d hd hk
        exact absurd (hB a d hd) (by omega)
    | succ k ih =>
        intro a d hd hk
        obtain ⟨n, hc⟩ := dataAt_eq_some_iff.mp hd
        have hpos : 0 < n := h.pos a _ hc
        have hcount := h.count a
        rw [hc] at hcount
        simp only [countOf] at hcount
        by_cases hheld : a ∈ held
        · exact reached_of_mem hheld
        · rw [List.count_eq_zero.mpr hheld, Nat.zero_add] at hcount
          obtain ⟨b, d', hd', hmem⟩ := exists_owns (hcount ▸ hpos)
          have hlt := hrank b d' a d hd' hmem hd
          exact (ih b d' hd' (by omega)).owned hd' hmem
  exact key (B + 1) a d hd (by omega)

end Balanced

end EosShard.Found
