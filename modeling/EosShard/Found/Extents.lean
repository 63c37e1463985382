import EosShard.Found.File

/-!
# Extents in order

An extent is a pair of an offset and a size. `InOrder lo hi xs`: the extents `xs` follow each other,
between `lo` and `hi`.

* `InOrder.append` puts two such sequences one behind the other, `InOrder.mono` widens the bounds.
* `InOrder.pairwise_disjoint`, `InOrder.pairwise_apart`: no two of them meet, and empty extents between
  them change nothing (`pairwise_disjoint_of_filter`).
* `inOrder_seqWrites`: consecutive writes are in order.
* `holds_applyWrites_of_mem`: of writes that do not meet, each has its bytes in the file.
* `SameOn`: files that agree on some positions. What lies there is read alike (`SameOn.slice_eq`), and
  writes whose bytes are there already change nothing (`applyWrites_of_holds`).
-/

namespace EosShard.Found

/-- The extents follow each other, between `lo` and `hi`. -/
structure InOrder (lo hi : ℕ) (xs : List (ℕ × ℕ)) : Prop where
  le : lo ≤ hi
  pairwise : xs.Pairwise fun x y => x.1 + x.2 ≤ y.1
  bounds : ∀ x ∈ xs, lo ≤ x.1 ∧ x.1 + x.2 ≤ hi

/-- The positions of an extent. -/
def positions (x : ℕ × ℕ) : Set ℕ := Set.Ico x.1 (x.1 + x.2)

/-- The extent a write transfers to. -/
def Write.extent (w : Write) : ℕ × ℕ := (w.off, w.data.length)

section extents

variable {lo mid hi lo' hi' : ℕ} {xs ys : List (ℕ × ℕ)}

/-- No extents fit between any bounds. -/
theorem InOrder.nil (h : lo ≤ hi) : InOrder lo hi [] := ⟨h, .nil, List.forall_mem_nil _⟩

/-- One extent between its bounds. -/
theorem InOrder.singleton {x : ℕ × ℕ} (hlo : lo ≤ x.1) (hhi : x.1 + x.2 ≤ hi) : InOrder lo hi [x] where
  le := hlo.trans ((Nat.le_add_right _ _).trans hhi)
  pairwise := List.pairwise_singleton _ _
  bounds := List.forall_mem_singleton.mpr ⟨hlo, hhi⟩

/-- Extents between bounds are between wider ones. -/
theorem InOrder.mono (h : InOrder lo hi xs) (hlo : lo' ≤ lo) (hhi : hi ≤ hi') :
    InOrder lo' hi' xs where
  le := hlo.trans (h.le.trans hhi)
  pairwise := h.pairwise
  bounds x hx := ⟨hlo.trans (h.bounds x hx).1, (h.bounds x hx).2.trans hhi⟩

/-- Extents up to a position, and others from there on. -/
theorem InOrder.append (h : InOrder lo mid xs) (h' : InOrder mid hi ys) : InOrder lo hi (xs ++ ys) where
  le := h.le.trans h'.le
  pairwise := List.pairwise_append.mpr ⟨h.pairwise, h'.pairwise, fun x hx y hy =>
    (h.bounds x hx).2.trans (h'.bounds y hy).1⟩
  bounds := List.forall_mem_append.mpr
    ⟨(h.mono (le_refl lo) h'.le).bounds, (h'.mono h.le (le_refl hi)).bounds⟩

/-- An extent of length zero has no positions. -/
theorem positions_eq_empty {x : ℕ × ℕ} (h : x.2 = 0) : positions x = ∅ := by
  rw [positions, h, Nat.add_zero, Set.Ico_self]

/-- Extents behind each other have no position in common. -/
theorem disjoint_positions {x y : ℕ × ℕ} (h : x.1 + x.2 ≤ y.1) :
    Disjoint (positions x) (positions y) := by
  rw [Set.disjoint_left]
  intro p hx hy
  exact absurd hy.1 (not_le.mpr (hx.2.trans_le h))

/-- **No two extents meet**. -/
theorem InOrder.pairwise_disjoint (h : InOrder lo hi xs) :
    xs.Pairwise fun x y => Disjoint (positions x) (positions y) :=
  h.pairwise.imp disjoint_positions

/-- Empty extents between the others meet nothing. -/
theorem pairwise_disjoint_of_filter {α : Type*} {p : α → Bool} {f : α → ℕ × ℕ} {as : List α}
    (h : InOrder lo hi ((as.filter p).map f)) (hempty : ∀ a ∈ as, p a = false → (f a).2 = 0) :
    (as.map f).Pairwise fun x y => Disjoint (positions x) (positions y) := by
  have hkept := List.pairwise_filter.mp (List.pairwise_map.mp h.pairwise_disjoint)
  refine List.pairwise_map.mpr (hkept.imp_of_mem fun {a b} ha hb hab => ?_)
  by_cases hpa : p a = true
  · by_cases hpb : p b = true
    · exact hab hpa hpb
    · rw [positions_eq_empty (hempty b hb (Bool.eq_false_iff.mpr hpb))]
      exact Set.disjoint_empty _
  · rw [positions_eq_empty (hempty a ha (Bool.eq_false_iff.mpr hpa))]
    exact Set.empty_disjoint _

/-- Extents in order are apart. -/
theorem InOrder.pairwise_apart (h : InOrder lo hi xs) :
    xs.Pairwise fun x y => Apart x.1 x.2 y.1 y.2 :=
  h.pairwise.imp Or.inl

/-- Sequential writes are in order. -/
theorem inOrder_seqWrites (off : ℕ) (ps : List Bytes) :
    InOrder off (off + ps.flatten.length) ((seqWrites off ps).map Write.extent) := by
  induction ps generalizing off with
  | nil => exact .nil (Nat.le_add_right _ _)
  | cons p ps ih =>
      have hfirst : InOrder off (off + p.length) [(off, p.length)] := .singleton (le_refl _) (le_refl _)
      rw [List.flatten_cons, List.length_append, ← Nat.add_assoc]
      exact hfirst.append (ih _)

end extents

/-! ## Writes that do not meet -/

/-- No two of the writes meet. -/
def ApartWrites (ws : List Write) : Prop :=
  ws.Pairwise fun x y => Apart x.off x.data.length y.off y.data.length

/-- **Every write has its bytes in the file**. -/
theorem holds_applyWrites_of_mem (prev : Bytes) {ws : List Write} (h : ApartWrites ws) {x : Write}
    (hx : x ∈ ws) : Holds (applyWrites prev ws) x.off x.data := by
  obtain ⟨as, bs, rfl⟩ := List.append_of_mem hx
  rw [applyWrites_append, applyWrites_cons]
  have hbehind := (List.pairwise_cons.mp (List.pairwise_append.mp h).2.1).1
  exact (holds_pwrite _ _ _).applyWrites hbehind

/-- Consecutive pieces that are all in the file are there as one. -/
theorem holds_flatten_of_seqWrites {f : Bytes} {off : ℕ} {ps : List Bytes}
    (h : ∀ x ∈ seqWrites off ps, Holds f x.off x.data) : Holds f off ps.flatten := by
  induction ps generalizing off with
  | nil => exact Holds.nil _ _
  | cons p ps ih =>
      obtain ⟨hp, hps⟩ := List.forall_mem_cons.mp h
      exact Holds.append_iff.mpr ⟨hp, ih hps⟩

/-! ## Files that agree on some positions -/

/-- The files agree on the positions of `p`: the same byte, or both have ended. -/
def SameOn (p : ℕ → Prop) (f g : Bytes) : Prop := ∀ i, p i → g[i]? = f[i]?

section sameOn

variable {p : ℕ → Prop} {f g d : Bytes} {off n : ℕ}

/-- Files that agree on an extent have the same bytes there. -/
theorem SameOn.slice_eq (h : SameOn p f g) (hp : ∀ i, off ≤ i → i < off + n → p i) :
    slice g off n = slice f off n := by
  apply List.ext_getElem?
  intro i
  rw [getElem?_slice, getElem?_slice]
  split_ifs with hi
  · exact h _ (hp _ (Nat.le_add_right _ _) (Nat.add_lt_add_left hi _))
  · rfl

/-- What one file holds on an extent, the other one holds too. -/
theorem SameOn.holds (h : SameOn p f g) (hp : ∀ i, off ≤ i → i < off + d.length → p i)
    (hd : Holds f off d) : Holds g off d := (h.slice_eq hp).trans hd

/-- Files that agree on a byte of one of them and on everything behind it are equally long. -/
theorem SameOn.length_eq (h : SameOn p f g) (hp : ∀ i, off ≤ i → p i) (hoff : off < f.length) :
    g.length = f.length := by
  have hget : ∀ i, off ≤ i → (i < g.length ↔ i < f.length) := by
    intro i hi
    rw [← not_le, ← not_le, ← List.getElem?_eq_none_iff, ← List.getElem?_eq_none_iff, h i (hp i hi)]
  have hlt := (hget off (le_refl _)).mpr hoff
  have hf := hget (f.length) hoff.le
  have hg := hget (g.length) hlt.le
  omega

/-- A write inside the file is seen where it goes only. -/
theorem sameOn_pwrite (hp : ∀ i, p i → i < off ∨ off + d.length ≤ i) (hle : off ≤ f.length) :
    SameOn p f (pwrite f d off) := by
  intro i hi
  by_cases hd : d = []
  · rw [hd, pwrite_nil]
  rw [getElem?_pwrite hd]
  rcases hp i hi with h | h
  · rw [if_pos h, if_pos (h.trans_le hle)]
  · rw [if_neg (by omega), if_neg (by omega)]

/-- A file that was cut off behind the positions. -/
theorem sameOn_take {n : ℕ} (f : Bytes) : SameOn (· < n) f (f.take n) :=
  fun _ hi => List.getElem?_take_of_lt hi

/-- Writing what is there already. -/
theorem pwrite_of_holds (h : Holds f off d) : pwrite f d off = f := by
  by_cases hd : d = []
  · rw [hd, pwrite_nil]
  have hle := h.le_length hd
  apply List.ext_getElem?
  intro i
  rw [getElem?_pwrite hd]
  split_ifs with h₁ h₂ h₃
  · rfl
  · omega
  · have hi := holds_iff_getElem?.mp h (i - off) (by omega)
    rw [← hi]
    congr 1
    omega
  · rfl

/-- To write what is there already changes nothing. -/
theorem applyWrites_of_holds {ws : List Write} (h : ∀ x ∈ ws, Holds f x.off x.data) :
    applyWrites f ws = f := by
  induction ws with
  | nil => rfl
  | cons x ws ih =>
      rw [applyWrites_cons, pwrite_of_holds (h x List.mem_cons_self)]
      exact ih fun y hy => h y (List.mem_cons_of_mem _ hy)

end sameOn

end EosShard.Found
