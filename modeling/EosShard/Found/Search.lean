import EosShard.Found.Loop

/-!
# Binary searches over an index range

* `bsearch cmp l u` is the search of the C library: `cmp i` is the sign of the comparison of the key
  with element `i`, the window is `[l, u)` and the probe is its midpoint. On a table that is
  increasing as seen from the key it finds an index that compares equal if there is one
  (`bsearch_eq_none_iff_of_monotoneFor`), and the only one where the table is strictly increasing
  (`bsearch_eq_some_iff`).
* `bisect p lo hi` is the inclusive bisection for the first index with `p`, over signed bounds, with a
  probe that may fail. On a monotone predicate it ends with `lo` at the boundary (`bisect_spec`), so
  it finds the last index without `p` (`findLast`, `bisect_eq`). As a loop it is `bisectStep`, which
  never leaves its window (`inside_of_iterates_bisectStep`).
* `find?_insertionSort`: a stable sort by a key does not change which element of a given key comes
  first; `findSome?_range` is a linear search by index, `filterMap_range` and
  `foldl_prepend` collect by index and in a loop.
* `Occupies`: where the elements of one key are in a sorted list (`exists_occupies`), and which of them
  comes first from some place on (`Occupies.split`).
* `Table` is an association list in which an insertion replaces what was stored under its key.
-/

namespace EosShard.Found

/-! ## The library's `bsearch` -/

/-- `bsearch(3)` on the window `[l, u)`. -/
def bsearch (cmp : ℕ → Ordering) (l u : ℕ) : Option ℕ :=
  if _h : l < u then
    match cmp ((l + u) / 2) with
    | .lt => bsearch cmp l ((l + u) / 2)
    | .gt => bsearch cmp ((l + u) / 2 + 1) u
    | .eq => some ((l + u) / 2)
  else none
termination_by u - l
decreasing_by all_goals omega

/-- What is found compares equal and lies in the window; the table need not be sorted. -/
theorem bsearch_sound {cmp : ℕ → Ordering} {l u i : ℕ} (h : bsearch cmp l u = some i) :
    l ≤ i ∧ i < u ∧ cmp i = .eq := by
  fun_induction bsearch cmp l u with
  | case1 l u hlu hcmp ih =>
      obtain ⟨h₁, h₂, h₃⟩ := ih h
      exact ⟨h₁, by omega, h₃⟩
  | case2 l u hlu hcmp ih =>
      obtain ⟨h₁, h₂, h₃⟩ := ih h
      exact ⟨by omega, h₂, h₃⟩
  | case3 l u hlu hcmp =>
      cases h
      exact ⟨by omega, by omega, hcmp⟩
  | case4 => cases h

/-- Seen from the key the table of `n` elements is increasing: in front of an element below the key all
elements are below it, and behind an element above the key all elements are above it. -/
def MonotoneFor (cmp : ℕ → Ordering) (n : ℕ) : Prop :=
  ∀ i j, i < j → j < n → (cmp j = .gt → cmp i = .gt) ∧ (cmp i = .lt → cmp j = .lt)

/-- In an increasing table an element that compares equal is found, if there is one. -/
theorem bsearch_isSome {cmp : ℕ → Ordering} {l u i : ℕ} (hm : MonotoneFor cmp u) (hl : l ≤ i)
    (hu : i < u) (hi : cmp i = .eq) : ∃ j, bsearch cmp l u = some j := by
  fun_induction bsearch cmp l u with
  | case1 l u hlu hcmp ih =>
      have hlt : i < (l + u) / 2 := by
        rcases lt_trichotomy i ((l + u) / 2) with h | h | h
        · exact h
        · rw [h, hcmp] at hi
          cases hi
        · rw [(hm _ _ h hu).2 hcmp] at hi
          cases hi
      exact ih (fun a b hab hb => hm a b hab (by omega)) hl hlt
  | case2 l u hlu hcmp ih =>
      have hlt : (l + u) / 2 < i := by
        rcases lt_trichotomy i ((l + u) / 2) with h | h | h
        · rw [(hm _ _ h (by omega)).1 hcmp] at hi
          cases hi
        · rw [h, hcmp] at hi
          cases hi
        · exact h
      exact ih hm hlt hu
  | case3 l u hlu hcmp => exact ⟨_, rfl⟩
  | case4 => omega

/-- **`bsearch` on an increasing table** finds nothing exactly where nothing compares equal. -/
theorem bsearch_eq_none_iff_of_monotoneFor {cmp : ℕ → Ordering} {n : ℕ} (hm : MonotoneFor cmp n) :
    bsearch cmp 0 n = none ↔ ∀ i, i < n → cmp i ≠ .eq := by
  constructor
  · intro h i hi he
    obtain ⟨j, hj⟩ := bsearch_isSome hm (Nat.zero_le _) hi he
    rw [h] at hj
    cases hj
  · intro h
    rcases hb : bsearch cmp 0 n with _ | i
    · rfl
    · obtain ⟨-, h₁, h₂⟩ := bsearch_sound hb
      exact absurd h₂ (h i h₁)

/-- Seen from the key the table of `n` elements is strictly increasing: behind an element that is
not below the key all elements are above it. -/
def StrictFor (cmp : ℕ → Ordering) (n : ℕ) : Prop :=
  ∀ i j, i < j → j < n → cmp i ≠ .gt → cmp j = .lt

/-- A comparison that is strict is monotone. -/
theorem StrictFor.monotoneFor {cmp : ℕ → Ordering} {n : ℕ} (h : StrictFor cmp n) : MonotoneFor cmp n := by
  intro i j hij hj
  constructor
  · intro hgt
    by_contra hi
    rw [h i j hij hj hi] at hgt
    cases hgt
  · intro hlt
    exact h i j hij hj (by rw [hlt]; exact Ordering.noConfusion)

/-- No two elements of a strictly increasing table compare equal. -/
theorem StrictFor.not_lt {cmp : ℕ → Ordering} {n i j : ℕ} (h : StrictFor cmp n) (hj : j < n)
    (hei : cmp i = .eq) (hej : cmp j = .eq) : ¬ i < j := by
  intro hij
  rw [h i j hij hj (by rw [hei]; exact Ordering.noConfusion)] at hej
  cases hej

/-- **`bsearch` on a strictly increasing table** finds exactly the index that compares equal. -/
theorem bsearch_eq_some_iff {cmp : ℕ → Ordering} {n i : ℕ} (hs : StrictFor cmp n) :
    bsearch cmp 0 n = some i ↔ i < n ∧ cmp i = .eq := by
  constructor
  · intro h
    exact (bsearch_sound h).2
  · rintro ⟨hn, hi⟩
    obtain ⟨j, hj⟩ := bsearch_isSome hs.monotoneFor (Nat.zero_le _) hn hi
    obtain ⟨-, hjn, hej⟩ := bsearch_sound hj
    have hij : i = j := le_antisymm (not_lt.mp (hs.not_lt hn hej hi)) (not_lt.mp (hs.not_lt hjn hi hej))
    rw [hij, hj]

/-- In a strict table the search fails exactly if there is nothing to find. -/
theorem bsearch_eq_none_iff {cmp : ℕ → Ordering} {n : ℕ} (hs : StrictFor cmp n) :
    bsearch cmp 0 n = none ↔ ∀ i, i < n → cmp i ≠ .eq :=
  bsearch_eq_none_iff_of_monotoneFor hs.monotoneFor

/-! ## Inclusive bisection -/

/-- Bisection for the first index at which `p` holds, on the inclusive window `[lo, hi]`; the final
bounds are returned, or the failure of a probe. -/
def bisect {ε : Type} (p : ℕ → Except ε Bool) (lo hi : ℤ) : Except ε (ℤ × ℤ) :=
  if _h : lo ≤ hi then
    match p ((lo + hi) / 2).toNat with
    | .error e => .error e
    | .ok true => bisect p lo ((lo + hi) / 2 - 1)
    | .ok false => bisect p ((lo + hi) / 2 + 1) hi
  else .ok (lo, hi)
termination_by (hi + 1 - lo).toNat
decreasing_by all_goals omega

/-- **Bisection on a monotone predicate** `q`, probed without failure on `[0, n)`: it ends with `lo`
at the boundary `k` of the indices below which `q` is false, and `hi` just in front of it. -/
theorem bisect_spec {ε : Type} {p : ℕ → Except ε Bool} {q : ℕ → Bool} {n k : ℕ}
    (hp : ∀ i, i < n → p i = .ok (q i)) (hlow : ∀ i, i < k → q i = false)
    (hhigh : ∀ i, k ≤ i → i < n → q i = true) {lo hi : ℤ} (h0 : 0 ≤ lo) (hlo : lo ≤ k)
    (hhi : (k : ℤ) ≤ hi + 1) (hn : hi < n) : bisect p lo hi = .ok ((k : ℤ), (k : ℤ) - 1) := by
  fun_induction bisect p lo hi with
  | case1 lo hi hle e he =>
      rw [hp _ (by omega)] at he
      cases he
  | case2 lo hi hle he ih =>
      rw [hp _ (by omega)] at he
      have hq : q ((lo + hi) / 2).toNat = true := Except.ok.inj he
      have : k ≤ ((lo + hi) / 2).toNat := by
        by_contra hc
        rw [hlow _ (not_le.mp hc)] at hq
        cases hq
      exact ih h0 hlo (by omega) (by omega)
  | case3 lo hi hle he ih =>
      rw [hp _ (by omega)] at he
      have hq : q ((lo + hi) / 2).toNat = false := Except.ok.inj he
      have : ((lo + hi) / 2).toNat < k := by
        by_contra hc
        rw [hhigh _ (not_lt.mp hc) (by omega)] at hq
        cases hq
      exact ih (by omega) (by omega) hhi hn
  | case4 lo hi hle =>
      have h₁ : lo = k := by omega
      have h₂ : hi = (k : ℤ) - 1 := by omega
      rw [h₁, h₂]

/-- One iteration of the bisection, as a loop over its two bounds. -/
def bisectStep {ε : Type} (p : ℕ → Except ε Bool) (s : ℤ × ℤ) : (ℤ × ℤ) ⊕ Except ε (ℤ × ℤ) :=
  if s.1 ≤ s.2 then
    match p ((s.1 + s.2) / 2).toNat with
    | .error e => .inr (.error e)
    | .ok true => .inl (s.1, (s.1 + s.2) / 2 - 1)
    | .ok false => .inl ((s.1 + s.2) / 2 + 1, s.2)
  else .inr (.ok s)

/-- **The loop ends**, with what `bisect` says. -/
theorem halts_bisectStep {ε : Type} (p : ℕ → Except ε Bool) (lo hi : ℤ) :
    Halts (bisectStep p) (lo, hi) (bisect p lo hi) := by
  fun_induction bisect p lo hi with
  | case1 lo hi hle e he =>
      refine halts_of_inr ?_
      simp only [bisectStep, if_pos hle, he]
  | case2 lo hi hle he ih =>
      have hstep : bisectStep p (lo, hi) = .inl (lo, (lo + hi) / 2 - 1) := by
        simp only [bisectStep, if_pos hle, he]
      exact (halts_iff_of_inl hstep).mpr ih
  | case3 lo hi hle he ih =>
      have hstep : bisectStep p (lo, hi) = .inl ((lo + hi) / 2 + 1, hi) := by
        simp only [bisectStep, if_pos hle, he]
      exact (halts_iff_of_inl hstep).mpr ih
  | case4 lo hi hle => exact halts_of_inr (if_neg hle)

/-- **The bounds stay in the window**, whatever the probes answer. -/
theorem inside_of_iterates_bisectStep {ε : Type} {p : ℕ → Except ε Bool} {n : ℕ} {s : ℤ × ℤ}
    (h : Iterates (bisectStep p) (0, (n : ℤ) - 1) s) : 0 ≤ s.1 ∧ s.1 ≤ s.2 + 1 ∧ s.2 < n := by
  refine h.of_invariant (I := fun s : ℤ × ℤ => 0 ≤ s.1 ∧ s.1 ≤ s.2 + 1 ∧ s.2 < (n : ℤ)) ?_
    ⟨le_refl _, by simp, by simp⟩
  rintro ⟨lo, hi⟩ s' ⟨hlo, hle, hhi⟩ hstep
  unfold bisectStep at hstep
  simp only at hlo hle hhi hstep
  split_ifs at hstep with hlohi
  rcases hp : p ((lo + hi) / 2).toNat with e | (_ | _)
  · rw [hp] at hstep
    cases hstep
  · rw [hp] at hstep
    cases hstep
    exact ⟨by omega, by omega, hhi⟩
  · rw [hp] at hstep
    cases hstep
    exact ⟨hlo, by omega, by omega⟩

/-- The last index below `n` with `p`. -/
def findLast (p : ℕ → Bool) : ℕ → Option ℕ
  | 0 => none
  | n + 1 => if p n then some n else findLast p n

/-- There is no last place exactly if there is none. -/
theorem findLast_eq_none_iff {p : ℕ → Bool} {n : ℕ} :
    findLast p n = none ↔ ∀ i, i < n → p i = false := by
  induction n with
  | zero => exact ⟨fun _ i hi => absurd hi (Nat.not_lt_zero i), fun _ => rfl⟩
  | succ n ih =>
      rw [findLast]
      split_ifs with hn
      · exact ⟨False.elim,
          fun h => absurd hn (by rw [h n (Nat.lt_succ_self n)]; exact Bool.noConfusion)⟩
      · rw [ih]
        constructor
        · intro h i hi
          rcases Nat.lt_succ_iff_lt_or_eq.mp hi with hi | rfl
          · exact h i hi
          · exact Bool.not_eq_true _ ▸ hn
        · exact fun h i hi => h i (Nat.lt_succ_of_lt hi)

/-- The last place is one behind which there is no other. -/
theorem findLast_eq_some_iff {p : ℕ → Bool} {n j : ℕ} :
    findLast p n = some j ↔ j < n ∧ p j = true ∧ ∀ i, j < i → i < n → p i = false := by
  induction n with
  | zero => exact ⟨fun h => (Option.some_ne_none _ h.symm).elim, fun h => absurd h.1 (Nat.not_lt_zero j)⟩
  | succ n ih =>
      rw [findLast]
      split_ifs with hn
      · rw [Option.some.injEq]
        constructor
        · rintro rfl
          exact ⟨Nat.lt_succ_self n, hn, fun i hi hi' => by omega⟩
        · rintro ⟨hj, -, hlast⟩
          by_contra hne
          have := hlast n (by omega) (Nat.lt_succ_self n)
          rw [hn] at this
          cases this
      · rw [ih]
        constructor
        · rintro ⟨hj, hp, hlast⟩
          refine ⟨Nat.lt_succ_of_lt hj, hp, fun i hi hi' => ?_⟩
          rcases Nat.lt_succ_iff_lt_or_eq.mp hi' with hi' | rfl
          · exact hlast i hi hi'
          · exact Bool.not_eq_true _ ▸ hn
        · rintro ⟨hj, hp, hlast⟩
          refine ⟨?_, hp, fun i hi hi' => hlast i hi (Nat.lt_succ_of_lt hi')⟩
          rcases Nat.lt_succ_iff_lt_or_eq.mp hj with hj | rfl
          · exact hj
          · exact absurd hp hn

/-- The last place depends on the places in the range only. -/
theorem findLast_congr {p q : ℕ → Bool} {n : ℕ} (h : ∀ i, i < n → p i = q i) :
    findLast p n = findLast q n := by
  induction n with
  | zero => rfl
  | succ n ih =>
      rw [findLast, findLast, h n (Nat.lt_succ_self n), ih fun i hi => h i (Nat.lt_succ_of_lt hi)]

section decide

variable {p : ℕ → Prop} [DecidablePred p] {n j : ℕ}

/-- There is no last place exactly if there is none, for a predicate. -/
theorem findLast_decide_eq_none_iff :
    findLast (fun i => p i) n = none ↔ ∀ i, i < n → ¬ p i := by
  simp only [findLast_eq_none_iff, decide_eq_false_iff_not]

/-- The last place is one behind which there is no other, for a predicate. -/
theorem findLast_decide_eq_some_iff :
    findLast (fun i => p i) n = some j ↔ j < n ∧ p j ∧ ∀ i, j < i → i < n → ¬ p i := by
  simp only [findLast_eq_some_iff, decide_eq_true_iff, decide_eq_false_iff_not]

/-- No index has `p`, or there is a last one. -/
theorem forall_not_or_exists_last (p : ℕ → Prop) [DecidablePred p] (n : ℕ) :
    (∀ i, i < n → ¬ p i) ∨ ∃ j, j < n ∧ p j ∧ ∀ i, j < i → i < n → ¬ p i := by
  rcases hlast : findLast (fun i => p i) n with _ | j
  · exact Or.inl (findLast_decide_eq_none_iff.mp hlast)
  · exact Or.inr ⟨j, findLast_decide_eq_some_iff.mp hlast⟩

end decide

/-- **Bisection finds the last index without `q`**: it ends with `lo` just behind that index, or with 0
if there is none. -/
theorem bisect_eq {ε : Type} {p : ℕ → Except ε Bool} {q : ℕ → Bool} {n : ℕ}
    (hp : ∀ i, i < n → p i = .ok (q i))
    (hmono : ∀ i j, i ≤ j → j < n → q i = true → q j = true) :
    ∃ k : ℕ, bisect p 0 ((n : ℤ) - 1) = .ok ((k : ℤ), (k : ℤ) - 1) ∧ k ≤ n ∧
      findLast (fun i => !q i) n = if k = 0 then none else some (k - 1) := by
  rcases hlast : findLast (fun i => !q i) n with _ | j
  · rw [findLast_eq_none_iff] at hlast
    refine ⟨0, ?_, Nat.zero_le n, (if_pos rfl).symm⟩
    exact bisect_spec hp (fun i hi => absurd hi (Nat.not_lt_zero i))
      (fun i _ hi => by simpa using hlast i hi) (le_refl _) (by omega) (by omega) (by omega)
  · rw [findLast_eq_some_iff] at hlast
    obtain ⟨hj, hq, hbehind⟩ := hlast
    refine ⟨j + 1, ?_, hj, by rw [if_neg (Nat.succ_ne_zero j), Nat.add_sub_cancel]⟩
    refine bisect_spec hp (fun i hi => ?_) (fun i hi hi' => by simpa using hbehind i hi hi') (le_refl _)
      (by omega) (by omega) (by omega)
    by_contra hc
    rw [hmono i j (by omega) hj (Bool.not_eq_false _ ▸ hc)] at hq
    cases hq

/-! ## Sorting and linear search -/

section

variable {α κ : Type} [LinearOrder κ]

/-- Among elements of one key, a new element goes in front. -/
theorem find?_orderedInsert (key : α → κ) (r : α → α → Prop) [DecidableRel r]
    (hr : ∀ a b, r a b ↔ key a ≤ key b) (k : κ) (a : α) (l : List α) :
    (l.orderedInsert r a).find? (fun x => key x = k) =
      (a :: l).find? fun x => key x = k := by
  induction l with
  | nil => rfl
  | cons b l ih =>
      rw [List.orderedInsert_cons]
      split_ifs with hab
      · rfl
      · -- `b` stays in front of `a` because its key is smaller
        have hlt : key b < key a := by
          rw [hr] at hab
          exact not_le.mp hab
        rw [List.find?_cons, ih]
        by_cases hb : key b = k
        · have ha : ¬ key a = k := fun ha => hlt.ne (hb.trans ha.symm)
          simp [hb, ha]
        · simp [List.find?_cons, hb]

/-- **A stable sort keeps the first element of each key first.** -/
theorem find?_insertionSort (key : α → κ) (r : α → α → Prop) [DecidableRel r]
    (hr : ∀ a b, r a b ↔ key a ≤ key b) (k : κ) (l : List α) :
    (l.insertionSort r).find? (fun x => key x = k) = l.find? fun x => key x = k := by
  induction l with
  | nil => rfl
  | cons a l ih =>
      rw [List.insertionSort_cons, find?_orderedInsert key r hr, List.find?_cons, List.find?_cons, ih]

end

/-! ## Runs of equal keys in a sorted list -/

section occupies

variable {α κ : Type}

/-- The elements with the key `x` are those at the places from `i` to `j`. -/
structure Occupies (key : α → κ) (l : List α) (x : κ) (i j : ℕ) : Prop where
  le : i ≤ j
  lt : j < l.length
  iff : ∀ k (hk : k < l.length), key l[k] = x ↔ i ≤ k ∧ k ≤ j

/-- In a sorted list, a key that occurs has a run of places. -/
theorem exists_occupies [LinearOrder κ] {key : α → κ} {l : List α}
    (hsorted : l.Pairwise fun a b => key a ≤ key b) {a : α} (ha : a ∈ l) : ∃ i j, Occupies key l (key a) i j := by
  obtain ⟨m, hm, rfl⟩ := List.getElem_of_mem ha
  have hmono : ∀ {s t : ℕ} (hst : s ≤ t) (ht : t < l.length), key l[s] ≤ key l[t] := by
    intro s t hst ht
    rcases Nat.lt_or_eq_of_le hst with hst | rfl
    · exact List.pairwise_iff_getElem.mp hsorted s t (hst.trans ht) ht hst
    · exact le_refl _
  let P : ℕ → Prop := fun k => ∃ hk : k < l.length, key l[k] = key l[m]
  have hdec : DecidablePred P := fun _ => Classical.dec _
  have hP : ∃ k, P k := ⟨m, hm, rfl⟩
  obtain ⟨hi, hkey_i⟩ := Nat.find_spec hP
  have hm_le : m ≤ l.length - 1 := by omega
  obtain ⟨hj, hkey_j⟩ : P (Nat.findGreatest P (l.length - 1)) := Nat.findGreatest_spec hm_le ⟨hm, rfl⟩
  refine ⟨Nat.find hP, Nat.findGreatest P (l.length - 1), ?_, hj, fun k hk => ⟨fun hkey => ?_, ?_⟩⟩
  · exact (Nat.find_min' hP ⟨hm, rfl⟩).trans (Nat.le_findGreatest hm_le ⟨hm, rfl⟩)
  · exact ⟨Nat.find_min' hP ⟨hk, hkey⟩, Nat.le_findGreatest (by omega) ⟨hk, hkey⟩⟩
  · rintro ⟨hik, hkj⟩
    apply le_antisymm
    · exact (hmono hkj hj).trans hkey_j.le
    · exact hkey_i.ge.trans (hmono hik hk)

/-- The first element with the key from place `b` on, in a stretch that holds the last one. -/
theorem Occupies.split {key : α → κ} {l : List α} {x : κ} {i j b m : ℕ} (h : Occupies key l x i j)
    (hb : b ≤ j) (hm : j < b + m) :
    ∃ es₁ es₂, (l.drop b).take m = es₁ ++ l.get ⟨max i b, (max_le h.le hb).trans_lt h.lt⟩ :: es₂ ∧
      ∀ e ∈ es₁, key e ≠ x := by
  have hlt := h.lt
  have hle := h.le
  obtain ⟨t, ht⟩ : ∃ t, max i b = b + t := Nat.exists_eq_add_of_le (le_max_right i b)
  have hstretch : t < ((l.drop b).take m).length := by
    rw [List.length_take, List.length_drop]
    omega
  refine ⟨((l.drop b).take m).take t, ((l.drop b).take m).drop (t + 1), ?_, fun e he => ?_⟩
  · have hget : l.get ⟨max i b, (max_le hle hb).trans_lt hlt⟩ = ((l.drop b).take m)[t] := by
      simp only [List.get_eq_getElem, List.getElem_take, List.getElem_drop, ht]
    rw [hget, ← List.drop_eq_getElem_cons hstretch, List.take_append_drop]
  · obtain ⟨s, hs, rfl⟩ := List.getElem_of_mem he
    rw [List.length_take] at hs
    simp only [List.getElem_take, List.getElem_drop]
    intro hkey
    have := ((h.iff _ _).mp hkey).1
    omega

end occupies

/-- Related lists have related elements at every place. -/
theorem exists_getElem?_of_forall₂ {α β : Type} {R : α → β → Prop} {l : List α} {l' : List β}
    (h : List.Forall₂ R l l') {k : ℕ} {a : α} (ha : l[k]? = some a) :
    ∃ b, l'[k]? = some b ∧ R a b := by
  obtain ⟨hk, rfl⟩ := List.getElem?_eq_some_iff.mp ha
  have hk' : k < l'.length := h.length_eq ▸ hk
  exact ⟨l'[k], List.getElem?_eq_getElem hk', (List.forall₂_iff_get.mp h).2 k hk hk'⟩

/-- Modify the last entry of a list. -/
theorem modify_append_length {α : Type} (l : List α) (a : α) (f : α → α) :
    (l ++ [a]).modify l.length f = l ++ [f a] := by
  induction l with
  | nil => rfl
  | cons x l ih => rw [List.cons_append, List.length_cons, List.modify_succ_cons, ih]; rfl

/-- Modify an entry of the second list. -/
theorem modify_append_of_le {α : Type} {l l' : List α} {i : ℕ} (h : l.length ≤ i) (f : α → α) :
    (l ++ l').modify i f = l ++ l'.modify (i - l.length) f := by
  induction l generalizing i with
  | nil => rfl
  | cons a l ih =>
      obtain ⟨i, rfl⟩ := Nat.exists_eq_add_of_le' (Nat.one_le_of_lt h)
      rw [List.length_cons] at h ⊢
      rw [List.cons_append, List.modify_succ_cons, ih (by omega), Nat.add_sub_add_right,
        List.cons_append]

/-- An update that commutes with a map. -/
theorem map_modify {α β : Type} {g : α → β} (f : α → α) (f' : β → β)
    (h : ∀ a, g (f a) = f' (g a)) (l : List α) (i : ℕ) :
    (l.modify i f).map g = (l.map g).modify i f' := by
  apply List.ext_getElem?
  intro j
  rw [List.getElem?_map, List.getElem?_modify, List.getElem?_modify, List.getElem?_map]
  cases l[j]? with
  | none => rfl
  | some a =>
      by_cases hij : i = j
      · simp only [hij, if_true, Option.map_eq_map, Option.map_some, h]
      · simp only [hij, if_false, Option.map_eq_map, Option.map_some]

/-- A member of a list that is made by index. -/
theorem getElem?_map_range {α : Type} {f : ℕ → α} {n j : ℕ} {a : α}
    (h : ((List.range n).map f)[j]? = some a) : j < n ∧ a = f j := by
  rw [List.getElem?_map] at h
  obtain ⟨i, hi, rfl⟩ := Option.map_eq_some_iff.mp h
  obtain ⟨hlt, rfl⟩ := List.getElem?_eq_some_iff.mp hi
  rw [List.length_range] at hlt
  rw [List.getElem_range]
  exact ⟨hlt, rfl⟩

/-- Collecting by index is collecting from the list. -/
theorem filterMap_range {α β : Type} (l : List α) (f : ℕ → Option β) (g : α → Option β)
    (h : ∀ j a, l[j]? = some a → f j = g a) :
    (List.range l.length).filterMap f = l.filterMap g := by
  have key : ∀ k, (∀ j a, l[j]? = some a → f (k + j) = g a) →
      (List.range' k l.length).filterMap f = l.filterMap g := by
    clear h
    induction l with
    | nil => exact fun _ _ => rfl
    | cons a l ih =>
        intro k h
        have h0 : f k = g a := h 0 a rfl
        rw [List.length_cons, List.range'_succ, List.filterMap_cons, List.filterMap_cons, h0,
          ih (k + 1) fun j b hb => by rw [Nat.add_assoc, Nat.add_comm 1]; exact h (j + 1) b hb]
  rw [List.range_eq_range']
  exact key 0 fun j a ha => by rw [Nat.zero_add]; exact h j a ha

/-- A linear search by index is a linear search of the list. -/
theorem findSome?_range {α β : Type} (l : List α) (f : ℕ → Option β) (g : α → Option β)
    (h : ∀ j a, l[j]? = some a → f j = g a) :
    (List.range l.length).findSome? f = l.findSome? g := by
  rw [← List.head?_filterMap, filterMap_range l f g h, List.head?_filterMap]

/-- A loop that prepends what it makes of what it finds. -/
theorem foldl_prepend {α β γ : Type} {step : List γ → α → List γ} {f : α → Option β} {g : β → γ}
    (hnone : ∀ acc a, f a = none → step acc a = acc)
    (hsome : ∀ acc a b, f a = some b → step acc a = g b :: acc) (l : List α) (acc : List γ) :
    l.foldl step acc = ((l.filterMap f).map g).reverse ++ acc := by
  induction l generalizing acc with
  | nil => rfl
  | cons a l ih =>
      rw [List.foldl_cons, List.filterMap_cons, ih]
      cases hf : f a with
      | none => rw [hnone _ _ hf]
      | some b => simp [hsome _ _ _ hf]

/-- Where no key occurs twice, the search for the key of an element finds it. -/
theorem find?_key_of_nodup {α κ : Type} [DecidableEq κ] {key : α → κ} {l : List α}
    (h : (l.map key).Nodup) {a : α} (ha : a ∈ l) : l.find? (fun x => key x = key a) = some a := by
  induction l with
  | nil => cases ha
  | cons b l ih =>
      rw [List.map_cons, List.nodup_cons] at h
      rcases List.mem_cons.mp ha with rfl | ha
      · rw [List.find?_cons_of_pos (by simp)]
      · have hne : ¬ key b = key a := fun he => h.1 (he ▸ List.mem_map_of_mem ha)
        rw [List.find?_cons_of_neg (by simpa using hne), ih h.2 ha]

/-- A list without `none` is a list of values. -/
theorem eq_map_some_reduceOption {α : Type} {l : List (Option α)} (h : none ∉ l) :
    l = l.reduceOption.map some := by
  induction l with
  | nil => rfl
  | cons o l ih =>
      rw [List.mem_cons, not_or] at h
      obtain ⟨a, rfl⟩ := Option.ne_none_iff_exists'.mp (Ne.symm h.1)
      rw [List.reduceOption_cons_of_some, List.map_cons, ← ih h.2]

/-- To look for the first result is to look for the first entry that has one. -/
theorem findSome?_ite {α β : Type} (l : List α) (p : α → Prop) [DecidablePred p] (g : α → β) :
    (l.findSome? fun a => if p a then some (g a) else none) = (l.find? p).map g := by
  induction l with
  | nil => rfl
  | cons a l ih =>
      by_cases ha : p a
      · simp [ha]
      · simp [ha, ih]

/-! ## Association tables -/

/-- A table from keys to values, the newest binding first. -/
abbrev Table (κ ν : Type) := List (κ × ν)

namespace Table

variable {κ ν : Type} [DecidableEq κ]

/-- The value stored under a key. -/
def lookup : Table κ ν → κ → Option ν
  | [], _ => none
  | (k, v) :: t, x => if x = k then some v else lookup t x

/-- Store a value under a key, replacing the one stored there. -/
def insert (t : Table κ ν) (k : κ) (v : ν) : Table κ ν := (k, v) :: t

/-- Nothing is found in an empty table. -/
@[simp] theorem lookup_nil (x : κ) : lookup ([] : Table κ ν) x = none := rfl

/-- What was inserted is found. -/
@[simp] theorem lookup_insert_self (t : Table κ ν) (k : κ) (v : ν) :
    lookup (t.insert k v) k = some v := by
  simp [insert, lookup]

/-- To insert a key does not change what is found under the others. -/
theorem lookup_insert_of_ne (t : Table κ ν) {k x : κ} (v : ν) (h : x ≠ k) :
    lookup (t.insert k v) x = lookup t x := by
  simp [insert, lookup, h]

/-- What is found after an insertion. -/
theorem lookup_insert (t : Table κ ν) (k x : κ) (v : ν) :
    lookup (t.insert k v) x = if x = k then some v else lookup t x := rfl

end Table

end EosShard.Found
