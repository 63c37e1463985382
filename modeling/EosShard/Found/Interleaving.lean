import Mathlib

/-!
# Threads over a shared state

A system is a list of threads, each with a local state of type `τ`, over one shared state of type
`σ`. One function `step` gives the next atomic step of a thread; `none` is a thread that has ended.
A run lets the threads take steps in any order.

* `Reaches step c c'`: some interleaving leads from `c` to `c'`.
* `Reaches.rule`: **invariant rule**. It suffices to look at one step of one thread. The rule
  works under a bound on the shared state that, once broken, stays broken: it is then enough that the
  bound holds at the end.
* `Solo`: the steps of one thread in a row.
* `Reaches.filterMap`: **projection rule**. A system whose steps are steps of another one, or are
  not seen there, reaches there what it reaches.
* `Reaches.tickets`: **ticket rule**. If every thread draws at most one number from a counter, the
  numbers drawn are those below the counter, each once; `exists_order` lists the threads by them.
-/

namespace EosShard.Found

variable {σ τ : Type}

/-- A shared state and the threads on it. -/
structure Config (σ τ : Type) where
  shared : σ
  threads : List τ

/-- Thread `i` takes its next step. -/
def Config.advance (step : σ → τ → Option (σ × τ)) (c : Config σ τ) (i : ℕ) : Option (Config σ τ) :=
  match c.threads[i]? with
  | none => none
  | some t => (step c.shared t).map fun r => ⟨r.1, c.threads.set i r.2⟩

variable {step : σ → τ → Option (σ × τ)}

/-- A step of the configuration is a step of one thread. -/
theorem Config.advance_eq_some_iff {c c' : Config σ τ} {i : ℕ} :
    c.advance step i = some c' ↔ ∃ t s' t', c.threads[i]? = some t ∧
      step c.shared t = some (s', t') ∧ c' = ⟨s', c.threads.set i t'⟩ := by
  unfold Config.advance
  cases h : c.threads[i]? with
  | none => simp
  | some t =>
      simp only [Option.map_eq_some_iff, Option.some.injEq, Prod.exists]
      constructor
      · rintro ⟨s', t', hst, rfl⟩
        exact ⟨t, s', t', rfl, hst, rfl⟩
      · rintro ⟨_, s', t', rfl, hst, rfl⟩
        exact ⟨s', t', hst, rfl⟩

/-- Some interleaving leads from one configuration to another. -/
def Reaches (step : σ → τ → Option (σ × τ)) : Config σ τ → Config σ τ → Prop :=
  Relation.ReflTransGen fun c c' => ∃ i, c.advance step i = some c'

/-- The configuration after a given order of steps. -/
def Config.run (step : σ → τ → Option (σ × τ)) (c : Config σ τ) : List ℕ → Option (Config σ τ)
  | [] => some c
  | i :: is => (c.advance step i).bind fun c => c.run step is

/-- A schedule reaches its last configuration. -/
theorem Reaches.of_run {c c' : Config σ τ} {is : List ℕ} (h : c.run step is = some c') :
    Reaches step c c' := by
  induction is generalizing c with
  | nil =>
      cases h
      exact Relation.ReflTransGen.refl
  | cons i is ih =>
      obtain ⟨c₁, h₁, h₂⟩ := Option.bind_eq_some_iff.mp h
      exact Relation.ReflTransGen.head ⟨i, h₁⟩ (ih h₂)

/-- **Invariant rule** for interleavings, under a bound `S` that holds at the end. -/
theorem Reaches.rule {S : σ → Prop} {P : Config σ τ → Prop}
    (hback : ∀ s t s' t', step s t = some (s', t') → S s' → S s)
    (hstep : ∀ (c : Config σ τ) i t s' t', P c → S s' → c.threads[i]? = some t →
      step c.shared t = some (s', t') → P ⟨s', c.threads.set i t'⟩)
    {c c' : Config σ τ} (h0 : P c) (h : Reaches step c c') (hS : S c'.shared) : P c' := by
  induction h with
  | refl => exact h0
  | tail _ hlast ih =>
      obtain ⟨i, hi⟩ := hlast
      obtain ⟨t, s', t', ht, hst, rfl⟩ := Config.advance_eq_some_iff.mp hi
      exact hstep _ i t s' t' (ih (hback _ _ _ _ hst hS)) hS ht hst

/-- The steps of one thread in a row. -/
def Solo (step : σ → τ → Option (σ × τ)) : σ × τ → σ × τ → Prop :=
  Relation.ReflTransGen fun p q => step p.1 p.2 = some q

/-- A thread that makes no step. -/
theorem Solo.refl (p : σ × τ) : Solo step p p := Relation.ReflTransGen.refl

/-- One step in front. -/
theorem Solo.head {s s' : σ} {t t' : τ} {q : σ × τ} (h : step s t = some (s', t'))
    (hq : Solo step (s', t') q) : Solo step (s, t) q :=
  Relation.ReflTransGen.head (show step (s, t).1 (s, t).2 = some (s', t') from h) hq

/-- A thread that goes on alone. -/
theorem Solo.trans {p q r : σ × τ} (h : Solo step p q) (h' : Solo step q r) : Solo step p r :=
  Relation.ReflTransGen.trans h h'

/-! ## Projections -/

/-- A member of a list with what is in front of it and behind it. -/
theorem exists_split_of_getElem? {l : List τ} {i : ℕ} {t : τ} (h : l[i]? = some t) :
    ∃ a b, l = a ++ t :: b ∧ ∀ t', l.set i t' = a ++ t' :: b := by
  obtain ⟨hi, hget⟩ := List.getElem?_eq_some_iff.mp h
  refine ⟨l.take i, l.drop (i + 1), ?_, fun t' => List.set_eq_take_append_cons_drop.trans (if_pos hi)⟩
  rw [← hget, List.getElem_cons_drop, List.take_append_drop]

/-- **Projection rule**: if every step is a step of another system, seen through `f` and `g`, or
leaves alone all that is seen, then what is reached is reached there. -/
theorem Reaches.filterMap {σ' τ' : Type} (step' : σ' → τ' → Option (σ' × τ')) (f : σ → σ')
    (g : τ → Option τ')
    (hstep : ∀ s t s' t', step s t = some (s', t') →
      (∃ u u', g t = some u ∧ g t' = some u' ∧ step' (f s) u = some (f s', u')) ∨
        (g t = none ∧ g t' = none ∧ f s' = f s))
    {c c' : Config σ τ} (h : Reaches step c c') :
    Reaches step' ⟨f c.shared, c.threads.filterMap g⟩ ⟨f c'.shared, c'.threads.filterMap g⟩ := by
  induction h with
  | refl => exact Relation.ReflTransGen.refl
  | tail _ hlast ih =>
      obtain ⟨i, hi⟩ := hlast
      obtain ⟨t, s', t', ht, hst, rfl⟩ := Config.advance_eq_some_iff.mp hi
      obtain ⟨a, b, hl, hset⟩ := exists_split_of_getElem? ht
      simp only [hset]
      rw [hl] at ih
      rcases hstep _ _ _ _ hst with ⟨u, u', hu, hu', hst'⟩ | ⟨hu, hu', hf⟩
      · refine ih.tail ⟨(a.filterMap g).length, Config.advance_eq_some_iff.mpr
          ⟨u, f s', u', ?_, hst', ?_⟩⟩
        · simp [hu]
        · simp [hu, hu']
      · simpa [hu, hu', hf] using ih

/-- What no step of a thread changes is as it was. -/
theorem Reaches.map_eq {α : Type} (g : τ → α)
    (hstep : ∀ s t s' t', step s t = some (s', t') → g t' = g t) {c c' : Config σ τ}
    (h : Reaches step c c') : c'.threads.map g = c.threads.map g := by
  induction h with
  | refl => rfl
  | tail _ hlast ih =>
      obtain ⟨i, hi⟩ := hlast
      obtain ⟨t, s', t', ht, hst, rfl⟩ := Config.advance_eq_some_iff.mp hi
      obtain ⟨a, b, hl, hset⟩ := exists_split_of_getElem? ht
      simp only [hset]
      rw [← ih, hl]
      simp [hstep _ _ _ _ hst]

/-! ## Tickets -/

/-- **Ticket rule**: if a step draws at most the next number of a counter, and no thread draws
twice, then the numbers drawn are those below the counter. -/
theorem Reaches.tickets (ticket : τ → Option ℕ) (count : σ → ℕ)
    (hstep : ∀ s t s' t', step s t = some (s', t') →
      (ticket t' = ticket t ∧ count s' = count s) ∨
        (ticket t = none ∧ ticket t' = some (count s) ∧ count s' = count s + 1))
    {c c' : Config σ τ} (h : Reaches step c c')
    (h0 : (c.threads.filterMap ticket).Perm (List.range (count c.shared))) :
    (c'.threads.filterMap ticket).Perm (List.range (count c'.shared)) := by
  induction h with
  | refl => exact h0
  | tail _ hlast ih =>
      obtain ⟨i, hi⟩ := hlast
      obtain ⟨t, s', t', ht, hst, rfl⟩ := Config.advance_eq_some_iff.mp hi
      obtain ⟨a, b, hl, hset⟩ := exists_split_of_getElem? ht
      simp only [hset]
      rw [hl] at ih
      rcases hstep _ _ _ _ hst with ⟨hk, hn⟩ | ⟨hk, hk', hn⟩
      · simpa only [List.filterMap_append, List.filterMap_cons, hk, hn] using ih
      · -- the new number goes behind all others
        simp only [List.filterMap_append, List.filterMap_cons, hk] at ih
        simp only [List.filterMap_append, List.filterMap_cons, hk', hn, List.range_succ]
        exact List.perm_middle.trans ((ih.cons _).trans (List.perm_append_singleton _ _).symm)

/-- If the numbers drawn are those below `n`, the threads that have one can be listed by them. -/
theorem exists_order {α : Type} (ticket : τ → Option ℕ) (f : τ → α) {ts : List τ} {n : ℕ}
    (h : (ts.filterMap ticket).Perm (List.range n)) :
    ∃ order : List α, order.length = n ∧
      order.Perm (ts.filterMap fun t => (ticket t).map fun _ => f t) ∧
      (∀ t ∈ ts, ∀ k, ticket t = some k → order[k]? = some (f t)) ∧
      ∀ k < n, ∃ t ∈ ts, ticket t = some k := by
  set L : List (ℕ × α) := ts.filterMap fun t => (ticket t).map fun k => (k, f t) with hL
  have hfst : L.map Prod.fst = ts.filterMap ticket := by
    rw [hL, List.map_filterMap]
    congr 1
    funext t
    cases ticket t <;> rfl
  have hsnd : L.map Prod.snd = ts.filterMap fun t => (ticket t).map fun _ => f t := by
    rw [hL, List.map_filterMap]
    congr 1
    funext t
    cases ticket t <;> rfl
  -- sorted by the numbers, the list has every number at its place
  set S := L.insertionSort fun p q => p.1 ≤ q.1 with hS
  have hperm : S.Perm L := List.perm_insertionSort _ _
  have hrange : S.map Prod.fst = List.range n := by
    refine ((hperm.map Prod.fst).trans (hfst ▸ h)).eq_of_pairwise
      (fun a b _ _ => Nat.le_antisymm) ?_ List.pairwise_le_range
    rw [List.pairwise_map]
    exact List.pairwise_insertionSort _ _
  refine ⟨S.map Prod.snd, ?_, hsnd ▸ hperm.map Prod.snd, ?_,
    fun k hk => List.mem_filterMap.mp (h.mem_iff.mpr (List.mem_range.mpr hk))⟩
  · rw [List.length_map, ← List.length_map Prod.fst, hrange, List.length_range]
  · intro t ht k hk
    have hmem : (k, f t) ∈ S := hperm.mem_iff.mpr (List.mem_filterMap.mpr ⟨t, ht, by rw [hk]; rfl⟩)
    obtain ⟨j, hj⟩ := List.mem_iff_getElem?.mp hmem
    have hjk : (List.range n)[j]? = some k := by
      rw [← hrange, List.getElem?_map, hj]
      rfl
    obtain ⟨hlt, hjk⟩ := List.getElem?_eq_some_iff.mp hjk
    rw [List.getElem_range] at hjk
    rw [← hjk, List.getElem?_map, hj]
    rfl

end EosShard.Found
