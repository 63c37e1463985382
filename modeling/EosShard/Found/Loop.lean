import Mathlib

/-!
# Loops that need not end

A `while` loop of the source is a step function `step : σ → σ ⊕ α`: `.inl` is the state the next
iteration starts in, `.inr` the value the loop is left with. `loop step n s` runs at most `n`
iterations; it answers `none` when they do not suffice.

* `Halts step s a`: the loop started in `s` is left with `a`. The value is unique
  (`Halts.unique`), one iteration is peeled off by `halts_of_inr` and `halts_iff_of_inl`.
* `Iterates step s t`: an iteration starts in `t`. The loop is left from there as it is from `s`
  (`Iterates.halts_iff`), and what every iteration keeps holds there (`Iterates.of_invariant`).
* `Halts.exists_iterates` and `Iterates.map` are for a loop inside another: the outer one comes to the
  last iteration of the inner one.
* `not_halts_of_invariant`: a loop that never leaves a set of states without an exit runs for ever;
  `not_halts_of_fixed` is the case of a state that is its own successor.
* `Returns f a`: the fuelled computation `f` answers `a` for all sufficiently large fuel.
-/

namespace EosShard.Found

variable {σ α : Type}

/-- At most `n` iterations of a loop. -/
def loop (step : σ → σ ⊕ α) : ℕ → σ → Option α
  | 0, _ => none
  | n + 1, s =>
      match step s with
      | .inr a => some a
      | .inl s' => loop step n s'

/-- The loop started in `s` is left with `a`. -/
def Halts (step : σ → σ ⊕ α) (s : σ) (a : α) : Prop := ∃ n, loop step n s = some a

/-- `f` answers `a` for all sufficiently large fuel. -/
def Returns (f : ℕ → Option α) (a : α) : Prop := ∃ N, ∀ n, N ≤ n → f n = some a

/-- A function has one result. -/
theorem Returns.unique {f : ℕ → Option α} {a b : α} (ha : Returns f a) (hb : Returns f b) :
    a = b := by
  obtain ⟨n, hn⟩ := ha
  obtain ⟨m, hm⟩ := hb
  have h := hn (max n m) (le_max_left _ _)
  rw [hm (max n m) (le_max_right _ _)] at h
  exact (Option.some.inj h).symm

/-- A constant is returned. -/
theorem returns_const (a : α) : Returns (fun _ => some a) a := ⟨0, fun _ _ => rfl⟩

/-- Fuelled computations compose. -/
theorem Returns.bind {β : Type} {f : ℕ → Option α} {g : ℕ → α → Option β} {a : α} {b : β}
    (hf : Returns f a) (hg : Returns (fun n => g n a) b) :
    Returns (fun n => (f n).bind (g n)) b := by
  obtain ⟨n, hn⟩ := hf
  obtain ⟨m, hm⟩ := hg
  refine ⟨max n m, fun k hk => ?_⟩
  simp only
  rw [hn k ((le_max_left _ _).trans hk)]
  exact hm k ((le_max_right _ _).trans hk)

/-- What is computed from a result. -/
theorem Returns.map {β : Type} {f : ℕ → Option α} {a : α} (h : Returns f a) (g : α → β) :
    Returns (fun n => (f n).map g) (g a) := by
  obtain ⟨n, hn⟩ := h
  refine ⟨n, fun m hm => ?_⟩
  simp only
  rw [hn m hm, Option.map_some]

section loop

variable {step : σ → σ ⊕ α}

/-- The loop ends with the result of a step. -/
theorem loop_succ_of_inr {s : σ} {a : α} (h : step s = .inr a) (n : ℕ) :
    loop step (n + 1) s = some a := by
  simp only [loop, h]

/-- The loop goes on with the state of a step. -/
theorem loop_succ_of_inl {s s' : σ} (h : step s = .inl s') (n : ℕ) :
    loop step (n + 1) s = loop step n s' := by
  simp only [loop, h]

/-- More iterations do not change an answer. -/
theorem loop_mono {n m : ℕ} (hnm : n ≤ m) {s : σ} {a : α} (h : loop step n s = some a) :
    loop step m s = some a := by
  induction n generalizing s m with
  | zero => cases h
  | succ n ih =>
      obtain ⟨m, rfl⟩ := Nat.exists_eq_add_of_le' (Nat.lt_of_lt_of_le (Nat.succ_pos n) hnm)
      rcases hs : step s with s' | b
      · rw [loop_succ_of_inl hs] at h ⊢
        exact ih (Nat.le_of_succ_le_succ hnm) h
      · rw [loop_succ_of_inr hs] at h ⊢
        exact h

/-- A loop that halts returns. -/
theorem Halts.returns {s : σ} {a : α} (h : Halts step s a) : Returns (fun n => loop step n s) a := by
  obtain ⟨n, hn⟩ := h
  exact ⟨n, fun m hm => loop_mono hm hn⟩

/-- A loop returns exactly what it halts with. -/
theorem returns_loop_iff {s : σ} {a : α} : Returns (fun n => loop step n s) a ↔ Halts step s a :=
  ⟨fun ⟨n, hn⟩ => ⟨n, hn n (le_refl n)⟩, Halts.returns⟩

/-- A loop has one result. -/
theorem Halts.unique {s : σ} {a b : α} (ha : Halts step s a) (hb : Halts step s b) : a = b :=
  ha.returns.unique hb.returns

/-- A step with a result ends the loop. -/
theorem halts_of_inr {s : σ} {a : α} (h : step s = .inr a) : Halts step s a :=
  ⟨1, loop_succ_of_inr h 0⟩

/-- A step with a result ends the loop with nothing else. -/
theorem halts_iff_of_inr {s : σ} {a b : α} (h : step s = .inr a) : Halts step s b ↔ b = a :=
  ⟨fun hb => hb.unique (halts_of_inr h), fun hb => hb ▸ halts_of_inr h⟩

/-- A step to another state does not change how the loop ends. -/
theorem halts_iff_of_inl {s s' : σ} (h : step s = .inl s') {a : α} :
    Halts step s a ↔ Halts step s' a := by
  constructor
  · rintro ⟨n, hn⟩
    cases n with
    | zero => cases hn
    | succ n => exact ⟨n, by rwa [loop_succ_of_inl h] at hn⟩
  · rintro ⟨n, hn⟩
    exact ⟨n + 1, by rwa [loop_succ_of_inl h]⟩

/-- The loop started in `s` comes to start an iteration in `t`. -/
def Iterates (step : σ → σ ⊕ α) (s t : σ) : Prop :=
  Relation.ReflTransGen (fun s s' => step s = .inl s') s t

/-- Any number of steps does not change how the loop ends. -/
theorem Iterates.halts_iff {s t : σ} (h : Iterates step s t) {a : α} : Halts step s a ↔ Halts step t a := by
  induction h with
  | refl => rfl
  | tail _ hst ih => exact ih.trans (halts_iff_of_inl hst)

/-- A loop that is left comes to its last iteration. -/
theorem Halts.exists_iterates {s : σ} {a : α} (h : Halts step s a) :
    ∃ t, Iterates step s t ∧ step t = .inr a := by
  obtain ⟨n, hn⟩ := h
  induction n generalizing s with
  | zero => cases hn
  | succ n ih =>
      rcases hs : step s with s' | b
      · rw [loop_succ_of_inl hs] at hn
        obtain ⟨t, hst, ht⟩ := ih hn
        exact ⟨t, Relation.ReflTransGen.head hs hst, ht⟩
      · rw [loop_succ_of_inr hs] at hn
        rw [Option.some.inj hn] at hs
        exact ⟨s, Relation.ReflTransGen.refl, hs⟩

/-- A loop runs inside another one whose iterations are its own. -/
theorem Iterates.map {τ β : Type} {step' : τ → τ ⊕ β} (f : σ → τ)
    (hf : ∀ s s', step s = .inl s' → step' (f s) = .inl (f s')) {s t : σ} (h : Iterates step s t) :
    Iterates step' (f s) (f t) :=
  Relation.ReflTransGen.lift f hf _ _ h

/-- What every iteration keeps holds in front of every iteration. -/
theorem Iterates.of_invariant {I : σ → Prop} (hstep : ∀ s s', I s → step s = .inl s' → I s') {s t : σ}
    (h : Iterates step s t) (hs : I s) : I t := by
  induction h with
  | refl => exact hs
  | tail _ hst ih => exact hstep _ _ ih hst

/-- A loop that stays among states without an exit is never left. -/
theorem not_halts_of_invariant (I : σ → Prop) (hstep : ∀ s, I s → ∃ s', step s = .inl s' ∧ I s')
    {s : σ} (hs : I s) (a : α) : ¬ Halts step s a := by
  rintro ⟨n, hn⟩
  induction n generalizing s with
  | zero => cases hn
  | succ n ih =>
      obtain ⟨s', hst, hI⟩ := hstep s hs
      rw [loop_succ_of_inl hst] at hn
      exact ih hI hn

/-- A state that is its own successor is never left. -/
theorem not_halts_of_fixed {s : σ} (h : step s = .inl s) (a : α) : ¬ Halts step s a :=
  not_halts_of_invariant (· = s) (fun _ ht => ⟨s, ht ▸ h, rfl⟩) rfl a

end loop

end EosShard.Found
