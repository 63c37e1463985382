import Mathlib

/-!
# Machines

A machine is a partial step function `step : σ → α → Option σ` on states and actions; `none` says that
the action is not possible in the state.

* `runActions step s as`: the state after the actions `as`, in order.
* `runActions_rule`: **invariant rule**, for invariants that may speak of the actions so far.
* `runActions_simulation`: **simulation rule**. If every step of a machine can be followed by another
  one, then so can every run.
* `runActions_measure`: **termination rule**. If every action of a kind lowers a measure by one, then the
  measure counts how many of them are left.
-/

namespace EosShard.Found

variable {σ α : Type}

/-- The state after the given actions. -/
def runActions (step : σ → α → Option σ) (s : σ) : List α → Option σ
  | [] => some s
  | a :: as => (step s a).bind fun s' => runActions step s' as

variable {step : σ → α → Option σ}

/-- A run is its first step and the rest. -/
theorem runActions_cons_eq_some_iff {s s'' : σ} {a : α} {as : List α} :
    runActions step s (a :: as) = some s'' ↔ ∃ s', step s a = some s' ∧ runActions step s' as = some s'' :=
  Option.bind_eq_some_iff

/-- **Invariant rule** for runs, with the actions so far. -/
theorem runActions_rule {P : List α → σ → Prop} {s₀ s : σ} {as : List α} (h₀ : P [] s₀)
    (hstep : ∀ bs t a t', P bs t → step t a = some t' → P (bs ++ [a]) t')
    (h : runActions step s₀ as = some s) : P as s := by
  have key : ∀ bs t, P bs t → runActions step t as = some s → P (bs ++ as) s := by
    clear h h₀
    induction as with
    | nil =>
        intro bs t hP hrun
        cases hrun
        rwa [List.append_nil]
    | cons a as ih =>
        intro bs t hP hrun
        obtain ⟨t', hfirst, hrest⟩ := runActions_cons_eq_some_iff.mp hrun
        have := ih (bs ++ [a]) t' (hstep bs t a t' hP hfirst) hrest
        rwa [List.append_assoc] at this
  exact key [] s₀ h₀ h

/-- **Simulation rule**: a machine that can follow every step can follow every run. -/
theorem runActions_simulation {τ : Type} {step' : τ → α → Option τ} {R : σ → τ → Prop}
    (hstep : ∀ s t a s', R s t → step s a = some s' → ∃ t', step' t a = some t' ∧ R s' t')
    {s s' : σ} {t : τ} {as : List α} (hR : R s t) (h : runActions step s as = some s') :
    ∃ t', runActions step' t as = some t' ∧ R s' t' := by
  induction as generalizing s t with
  | nil =>
      cases h
      exact ⟨t, rfl, hR⟩
  | cons a as ih =>
      obtain ⟨s₁, hfirst, hrest⟩ := runActions_cons_eq_some_iff.mp h
      obtain ⟨t₁, hfirst', hR₁⟩ := hstep s t a s₁ hR hfirst
      obtain ⟨t', hrest', hR'⟩ := ih hR₁ hrest
      exact ⟨t', runActions_cons_eq_some_iff.mpr ⟨t₁, hfirst', hrest'⟩, hR'⟩

/-- **Termination rule**: under the invariant `P`, actions of the kind `A` are counted by `μ`. -/
theorem runActions_measure {P : σ → Prop} {A : α → Prop} {μ : σ → ℕ}
    (hstep : ∀ s a s', P s → A a → step s a = some s' → P s' ∧ μ s' + 1 = μ s)
    {s s' : σ} {as : List α} (hP : P s) (hA : ∀ a ∈ as, A a) (h : runActions step s as = some s') :
    P s' ∧ μ s' + as.length = μ s := by
  induction as generalizing s with
  | nil =>
      cases h
      exact ⟨hP, rfl⟩
  | cons a as ih =>
      obtain ⟨t, hfirst, hrest⟩ := runActions_cons_eq_some_iff.mp h
      obtain ⟨ht, hμ⟩ := hstep s a t hP (hA a List.mem_cons_self) hfirst
      obtain ⟨hs', hlen⟩ := ih ht (fun b hb => hA b (List.mem_cons_of_mem a hb)) hrest
      refine ⟨hs', ?_⟩
      rw [List.length_cons]
      omega

end EosShard.Found
