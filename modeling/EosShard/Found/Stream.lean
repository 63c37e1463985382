import Mathlib

/-!
# Reading a stream to its end

A stream in the state `s` answers a call of `read` with some elements and a new state, `none` for an
error. `readUntilEnd` calls it until it yields nothing.

* `readUntilEnd_eq`: if every call yields a piece of what is left, and nothing only if nothing is left,
  then reading to the end yields all that was left, however the calls cut it into pieces.
-/

namespace EosShard.Found

variable {σ ι β : Type}

/-- What the calls with the given arguments yield, up to the first one that yields nothing. `none` if
a call fails or there is no such call. -/
def readUntilEnd (read : σ → ι → Option (List β × σ)) (s : σ) : List ι → Option (List β)
  | [] => none
  | a :: as =>
      match read s a with
      | none => none
      | some (bs, s') => if bs = [] then some [] else (readUntilEnd read s' as).map (bs ++ ·)

/-- A call yields a piece of what is left, and nothing only if nothing is left. -/
def YieldsPiece (read : σ → ι → Option (List β × σ)) (left : σ → List β) (P : σ → Prop) (s : σ)
    (a : ι) : Prop :=
  ∃ bs s', read s a = some (bs, s') ∧ P s' ∧ left s = bs ++ left s' ∧ (bs = [] → left s = [])

/-- **Reading to the end** yields all that is left, and one call more than there are elements is
enough. -/
theorem readUntilEnd_eq {read : σ → ι → Option (List β × σ)} {left : σ → List β} {P : σ → Prop}
    {A : ι → Prop} (hread : ∀ s a, P s → A a → YieldsPiece read left P s a) {s : σ} {as : List ι}
    (hs : P s) (has : ∀ a ∈ as, A a) :
    (∀ bs, readUntilEnd read s as = some bs → bs = left s) ∧
      ((left s).length < as.length → readUntilEnd read s as = some (left s)) := by
  induction as generalizing s with
  | nil =>
      constructor
      · intro bs h
        cases h
      · intro h
        exact absurd h (Nat.not_lt_zero _)
  | cons a as ih =>
      obtain ⟨bs, s', hcall, hs', hleft, hend⟩ := hread s a hs (has a List.mem_cons_self)
      rw [readUntilEnd, hcall]
      simp only
      by_cases hnil : bs = []
      · rw [if_pos hnil, hend hnil]
        exact ⟨fun cs h => (Option.some.inj h).symm, fun _ => rfl⟩
      · rw [if_neg hnil, hleft]
        obtain ⟨hsound, hcomplete⟩ := ih hs' fun b hb => has b (List.mem_cons_of_mem a hb)
        constructor
        · intro cs h
          obtain ⟨ds, hds, rfl⟩ := Option.map_eq_some_iff.mp h
          rw [hsound ds hds]
        · intro hlt
          have hpos := List.length_pos_iff.mpr hnil
          rw [List.length_append, List.length_cons] at hlt
          rw [hcomplete (by omega)]
          rfl

end EosShard.Found
