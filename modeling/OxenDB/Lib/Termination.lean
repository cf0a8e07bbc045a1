import OxenDB.Lib.Transition

namespace Lib

variable {S L : Type} {step : S → L → S → Prop} {s₀ s : S} {ls : List L} {measure : S → ℕ}

theorem Run.length_le (h : Run step s₀ ls s)
    (hm : ∀ ls s l s', Run step s₀ ls s → step s l s' → measure s' < measure s) :
    ls.length + measure s ≤ measure s₀ := by
  induction h with
  | start => exact (Nat.zero_add _).le
  | @step ls s s' l hr hl ih =>
    have hlt := hm _ _ _ _ hr hl
    rw [List.length_append, List.length_singleton]
    omega

theorem Run.exists_end (h : Run step s₀ ls s)
    (hm : ∀ ls s l s', Run step s₀ ls s → step s l s' → measure s' < measure s) :
    ∃ ls' s', Run step s₀ ls' s' ∧ ∀ l s'', ¬ step s' l s'' := by
  induction hn : measure s using Nat.strong_induction_on generalizing ls s with
  | _ n ih =>
    by_cases hend : ∃ l s', step s l s'
    · obtain ⟨l, s', hl⟩ := hend
      exact ih _ (hn ▸ hm _ _ _ _ h hl) (h.step hl) rfl
    · exact ⟨ls, s, h, fun l s' hl => hend ⟨l, s', hl⟩⟩

end Lib
