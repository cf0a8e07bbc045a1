import Mathlib

/-!
Runs of a labelled step relation: what every step keeps, every run keeps, and a
simulation of single steps carries over to whole traces.
-/

namespace Lib

variable {S L T E : Type}

/-- The states a run from `s₀` reaches, with the labels of its steps, oldest first. -/
inductive Run (step : S → L → S → Prop) (s₀ : S) : List L → S → Prop
  | start : Run step s₀ [] s₀
  | step {ls : List L} {s s' : S} {l : L} :
      Run step s₀ ls s → step s l s' → Run step s₀ (ls ++ [l]) s'

def Restrict (step : S → L → S → Prop) (ok : S → L → Prop) (s : S) (l : L) (s' : S) : Prop :=
  step s l s' ∧ ok s l

variable {step step' : S → L → S → Prop} {s₀ s : S} {ls : List L}

theorem Run.invariant {I : List L → S → Prop} (h : Run step s₀ ls s) (hs : I [] s₀)
    (hstep : ∀ ls s l s', Run step s₀ ls s → I ls s → step s l s' → I (ls ++ [l]) s') : I ls s := by
  induction h with
  | start => exact hs
  | step hr hl ih => exact hstep _ _ _ _ hr ih hl

theorem Run.mono (h : Run step s₀ ls s) (hm : ∀ s l s', step s l s' → step' s l s') :
    Run step' s₀ ls s := by
  induction h with
  | start => exact .start
  | step _ hl ih => exact .step ih (hm _ _ _ hl)

theorem Run.restrict {ok : S → L → Prop} (h : Run step s₀ ls s) (hok : ∀ s, ∀ l ∈ ls, ok s l) :
    Run (Restrict step ok) s₀ ls s := by
  induction h with
  | start => exact .start
  | @step ls s s' l _ hl ih =>
    apply Run.step
    · exact ih (fun s l' hl' => hok s l' (List.mem_append_left _ hl'))
    · exact ⟨hl, hok s l (List.mem_append_right _ List.mem_cons_self)⟩

theorem Run.trans {s' : S} {ls' : List L} (h : Run step s₀ ls s) (h' : Run step s ls' s') :
    Run step s₀ (ls ++ ls') s' := by
  induction h' with
  | start => simpa using h
  | step _ hl ih =>
    rw [← List.append_assoc]
    exact .step ih hl

theorem Run.last {l : L} (h : Run step s₀ (ls ++ [l]) s) : ∃ s', Run step s₀ ls s' ∧ step s' l s := by
  generalize hx : ls ++ [l] = ls' at h
  cases h with
  | start => simp at hx
  | step hr hl =>
    obtain ⟨rfl, hl'⟩ := List.append_inj' hx rfl
    cases hl'
    exact ⟨_, hr, hl⟩

theorem Run.split {ls' : List L} (h : Run step s₀ (ls ++ ls') s) :
    ∃ s', Run step s₀ ls s' ∧ Run step s' ls' s := by
  induction ls' using List.reverseRecOn generalizing s with
  | nil => exact ⟨s, by simpa using h, .start⟩
  | append_singleton ls' l ih =>
    rw [← List.append_assoc] at h
    obtain ⟨s₁, h₁, hl⟩ := h.last
    obtain ⟨s', hs', h'⟩ := ih h₁
    exact ⟨s', hs', h'.step hl⟩

theorem Run.of_image {f : T → S} {step' : T → L → T → Prop} {t₀ : T} (h : Run step (f t₀) ls s)
    (hstep : ∀ ls t l s', Run step' t₀ ls t → step (f t) l s' → ∃ t', f t' = s' ∧ step' t l t') :
    ∃ t, f t = s ∧ Run step' t₀ ls t := by
  induction h with
  | start => exact ⟨t₀, rfl, .start⟩
  | step _ hl ih =>
    obtain ⟨t, rfl, ht⟩ := ih
    obtain ⟨t', rfl, hl'⟩ := hstep _ _ _ _ ht hl
    exact ⟨t', rfl, ht.step hl'⟩

def Answers (astep : T → E → T → Prop) (t : T) : Option E → T → Prop
  | none, t' => t' = t
  | some e, t' => astep t e t'

/-- A relation kept by every step, where a step that shows an event is matched by an abstract
step with that event and a silent one by none, makes every trace an abstract trace. -/
theorem Run.simulates {astep : T → E → T → Prop} {t₀ : T} {obs : L → Option E} {R : List L → S → T → Prop}
    (h : Run step s₀ ls s) (h₀ : R [] s₀ t₀)
    (hstep : ∀ ls s l s' t, Run step s₀ ls s → R ls s t → step s l s' →
      ∃ t', R (ls ++ [l]) s' t' ∧ Answers astep t (obs l) t') :
    ∃ t, Run astep t₀ (ls.filterMap obs) t ∧ R ls s t := by
  induction h with
  | start => exact ⟨t₀, .start, h₀⟩
  | @step ls s s' l hr hl ih =>
    obtain ⟨t, ht, hR⟩ := ih
    obtain ⟨t', hR', ha⟩ := hstep _ _ _ _ _ hr hR hl
    rw [List.filterMap_append]
    cases ho : obs l with
    | none =>
      rw [ho] at ha
      cases ha
      exact ⟨t, by simpa [ho] using ht, hR'⟩
    | some e =>
      rw [ho] at ha
      exact ⟨t', by simpa [ho] using Run.step ht ha, hR'⟩

end Lib
