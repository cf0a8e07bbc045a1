import OxenDB.Lib.Bytes

namespace Lib

abbrev Span := ℕ × ℕ

def Inside (ws : List Span) (i : ℕ) : Prop := ∃ w ∈ ws, w.1 ≤ i ∧ i < w.1 + w.2

/-- The files hold the same bytes outside `ws`, and none ends beyond both the other and `ws`. -/
structure SameOutside (ws : List Span) (f g : Bytes) : Prop where
  bytes : ∀ i, ¬ Inside ws i → f.getD i 0 = g.getD i 0
  left : f.length ≤ g.length ∨ ∃ w ∈ ws, f.length ≤ w.1 + w.2
  right : g.length ≤ f.length ∨ ∃ w ∈ ws, g.length ≤ w.1 + w.2

namespace SameOutside

variable {ws vs : List Span} {f g h : Bytes}

theorem refl (ws : List Span) (f : Bytes) : SameOutside ws f f :=
  ⟨fun _ _ => rfl, .inl (le_refl _), .inl (le_refl _)⟩

theorem mono (hs : SameOutside ws f g) (hsub : ws ⊆ vs) : SameOutside vs f g := by
  constructor
  · intro i hi
    apply hs.bytes
    rintro ⟨w, hw, hin⟩
    exact hi ⟨w, hsub hw, hin⟩
  · exact hs.left.imp id (fun ⟨w, hw, hl⟩ => ⟨w, hsub hw, hl⟩)
  · exact hs.right.imp id (fun ⟨w, hw, hl⟩ => ⟨w, hsub hw, hl⟩)

theorem ends_trans {a b c : ℕ} (h₁ : a ≤ b ∨ ∃ w ∈ ws, a ≤ w.1 + w.2)
    (h₂ : b ≤ c ∨ ∃ w ∈ ws, b ≤ w.1 + w.2) : a ≤ c ∨ ∃ w ∈ ws, a ≤ w.1 + w.2 := by
  rcases h₁ with hab | hw
  · rcases h₂ with hbc | ⟨w, hw, hb⟩
    · exact .inl (hab.trans hbc)
    · exact .inr ⟨w, hw, hab.trans hb⟩
  · exact .inr hw

theorem trans (h₁ : SameOutside ws f g) (h₂ : SameOutside ws g h) : SameOutside ws f h := by
  constructor
  · intro i hi
    rw [h₁.bytes i hi, h₂.bytes i hi]
  · exact ends_trans h₁.left h₂.left
  · exact ends_trans h₂.right h₁.right

theorem eq (hs : SameOutside [] f g) : f = g := by
  have hlen : f.length = g.length := by
    apply le_antisymm
    · simpa using hs.left
    · simpa using hs.right
  apply List.ext_getElem?
  intro i
  have hi := hs.bytes i (by simp [Inside])
  by_cases hf : i < f.length
  · rw [List.getD_eq_getElem?_getD, List.getD_eq_getElem?_getD, List.getElem?_eq_getElem hf,
      List.getElem?_eq_getElem (hlen ▸ hf)] at hi
    rw [List.getElem?_eq_getElem hf, List.getElem?_eq_getElem (hlen ▸ hf)]
    exact congrArg some hi
  · rw [List.getElem?_eq_none (by omega), List.getElem?_eq_none (by omega)]

theorem tear (f : Bytes) {off n : ℕ} {bs : Bytes} (hn : bs.length ≤ n) :
    SameOutside [(off, n)] f (writeAt f off bs) := by
  constructor
  · intro i hi
    rw [writeAt_getD, if_neg]
    intro hin
    exact hi ⟨_, List.mem_singleton_self _, hin.1, by omega⟩
  · exact .inl (writeAt_length_le f off bs)
  · by_cases hb : bs = []
    · exact .inl (by rw [hb, writeAt_nil])
    · rw [writeAt_length f off bs hb]
      rcases le_total (off + bs.length) f.length with hl | hl
      · exact .inl (by rw [max_eq_left hl])
      · refine .inr ⟨_, List.mem_singleton_self _, ?_⟩
        rw [max_eq_right hl]
        omega

theorem ends_write {a b e : ℕ} {off n : ℕ} (he : off + n = e)
    (h : a ≤ b ∨ ∃ w ∈ (off, n) :: ws, a ≤ w.1 + w.2) :
    max a e ≤ max b e ∨ ∃ w ∈ ws, max a e ≤ w.1 + w.2 := by
  rcases le_total a e with hae | hea
  · exact .inl (by omega)
  · rw [max_eq_left hea]
    rcases h with hab | ⟨w, hw, ha⟩
    · exact .inl (by omega)
    · rcases List.mem_cons.mp hw with rfl | hw
      · exact .inl (by dsimp only at ha; omega)
      · exact .inr ⟨w, hw, ha⟩

theorem write {off : ℕ} {bs : Bytes} (hs : SameOutside ((off, bs.length) :: ws) f g) (hb : bs ≠ []) :
    SameOutside ws (writeAt f off bs) (writeAt g off bs) := by
  constructor
  · intro i hi
    rw [writeAt_getD, writeAt_getD]
    split_ifs with hin
    · rfl
    · apply hs.bytes
      rintro ⟨w, hw, hiw⟩
      rcases List.mem_cons.mp hw with rfl | hw
      · exact hin hiw
      · exact hi ⟨w, hw, hiw⟩
  · rw [writeAt_length f off bs hb, writeAt_length g off bs hb]
    exact ends_write rfl hs.left
  · rw [writeAt_length f off bs hb, writeAt_length g off bs hb]
    exact ends_write rfl hs.right

end SameOutside

end Lib
