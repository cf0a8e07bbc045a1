import Mathlib

namespace Lib

variable {K V : Type} [DecidableEq K]

def overlay (m : K → V) (us : List (K × V)) : K → V :=
  us.foldl (fun m u => Function.update m u.1 u.2) m

@[simp] theorem overlay_nil (m : K → V) : overlay m [] = m := rfl

@[simp] theorem overlay_cons (m : K → V) (u : K × V) (us : List (K × V)) :
    overlay m (u :: us) = overlay (Function.update m u.1 u.2) us := rfl

theorem overlay_append (m : K → V) (us vs : List (K × V)) :
    overlay m (us ++ vs) = overlay (overlay m us) vs := List.foldl_append

theorem overlay_of_not_mem (m : K → V) (us : List (K × V)) (k : K) (h : k ∉ us.map Prod.fst) :
    overlay m us k = m k := by
  induction us generalizing m with
  | nil => rfl
  | cons u us ih =>
    simp only [List.map_cons, List.mem_cons, not_or] at h
    rw [overlay_cons, ih _ h.2, Function.update_of_ne h.1]

theorem overlay_of_mem (us : List (K × V)) (k : K) (h : k ∈ us.map Prod.fst) :
    ∃ v, (k, v) ∈ us ∧ ∀ m : K → V, overlay m us k = v := by
  induction us with
  | nil => simp at h
  | cons u us ih =>
    by_cases hk : k ∈ us.map Prod.fst
    · obtain ⟨v, hv, ho⟩ := ih hk
      exact ⟨v, List.mem_cons_of_mem _ hv, fun m => ho _⟩
    · have hu : k = u.1 := by simpa [hk] using h
      refine ⟨u.2, by simp [hu], fun m => ?_⟩
      rw [overlay_cons, overlay_of_not_mem _ _ _ hk, hu, Function.update_self]

theorem overlay_eq_of_mem (m m' : K → V) (us : List (K × V)) (k : K) (h : k ∈ us.map Prod.fst) :
    overlay m us k = overlay m' us k := by
  obtain ⟨v, -, hv⟩ := overlay_of_mem us k h
  rw [hv, hv]

theorem overlay_of_nodup (m : K → V) (us : List (K × V)) (hd : (us.map Prod.fst).Nodup)
    (k : K) (v : V) (h : (k, v) ∈ us) : overlay m us k = v := by
  obtain ⟨w, hw, ho⟩ := overlay_of_mem us k (List.mem_map.mpr ⟨_, h, rfl⟩)
  rw [ho]
  exact Prod.mk.inj (List.inj_on_of_nodup_map hd hw h rfl) |>.2

theorem overlay_congr (m m' : K → V) (us : List (K × V)) (k : K)
    (h : k ∉ us.map Prod.fst → m k = m' k) : overlay m us k = overlay m' us k := by
  by_cases hk : k ∈ us.map Prod.fst
  · exact overlay_eq_of_mem m m' us k hk
  · rw [overlay_of_not_mem m us k hk, overlay_of_not_mem m' us k hk, h hk]

theorem overlay_map {W : Type} (f : V → W) (m : K → V) (us : List (K × V)) :
    overlay (f ∘ m) (us.map (fun u => (u.1, f u.2))) = f ∘ overlay m us := by
  induction us generalizing m with
  | nil => rfl
  | cons u us ih =>
    rw [List.map_cons, overlay_cons, overlay_cons, ← ih]
    congr 1
    exact (Function.comp_update f m u.1 u.2).symm

theorem overlay_comap {J : Type} [DecidableEq J] {g : K → J} (hg : Function.Injective g) (m : J → V)
    (us : List (K × V)) (k : K) :
    overlay m (us.map (fun u => (g u.1, u.2))) (g k) = overlay (m ∘ g) us k := by
  induction us generalizing m with
  | nil => rfl
  | cons u us ih =>
    rw [List.map_cons, overlay_cons, overlay_cons, ih]
    congr 1
    exact Function.update_comp_eq_of_injective m hg u.1 u.2

section Tree

open Std

variable {cmp : K → K → Ordering} [TransCmp cmp] [LawfulEqCmp cmp]

theorem getElem?_foldl_insert (t : TreeMap K V cmp) (us : List (K × V)) (k : K) :
    (us.foldl (fun t u => t.insert u.1 u.2) t)[k]? =
      overlay (fun k => t[k]?) (us.map (fun u => (u.1, some u.2))) k := by
  induction us generalizing t with
  | nil => rfl
  | cons u us ih =>
    rw [List.foldl_cons, ih, List.map_cons, overlay_cons]
    congr 1
    funext k'
    rw [TreeMap.getElem?_insert]
    by_cases h : k' = u.1
    · subst h; simp [ReflCmp.compare_self]
    · rw [Function.update_of_ne h, if_neg (fun hc => h (LawfulEqCmp.eq_of_compare hc).symm)]

theorem foldl_insert_some_iff (us : List (K × V)) (k : K) (v : V) :
    (us.foldl (fun t u => t.insert u.1 u.2) (∅ : TreeMap K V cmp))[k]? = some v ↔
      k ∈ us.map Prod.fst ∧ ∀ m : K → V, overlay m us k = v := by
  rw [getElem?_foldl_insert]
  have hkeys : (us.map (fun u => (u.1, some u.2))).map Prod.fst = us.map Prod.fst := by
    simp [Function.comp_def]
  by_cases hk : k ∈ us.map Prod.fst
  · obtain ⟨w, -, hw⟩ := overlay_of_mem us k hk
    have hs : overlay (fun k => (∅ : TreeMap K V cmp)[k]?) (us.map (fun u => (u.1, some u.2))) k =
        some w := by
      rw [overlay_eq_of_mem _ (some ∘ fun _ => w) _ k (by rwa [hkeys]), overlay_map, Function.comp_apply,
        hw]
    rw [hs]
    constructor
    · rintro ⟨⟩
      exact ⟨hk, hw⟩
    · rintro ⟨-, hv⟩
      rw [← hw (fun _ => v), hv]
  · rw [overlay_of_not_mem _ _ _ (by rwa [hkeys])]
    simp [hk]

theorem mem_of_mem_foldl_insert (us : List (K × V)) (u : K × V)
    (h : u ∈ (us.foldl (fun t u => t.insert u.1 u.2) (∅ : TreeMap K V cmp)).toList) : u ∈ us := by
  obtain ⟨k, v⟩ := u
  obtain ⟨hk, hv⟩ := (foldl_insert_some_iff us k v).mp (TreeMap.mem_toList_iff_getElem?_eq_some.mp h)
  obtain ⟨w, hw, ho⟩ := overlay_of_mem us k hk
  rwa [← hv (fun _ => w), ho]

theorem exists_mem_foldl_insert (us : List (K × V)) (u : K × V) (h : u ∈ us) :
    ∃ v, (u.1, v) ∈ (us.foldl (fun t u => t.insert u.1 u.2) (∅ : TreeMap K V cmp)).toList := by
  have hk : u.1 ∈ us.map Prod.fst := List.mem_map_of_mem h
  obtain ⟨w, -, hw⟩ := overlay_of_mem us u.1 hk
  exact ⟨w, TreeMap.mem_toList_iff_getElem?_eq_some.mpr ((foldl_insert_some_iff us u.1 w).mpr ⟨hk, hw⟩)⟩

omit [DecidableEq K] in
theorem nodup_keys_toList (t : TreeMap K V cmp) : (t.toList.map Prod.fst).Nodup := by
  rw [List.nodup_iff_pairwise_ne, List.pairwise_map]
  refine TreeMap.distinct_keys_toList.imp ?_
  intro a b hab he
  exact hab (by rw [he]; exact ReflCmp.compare_self)

theorem mem_keys_foldl_insert (us : List (K × V)) (k : K) :
    k ∈ (us.foldl (fun t u => t.insert u.1 u.2) (∅ : TreeMap K V cmp)).toList.map Prod.fst ↔
      k ∈ us.map Prod.fst := by
  constructor
  · intro h
    obtain ⟨u, hu, rfl⟩ := List.mem_map.mp h
    exact List.mem_map_of_mem (mem_of_mem_foldl_insert us u hu)
  · intro h
    obtain ⟨u, hu, rfl⟩ := List.mem_map.mp h
    obtain ⟨v, hv⟩ := @exists_mem_foldl_insert K V _ cmp _ _ us u hu
    exact List.mem_map.mpr ⟨_, hv, rfl⟩

theorem size_foldl_insert (us : List (K × V)) :
    (us.foldl (fun t u => t.insert u.1 u.2) (∅ : TreeMap K V cmp)).size = (us.map Prod.fst).dedup.length := by
  have hset : ((us.foldl (fun t u => t.insert u.1 u.2) (∅ : TreeMap K V cmp)).toList.map
      Prod.fst).toFinset = (us.map Prod.fst).toFinset := by
    ext k
    rw [List.mem_toFinset, List.mem_toFinset]
    exact mem_keys_foldl_insert us k
  rw [← TreeMap.length_toList, ← List.length_map (f := Prod.fst), ← List.card_toFinset, ← hset,
    List.toFinset_card_of_nodup (nodup_keys_toList _)]

theorem overlay_map_toList {W : Type} (f : V → W) (m : K → W) (us : List (K × V)) :
    overlay m ((us.foldl (fun t u => t.insert u.1 u.2) (∅ : TreeMap K V cmp)).toList.map
      (fun u => (u.1, f u.2))) = overlay m (us.map (fun u => (u.1, f u.2))) := by
  have hkeys : ∀ vs : List (K × V), (vs.map (fun u => (u.1, f u.2))).map Prod.fst = vs.map Prod.fst := by
    intro vs
    simp [Function.comp_def]
  funext k
  by_cases hk : k ∈ us.map Prod.fst
  · obtain ⟨u, hu, rfl⟩ := List.mem_map.mp hk
    obtain ⟨v, hv⟩ := @exists_mem_foldl_insert K V _ cmp _ _ us u hu
    have ho := ((foldl_insert_some_iff us u.1 v).mp (TreeMap.mem_toList_iff_getElem?_eq_some.mp hv)).2
    rw [overlay_of_nodup m _ (by rw [hkeys]; exact nodup_keys_toList _) u.1 (f v)
        (List.mem_map.mpr ⟨_, hv, rfl⟩),
      overlay_eq_of_mem m (f ∘ fun _ => v) _ u.1 (by rwa [hkeys]), overlay_map, Function.comp_apply, ho]
  · have hk' := mt (@mem_keys_foldl_insert K V _ cmp _ _ us k).mp hk
    rw [overlay_of_not_mem _ _ _ (by rwa [hkeys]), overlay_of_not_mem _ _ _ (by rwa [hkeys])]

end Tree

end Lib
