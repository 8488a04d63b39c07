import Mathlib.Data.Fintype.EquivFin
import Mathlib.Tactic.DeriveFintype

/-! Pairing the places of two lists by a key. -/
namespace Ds4.Parts

variable {α β κ : Type*} {kx : α → κ} {ky : β → κ} {xs : List α} {ys : List β}

/-- Equal keys pair every place of one list with one place of the other, and paired items are
related. -/
def Paired (kx : α → κ) (ky : β → κ) (R : α → β → Prop) (xs : List α) (ys : List β) : Prop :=
  ∃ f : Fin xs.length ≃ Fin ys.length,
    (∀ i j, kx xs[i] = ky ys[j] ↔ f i = j) ∧ ∀ i, R xs[i] ys[f i]

theorem place_of_key (hnd : (ys.map ky).Nodup) {i j : Fin ys.length}
    (h : ky ys[i] = ky ys[j]) : i = j := by
  apply Fin.ext
  have hi : i.1 < (ys.map ky).length := by simp
  have hj : j.1 < (ys.map ky).length := by simp
  have hkey : (ys.map ky)[i.1] = (ys.map ky)[j.1] := by
    rw [List.getElem_map, List.getElem_map]
    exact h
  exact (List.Nodup.getElem_inj_iff hnd).1 hkey

/-- Two lists are paired exactly when they are as long, every item of the first has a partner
and every key of the second occurs in the first. -/
theorem paired_iff (hnd : (ys.map ky).Nodup) {R : α → β → Prop} : Paired kx ky R xs ys ↔
    xs.length = ys.length ∧ (∀ x ∈ xs, ∃ y ∈ ys, kx x = ky y ∧ R x y) ∧
      ∀ y ∈ ys, ∃ x ∈ xs, kx x = ky y := by
  constructor
  · rintro ⟨f, hkey, hR⟩
    refine ⟨?_, ?_, ?_⟩
    · have h := Fintype.card_congr f
      rwa [Fintype.card_fin, Fintype.card_fin] at h
    · intro x hx
      obtain ⟨i, hi, rfl⟩ := List.getElem_of_mem hx
      have hkey := (hkey ⟨i, hi⟩ (f ⟨i, hi⟩)).2 rfl
      exact ⟨_, List.getElem_mem _, hkey, hR ⟨i, hi⟩⟩
    · intro y hy
      obtain ⟨j, hj, rfl⟩ := List.getElem_of_mem hy
      have hkey := (hkey (f.symm ⟨j, hj⟩) ⟨j, hj⟩).2 (f.apply_symm_apply _)
      exact ⟨_, List.getElem_mem _, hkey⟩
  · rintro ⟨hlen, hx, hy⟩
    have hpartner : ∀ i : Fin xs.length, ∃ j : Fin ys.length,
        kx xs[i] = ky ys[j] ∧ R xs[i] ys[j] := by
      intro i
      obtain ⟨y, hmem, hkey, hR⟩ := hx xs[i] (List.getElem_mem _)
      obtain ⟨j, hj, rfl⟩ := List.getElem_of_mem hmem
      exact ⟨⟨j, hj⟩, hkey, hR⟩
    choose f hkey hR using hpartner
    have hf : ∀ i j, kx xs[i] = ky ys[j] → f i = j := by
      intro i j h
      exact place_of_key hnd ((hkey i).symm.trans h)
    have hsurj : Function.Surjective f := by
      intro j
      obtain ⟨x, hmem, h⟩ := hy ys[j] (List.getElem_mem _)
      obtain ⟨i, hi, rfl⟩ := List.getElem_of_mem hmem
      exact ⟨⟨i, hi⟩, hf ⟨i, hi⟩ j h⟩
    have hbij : Function.Bijective f := by
      rw [Fintype.bijective_iff_surjective_and_card]
      exact ⟨hsurj, by simp [hlen]⟩
    refine ⟨Equiv.ofBijective f hbij, ?_, hR⟩
    intro i j
    constructor
    · exact hf i j
    · rintro rfl
      exact hkey i

end Ds4.Parts
