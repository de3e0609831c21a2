import Mathlib.Data.Finset.Card
import Mathlib.Data.List.Forall2
import Mathlib.Data.List.Nodup

/-!
# Parking

Cars drive to a place each and park at the first free one from there on. They all park, each at
a place of its own, exactly when from no place on there are more cars than free places. A car
that finds no free place may end up anywhere from where it drove to.
-/

namespace Foundation.Parking

variable {α : Type*} [LinearOrder α]

/-- From no place on there are more starts than free places. -/
def Fits (starts : List α) (free : Finset α) : Prop :=
  ∀ v, (starts.filter (v ≤ ·)).length ≤ (free.filter (v ≤ ·)).card

/-- The first free place from `start` on. -/
structure First (free : Finset α) (start place : α) : Prop where
  mem : place ∈ free
  le : start ≤ place
  first : ∀ p ∈ free, start ≤ p → place ≤ p

/-- Each start is given the first free place, as long as there is one. -/
inductive Parks : Finset α → List α → List α → Prop
  | nil (free) : Parks free [] []
  | cons {free start place starts places} (hle : start ≤ place)
      (hfirst : (∃ p ∈ free, start ≤ p) → First free start place)
      (hrest : Parks (free.erase place) starts places) :
      Parks free (start :: starts) (place :: places)

variable {free : Finset α} {start place : α} {starts places : List α}

theorem Fits.exists_free (h : Fits (start :: starts) free) : ∃ p ∈ free, start ≤ p := by
  have hcount := h start
  rw [List.filter_cons_of_pos (by simp), List.length_cons] at hcount
  obtain ⟨p, hp⟩ := Finset.card_pos.mp (show 0 < (free.filter (start ≤ ·)).card by omega)
  obtain ⟨hmem, hle⟩ := Finset.mem_filter.mp hp
  exact ⟨p, hmem, hle⟩

/-- Up to the place there was nothing free, so the start stands for it. -/
theorem Fits.erase (h : Fits (start :: starts) free) (hplace : First free start place) :
    Fits starts (free.erase place) := by
  intro v
  have hv := h v
  rw [Finset.filter_erase]
  by_cases hstart : v ≤ start
  · rw [List.filter_cons_of_pos (by simpa using hstart), List.length_cons] at hv
    have hmem : place ∈ free.filter (v ≤ ·) :=
      Finset.mem_filter.mpr ⟨hplace.mem, le_trans hstart hplace.le⟩
    rw [Finset.card_erase_of_mem hmem]
    omega
  · rw [List.filter_cons_of_neg (by simpa using hstart)] at hv
    by_cases hp : v ≤ place
    · have hsame : free.filter (v ≤ ·) = free.filter (start ≤ ·) := by
        refine Finset.filter_congr fun p hp' => ?_
        constructor
        · intro hle
          exact le_trans (le_of_lt (not_le.mp hstart)) hle
        · intro hle
          exact le_trans hp (hplace.first p hp' hle)
      have hmem : place ∈ free.filter (start ≤ ·) :=
        Finset.mem_filter.mpr ⟨hplace.mem, hplace.le⟩
      have hcount := h start
      have hmono : (starts.filter (v ≤ ·)).length ≤ (starts.filter (start ≤ ·)).length := by
        refine (List.monotone_filter_right starts fun s hs => ?_).length_le
        have hs' : v ≤ s := by simpa using hs
        simpa using le_trans (le_of_lt (not_le.mp hstart)) hs'
      rw [List.filter_cons_of_pos (by simp), List.length_cons] at hcount
      rw [hsame, Finset.card_erase_of_mem hmem]
      omega
    · rw [Finset.erase_eq_of_notMem]
      · exact hv
      · intro hmem
        exact hp (Finset.mem_filter.mp hmem).2

theorem fits_of_places (hle : List.Forall₂ (· ≤ ·) starts places) (hplaces : places.Nodup)
    (hfree : ∀ p ∈ places, p ∈ free) : Fits starts free := by
  intro v
  have hlength : (starts.filter (v ≤ ·)).length ≤ (places.filter (v ≤ ·)).length := by
    clear hplaces hfree
    induction hle with
    | nil => exact Nat.le_refl _
    | @cons start place starts places hle _ ih =>
        by_cases hstart : v ≤ start
        · have hplace : v ≤ place := le_trans hstart hle
          rw [List.filter_cons_of_pos (by simpa using hstart),
            List.filter_cons_of_pos (by simpa using hplace)]
          exact Nat.succ_le_succ ih
        · rw [List.filter_cons_of_neg (by simpa using hstart)]
          refine le_trans ih ?_
          exact ((List.sublist_cons_self place places).filter _).length_le
  refine le_trans hlength ?_
  rw [← List.toFinset_card_of_nodup (hplaces.filter _)]
  refine Finset.card_le_card fun p hp => ?_
  obtain ⟨hmem, hvp⟩ := List.mem_filter.mp (List.mem_toFinset.mp hp)
  exact Finset.mem_filter.mpr ⟨hfree p hmem, by simpa using hvp⟩

namespace Parks

theorem le (h : Parks free starts places) : List.Forall₂ (· ≤ ·) starts places := by
  induction h with
  | nil => exact List.Forall₂.nil
  | cons hle _ _ ih => exact List.Forall₂.cons hle ih

/-- The second group parks at what the first has left. -/
theorem append {starts' places' : List α} (h : Parks free starts places)
    (h' : Parks (free \ places.toFinset) starts' places') :
    Parks free (starts ++ starts') (places ++ places') := by
  induction h with
  | nil free => simpa using h'
  | @cons free start place starts places hle hfirst _ ih =>
      refine Parks.cons hle hfirst (ih ?_)
      have hleft : free.erase place \ places.toFinset = free \ (place :: places).toFinset := by
        ext p
        simp only [Finset.mem_sdiff, Finset.mem_erase, List.mem_toFinset, List.mem_cons, not_or]
        constructor
        · rintro ⟨⟨hne, hmem⟩, hnot⟩
          exact ⟨hmem, hne, hnot⟩
        · rintro ⟨hmem, hne, hnot⟩
          exact ⟨⟨hne, hmem⟩, hnot⟩
      rw [hleft]
      exact h'

theorem places_of_fits (h : Parks free starts places) (hfits : Fits starts free) :
    places.Nodup ∧ ∀ p ∈ places, p ∈ free := by
  induction h with
  | nil => exact ⟨List.nodup_nil, fun p hp => by cases hp⟩
  | @cons free start place starts places _ hfirst _ ih =>
      have hplace := hfirst hfits.exists_free
      obtain ⟨hnodup, hfree⟩ := ih (hfits.erase hplace)
      refine ⟨List.nodup_cons.mpr ⟨?_, hnodup⟩, ?_⟩
      · intro hmem
        exact (Finset.mem_erase.mp (hfree place hmem)).1 rfl
      · intro p hp
        rcases List.mem_cons.mp hp with rfl | hp
        · exact hplace.mem
        · exact Finset.mem_of_mem_erase (hfree p hp)

/-- **All park, each at a free place of its own, exactly when** the starts fit. -/
theorem places_iff (h : Parks free starts places) :
    (places.Nodup ∧ ∀ p ∈ places, p ∈ free) ↔ Fits starts free := by
  constructor
  · rintro ⟨hnodup, hfree⟩
    exact fits_of_places h.le hnodup hfree
  · exact h.places_of_fits

end Parks

end Foundation.Parking
