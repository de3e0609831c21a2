import Mathlib.Algebra.Order.BigOperators.Group.List

/-!
# Totals by key

Records that carry a count are added up under each of their keys; no count is lost.
-/

namespace Foundation.Totals

variable {ρ κ M : Type*} [DecidableEq κ] [AddCommMonoid M]

/-- The counts of the records under this key. -/
def totalAt (key : ρ → κ) (count : ρ → M) (records : List ρ) (k : κ) : M :=
  ((records.filter fun r => key r = k).map count).sum

variable {key : ρ → κ} {count : ρ → M} {records : List ρ} {keys : List κ}

theorem totalAt_cons (r : ρ) (records : List ρ) (k : κ) :
    totalAt key count (r :: records) k =
      (if key r = k then count r else 0) + totalAt key count records k := by
  by_cases h : key r = k
  · simp [totalAt, h]
  · simp [totalAt, h]

theorem totalAt_eq_zero {k : κ} (h : ∀ r ∈ records, key r ≠ k) :
    totalAt key count records k = 0 := by
  have hnone : records.filter (fun r => key r = k) = [] := by
    rw [List.filter_eq_nil_iff]
    intro r hr
    simpa using h r hr
  rw [totalAt, hnone]
  rfl

/-- A value given to one of the keys. -/
theorem sum_map_ite (hkeys : keys.Nodup) {a : κ} (ha : a ∈ keys) (m : M) :
    (keys.map fun k => if a = k then m else 0).sum = m := by
  induction keys with
  | nil => cases ha
  | cons k keys ih =>
      obtain ⟨hk, hkeys⟩ := List.nodup_cons.mp hkeys
      rw [List.map_cons, List.sum_cons]
      rcases List.mem_cons.mp ha with rfl | hmem
      · have hzero : (keys.map fun k => if a = k then m else 0).sum = 0 := by
          refine List.sum_eq_zero fun x hx => ?_
          obtain ⟨k', hmem, rfl⟩ := List.mem_map.mp hx
          refine if_neg ?_
          rintro rfl
          exact hk hmem
        rw [if_pos rfl, hzero, add_zero]
      · have hne : a ≠ k := by
          rintro rfl
          exact hk hmem
        rw [if_neg hne, zero_add, ih hkeys hmem]

/-- **The totals under all keys** are the sum of the counts. -/
theorem sum_totalAt (hkeys : keys.Nodup) (hmem : ∀ r ∈ records, key r ∈ keys) :
    (keys.map (totalAt key count records)).sum = (records.map count).sum := by
  induction records with
  | nil =>
      refine List.sum_eq_zero fun x hx => ?_
      obtain ⟨k, -, rfl⟩ := List.mem_map.mp hx
      rfl
  | cons r records ih =>
      have hsplit : keys.map (totalAt key count (r :: records)) =
          keys.map fun k => (if key r = k then count r else 0) + totalAt key count records k :=
        List.map_congr_left fun k _ => totalAt_cons r records k
      rw [hsplit, List.sum_map_add, sum_map_ite hkeys (hmem r (List.mem_cons_self ..)),
        ih fun r' hr' => hmem r' (List.mem_cons_of_mem _ hr'), List.map_cons, List.sum_cons]

/-- A record is part of its total. -/
theorem le_totalAt [PartialOrder M] [IsOrderedAddMonoid M] (h : ∀ r ∈ records, 0 ≤ count r)
    {r : ρ} (hr : r ∈ records) : count r ≤ totalAt key count records (key r) := by
  refine List.single_le_sum (fun x hx => ?_) _ (List.mem_map.mpr ⟨r, ?_, rfl⟩)
  · obtain ⟨r', hr', rfl⟩ := List.mem_map.mp hx
    exact h r' (List.mem_filter.mp hr').1
  · exact List.mem_filter.mpr ⟨hr, decide_eq_true rfl⟩

/-! ## Records made key by key -/

variable {make : κ → Option (List ρ)} {tables : List (List ρ)}

omit [DecidableEq κ] in
theorem key_mem_of_mapM (hmake : ∀ k table, make k = some table → ∀ r ∈ table, key r = k)
    (h : keys.mapM make = some tables) {r : ρ} (hr : r ∈ tables.flatten) :
    key r ∈ keys ∧ ∃ table, make (key r) = some table ∧ r ∈ table := by
  induction keys generalizing tables with
  | nil =>
      cases h
      cases hr
  | cons k keys ih =>
      rw [List.mapM_cons] at h
      obtain ⟨table, htable, h⟩ := Option.bind_eq_some_iff.mp h
      obtain ⟨tables', htables, h⟩ := Option.bind_eq_some_iff.mp h
      cases h
      rw [List.flatten_cons, List.mem_append] at hr
      rcases hr with hr | hr
      · have hkey := hmake k table htable r hr
        refine ⟨hkey ▸ List.mem_cons_self .., table, ?_, hr⟩
        rw [hkey, htable]
      · obtain ⟨hmem, hrest⟩ := ih htables hr
        exact ⟨List.mem_cons_of_mem _ hmem, hrest⟩

/-- **The records of one key** are the ones made for it. -/
theorem make_eq_filter (hmake : ∀ k table, make k = some table → ∀ r ∈ table, key r = k)
    (hkeys : keys.Nodup) (h : keys.mapM make = some tables) {k : κ} (hk : k ∈ keys) :
    make k = some (tables.flatten.filter fun r => key r = k) := by
  induction keys generalizing tables with
  | nil => cases hk
  | cons k' keys ih =>
      obtain ⟨hk', hkeys⟩ := List.nodup_cons.mp hkeys
      rw [List.mapM_cons] at h
      obtain ⟨table, htable, h⟩ := Option.bind_eq_some_iff.mp h
      obtain ⟨tables', htables, h⟩ := Option.bind_eq_some_iff.mp h
      cases h
      rw [List.flatten_cons, List.filter_append]
      rcases List.mem_cons.mp hk with rfl | hmem
      · have hall : table.filter (fun r => key r = k) = table :=
          List.filter_eq_self.mpr fun r hr => decide_eq_true (hmake k table htable r hr)
        have hnone : tables'.flatten.filter (fun r => key r = k) = [] := by
          rw [List.filter_eq_nil_iff]
          intro r hr hkey
          exact hk' (of_decide_eq_true hkey ▸ (key_mem_of_mapM hmake htables hr).1)
        rw [hall, hnone, List.append_nil, htable]
      · have hnone : table.filter (fun r => key r = k) = [] := by
          rw [List.filter_eq_nil_iff]
          intro r hr hkey
          have hk_eq := hmake k' table htable r hr
          exact hk' (hk_eq ▸ of_decide_eq_true hkey ▸ hmem)
        rw [hnone, List.nil_append, ih hkeys htables hmem]

end Foundation.Totals
