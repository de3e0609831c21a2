import Mathlib.Data.List.Nodup

/-!
# Rows under a unique key

A list of rows in which no key occurs twice is a finite map. `lookup` reads it,
`rewrite` is a statement that changes or deletes the rows it selects, and the
lemmas say what each of the two forms of write does to the map and when it keeps
the key unique.
-/

namespace Foundation.KeyedRows

variable {ρ κ : Type*} (key : ρ → κ)

def Unique (rows : List ρ) : Prop := (rows.map key).Nodup

instance [DecidableEq κ] (rows : List ρ) : Decidable (Unique key rows) :=
  inferInstanceAs (Decidable (rows.map key).Nodup)

def lookup [DecidableEq κ] (rows : List ρ) (k : κ) : Option ρ := rows.find? fun r => key r = k

variable {key} {rows : List ρ}

theorem Unique.eq (h : Unique key rows) {r s : ρ} (hr : r ∈ rows) (hs : s ∈ rows)
    (hkey : key r = key s) : r = s :=
  List.inj_on_of_nodup_map h hr hs hkey

theorem unique_middle {before after : List ρ} {r : ρ} :
    Unique key (before ++ r :: after) ↔
      (∀ s ∈ before ++ after, key s ≠ key r) ∧ Unique key (before ++ after) := by
  rw [Unique, List.map_append, List.map_cons, List.nodup_middle, List.nodup_cons, Unique,
    List.map_append]
  simp only [List.mem_append, List.mem_map]
  constructor
  · rintro ⟨hnot, hnodup⟩
    refine ⟨fun s hs heq => hnot ?_, hnodup⟩
    exact hs.imp (fun h => ⟨s, h, heq⟩) (fun h => ⟨s, h, heq⟩)
  · rintro ⟨hne, hnodup⟩
    refine ⟨?_, hnodup⟩
    rintro (⟨s, hs, heq⟩ | ⟨s, hs, heq⟩)
    · exact hne s (.inl hs) heq
    · exact hne s (.inr hs) heq

theorem mem_middle {before after : List ρ} {r s : ρ} :
    s ∈ before ++ r :: after ↔ s = r ∨ s ∈ before ++ after := by
  simp only [List.mem_append, List.mem_cons]
  tauto

/-! ## Statements on the selected rows -/

/-- Every selected row becomes what `f` leaves of it. -/
def rewrite (select : ρ → Bool) (f : ρ → Option ρ) (rows : List ρ) : List ρ :=
  rows.filterMap fun r => if select r then f r else some r

theorem rewrite_of_none {select : ρ → Bool} {f : ρ → Option ρ}
    (h : ∀ r ∈ rows, select r = false) : rewrite select f rows = rows := by
  have hid : rewrite select f rows = rows.filterMap some :=
    List.filterMap_congr fun r hr => by simp [h r hr]
  rw [hid, List.filterMap_some]

/-- A statement that selects one row changes it in place. -/
theorem rewrite_of_one {select : ρ → Bool} {f : ρ → Option ρ} {r : ρ} (h : Unique key rows)
    (hr : r ∈ rows) (hselect : select r = true)
    (hone : ∀ s ∈ rows, select s = true → key s = key r) :
    ∃ before after, rows = before ++ r :: after ∧
      rewrite select f rows = before ++ (f r).toList ++ after ∧
      rows.filter select = [r] := by
  obtain ⟨before, after, rfl⟩ := List.append_of_mem hr
  have hnodup : (before ++ r :: after).Nodup := List.Nodup.of_map key h
  have hrest : ∀ s, s ∈ before ∨ s ∈ after → select s = false := by
    intro s hs
    by_contra hsel
    have hmem : s ∈ before ++ r :: after := by
      rcases hs with hs | hs <;> simp [hs]
    obtain rfl : s = r := h.eq hmem hr (hone s hmem (by simpa using hsel))
    have := (List.nodup_middle.mp hnodup)
    rw [List.nodup_cons, List.mem_append] at this
    exact this.1 hs
  refine ⟨before, after, rfl, ?_, ?_⟩
  · have hbefore := rewrite_of_none (f := f) fun s hs => hrest s (.inl hs)
    have hafter := rewrite_of_none (f := f) fun s hs => hrest s (.inr hs)
    rw [rewrite] at hbefore hafter ⊢
    rw [List.filterMap_append, List.filterMap_cons, hbefore, hafter, hselect, if_pos rfl]
    cases f r <;> simp
  · have hbefore : before.filter select = [] :=
      List.filter_eq_nil_iff.mpr fun s hs => by simp [hrest s (.inl hs)]
    have hafter : after.filter select = [] :=
      List.filter_eq_nil_iff.mpr fun s hs => by simp [hrest s (.inr hs)]
    rw [List.filter_append, List.filter_cons_of_pos hselect, hbefore, hafter, List.nil_append]

/-! ## Lookups -/

variable [DecidableEq κ]

theorem lookup_eq_some (h : Unique key rows) {k : κ} {r : ρ} :
    lookup key rows k = some r ↔ r ∈ rows ∧ key r = k := by
  constructor
  · intro hfind
    exact ⟨List.mem_of_find?_eq_some hfind, by simpa using List.find?_some hfind⟩
  · rintro ⟨hr, rfl⟩
    cases hfind : lookup key rows (key r) with
    | none =>
        have hnone := List.find?_eq_none.mp hfind r hr
        simp at hnone
    | some s =>
        have hs := List.mem_of_find?_eq_some hfind
        have hkey : key s = key r := by simpa using List.find?_some hfind
        rw [h.eq hs hr hkey]

theorem lookup_eq_none {k : κ} : lookup key rows k = none ↔ ∀ r ∈ rows, key r ≠ k := by
  simp [lookup]

/-- A unique key selects at most the row it looks up. -/
theorem filter_key_eq (h : Unique key rows) (k : κ) :
    (rows.filter fun r => key r = k) = (lookup key rows k).toList := by
  cases hlookup : lookup key rows k with
  | none =>
      have hnone := lookup_eq_none.mp hlookup
      exact List.filter_eq_nil_iff.mpr fun r hr => by simpa using hnone r hr
  | some r =>
      obtain ⟨hr, rfl⟩ := (lookup_eq_some h).mp hlookup
      have hone : ∀ s ∈ rows, decide (key s = key r) = true → key s = key r :=
        fun s _ hs => by simpa using hs
      obtain ⟨_, _, _, _, hfilter⟩ := rewrite_of_one (f := some) h hr (by simp) hone
      exact hfilter

/-! ## Inserting -/

theorem unique_concat {r : ρ} :
    Unique key (rows ++ [r]) ↔ Unique key rows ∧ lookup key rows (key r) = none := by
  rw [Unique, List.map_append, List.map_singleton, List.nodup_append, lookup_eq_none]
  simp [Unique]

theorem lookup_concat {r : ρ} (h : lookup key rows (key r) = none) (k : κ) :
    lookup key (rows ++ [r]) k = if k = key r then some r else lookup key rows k := by
  by_cases hk : k = key r
  · subst hk
    rw [if_pos rfl, lookup, List.find?_append]
    rw [lookup] at h
    simp [h]
  · have hne : ¬ key r = k := fun heq => hk heq.symm
    rw [if_neg hk, lookup, List.find?_append]
    simp [hne, lookup]

/-! ## Replacing and erasing -/

theorem unique_replace {before after : List ρ} {r r' : ρ}
    (h : Unique key (before ++ r :: after)) :
    Unique key (before ++ r' :: after) ↔
      key r' = key r ∨ lookup key (before ++ r :: after) (key r') = none := by
  obtain ⟨hne, hnodup⟩ := unique_middle.mp h
  rw [unique_middle, lookup_eq_none]
  constructor
  · rintro ⟨hne', -⟩
    by_cases hkey : key r' = key r
    · exact .inl hkey
    · refine .inr fun s hs => ?_
      rcases mem_middle.mp hs with rfl | hs
      · exact fun heq => hkey heq.symm
      · exact hne' s hs
  · rintro (hkey | hfree)
    · exact ⟨fun s hs => hkey ▸ hne s hs, hnodup⟩
    · exact ⟨fun s hs => hfree s (mem_middle.mpr (.inr hs)), hnodup⟩

theorem lookup_replace {before after : List ρ} {r r' : ρ}
    (h : Unique key (before ++ r :: after)) (h' : Unique key (before ++ r' :: after)) (k : κ) :
    lookup key (before ++ r' :: after) k =
      if k = key r' then some r' else if k = key r then none
      else lookup key (before ++ r :: after) k := by
  obtain ⟨hne, hnodup⟩ := unique_middle.mp h
  by_cases hk' : k = key r'
  · rw [if_pos hk', lookup_eq_some h']
    exact ⟨mem_middle.mpr (.inl rfl), hk'.symm⟩
  · rw [if_neg hk']
    by_cases hk : k = key r
    · rw [if_pos hk, lookup_eq_none]
      intro s hs heq
      rcases mem_middle.mp hs with rfl | hs
      · exact hk' heq.symm
      · exact hne s hs (heq.trans hk)
    · rw [if_neg hk]
      ext x
      rw [lookup_eq_some h, lookup_eq_some h', mem_middle, mem_middle]
      constructor
      · rintro ⟨rfl | hx, rfl⟩
        · exact absurd rfl hk'
        · exact ⟨.inr hx, rfl⟩
      · rintro ⟨rfl | hx, rfl⟩
        · exact absurd rfl hk
        · exact ⟨.inr hx, rfl⟩

theorem lookup_erase {before after : List ρ} {r : ρ} (h : Unique key (before ++ r :: after))
    (k : κ) :
    lookup key (before ++ after) k =
      if k = key r then none else lookup key (before ++ r :: after) k := by
  obtain ⟨hne, hnodup⟩ := unique_middle.mp h
  by_cases hk : k = key r
  · rw [if_pos hk, lookup_eq_none]
    intro s hs heq
    exact hne s hs (heq.trans hk)
  · rw [if_neg hk]
    ext x
    rw [lookup_eq_some h, lookup_eq_some hnodup, mem_middle]
    constructor
    · rintro ⟨hx, hkey⟩
      exact ⟨.inr hx, hkey⟩
    · rintro ⟨rfl | hx, rfl⟩
      · exact absurd rfl hk
      · exact ⟨hx, rfl⟩

end Foundation.KeyedRows
