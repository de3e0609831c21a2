import AuroraSizing.Foundation.KeyedRows

/-!
# Maps and columns by name

A map is a list of entries in the order of their first `put`. Entries put under keys of their
own are the map. A record whose columns are looked up by name gives each column its own value,
when no two have the same name.
-/

namespace Foundation.Maps

open Foundation.KeyedRows

variable {κ ν : Type} [DecidableEq κ]

/-- The value of a key that is there is replaced. -/
def put (m : List (κ × ν)) (k : κ) (v : ν) : List (κ × ν) :=
  match m with
  | [] => [(k, v)]
  | e :: m => if e.1 = k then (k, v) :: m else e :: put m k v

theorem put_of_not_mem {m : List (κ × ν)} {k : κ} (v : ν) (h : k ∉ m.map Prod.fst) :
    put m k v = m ++ [(k, v)] := by
  induction m with
  | nil => rfl
  | cons e m ih =>
      rw [List.map_cons, List.mem_cons, not_or] at h
      rw [put, if_neg fun heq => h.1 heq.symm, ih h.2, List.cons_append]

/-- Entries under keys of their own are appended. -/
theorem foldl_put {l m : List (κ × ν)} (h : Unique Prod.fst (m ++ l)) :
    l.foldl (fun m e => put m e.1 e.2) m = m ++ l := by
  induction l generalizing m with
  | nil => exact (List.append_nil m).symm
  | cons e l ih =>
      have hfresh : e.1 ∉ m.map Prod.fst := by
        intro hmem
        rw [KeyedRows.Unique, List.map_append] at h
        exact List.disjoint_of_nodup_append h hmem (List.mem_cons_self ..)
      have hsplit : m ++ e :: l = m ++ [e] ++ l := by
        rw [List.append_assoc, List.singleton_append]
      rw [List.foldl_cons, put_of_not_mem e.2 hfresh, hsplit]
      rw [hsplit] at h
      exact ih h

/-! ## Columns by name -/

/-- The value of the first column with this name. -/
def column (l : List (κ × ν)) (k : κ) : Option ν := (lookup Prod.fst l k).map Prod.snd

theorem column_cons (e : κ × ν) (l : List (κ × ν)) (k : κ) :
    column (e :: l) k = if e.1 = k then some e.2 else column l k := by
  unfold column lookup
  rw [List.find?_cons]
  by_cases hkey : e.1 = k
  · simp [hkey]
  · simp [hkey]

/-- A column whose name is its own is found. -/
theorem column_of_mem {l : List (κ × ν)} {e : κ × ν} (h : Unique Prod.fst l) (he : e ∈ l) :
    column l e.1 = some e.2 := by
  have hlookup : lookup Prod.fst l e.1 = some e := (lookup_eq_some h).mpr ⟨he, rfl⟩
  rw [column, hlookup, Option.map_some]

/-- What comes behind does not change a column that is there. -/
theorem column_append {l : List (κ × ν)} {k : κ} (l' : List (κ × ν)) (h : k ∈ l.map Prod.fst) :
    column (l ++ l') k = column l k := by
  induction l with
  | nil => cases h
  | cons e l ih =>
      rw [List.cons_append, column_cons, column_cons]
      split
      · rfl
      · rename_i hne
        rcases List.mem_cons.mp h with heq | hmem
        · exact absurd heq.symm hne
        · exact ih hmem

theorem column_concat {l : List (κ × ν)} {k : κ} (v : ν) (h : k ∉ l.map Prod.fst) :
    column (l ++ [(k, v)]) k = some v := by
  induction l with
  | nil =>
      rw [List.nil_append, column_cons]
      exact if_pos rfl
  | cons e l ih =>
      rw [List.map_cons, List.mem_cons, not_or] at h
      rw [List.cons_append, column_cons, if_neg fun heq => h.1 heq.symm]
      exact ih h.2

/-- The columns looked up in the order of their names are all the values. -/
theorem mapM_column {l : List (κ × ν)} (h : Unique Prod.fst l) :
    (l.map Prod.fst).mapM (column l) = some (l.map Prod.snd) := by
  have hpart : ∀ l' : List (κ × ν), (∀ e ∈ l', e ∈ l) →
      (l'.map Prod.fst).mapM (column l) = some (l'.map Prod.snd) := by
    intro l' hl'
    induction l' with
    | nil => rfl
    | cons e l' ih =>
        rw [List.map_cons, List.mapM_cons, column_of_mem h (hl' e (List.mem_cons_self ..)),
          ih fun e' he' => hl' e' (List.mem_cons_of_mem _ he')]
        rfl
  exact hpart l fun _ he => he

end Foundation.Maps
