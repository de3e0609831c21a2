import Mathlib.Data.List.Basic
import Mathlib.Data.List.Nodup
import Mathlib.Tactic.Tauto

/-!
# Pages that overlap in one element

A list is read in pages of at most `n`, each of which starts with the last element of the one
before, until a page is short. `Pages` says which pages come out; with `2 ≤ n` they come to an
end and lose nothing.
-/

namespace Foundation.Overlap

variable {α : Type*} {n : ℕ} {L : List α} {ps : List (List α)}

inductive Pages (n : ℕ) : List α → List (List α) → Prop
  | short {L : List α} (h : L.length < n) : Pages n L [L]
  | full {before after : List α} {x : α} {ps : List (List α)} (h : before.length + 1 = n)
      (next : Pages n (x :: after) ps) : Pages n (before ++ x :: after) ((before ++ [x]) :: ps)

/-- The pages one after another, without the element each repeats. -/
def joined : List (List α) → List α
  | [] => []
  | p :: ps => p ++ ps.flatMap List.tail

/-- A full page ends with the element that the next one starts with. -/
theorem split_of_le (hn : 0 < n) (h : n ≤ L.length) :
    ∃ before x after, L = before ++ x :: after ∧ before.length + 1 = n := by
  have hlt : n - 1 < L.length := by omega
  refine ⟨L.take (n - 1), L[n - 1], L.drop n, ?_, ?_⟩
  · have hdrop := List.drop_eq_getElem_cons hlt
    rw [Nat.sub_add_cancel hn] at hdrop
    rw [← hdrop, List.take_append_drop]
  · rw [List.length_take]
    omega

/-- The pages are read in at most one more turn than there are elements. -/
theorem exists_pages (hn : 2 ≤ n) (L : List α) :
    ∃ ps, Pages n L ps ∧ ps.length ≤ L.length + 1 := by
  induction hlength : L.length using Nat.strongRecOn generalizing L with
  | _ k ih =>
      by_cases hshort : L.length < n
      · exact ⟨[L], .short hshort, by simp⟩
      · obtain ⟨before, x, after, rfl, hbefore⟩ := split_of_le (by omega) (Nat.not_lt.mp hshort)
        have htotal : before.length + (after.length + 1) = k := by
          rw [← hlength, List.length_append, List.length_cons]
        obtain ⟨ps, hps, hcount⟩ := ih (after.length + 1) (by omega) (x :: after) rfl
        refine ⟨_, .full hbefore hps, ?_⟩
        rw [List.length_cons]
        omega

theorem Pages.unique {qs : List (List α)} (h : Pages n L ps) (h' : Pages n L qs) : ps = qs := by
  induction h generalizing qs with
  | short hlt =>
      cases h' with
      | short => rfl
      | full hbefore =>
          rw [List.length_append, List.length_cons] at hlt
          omega
  | @full before after x ps hbefore _ ih =>
      generalize hL : before ++ x :: after = L at h'
      cases h' with
      | short hlt =>
          rw [← hL, List.length_append, List.length_cons] at hlt
          omega
      | full hbefore' hnext =>
          obtain ⟨rfl, hrest⟩ := List.append_inj hL (by omega)
          obtain ⟨rfl, rfl⟩ := List.cons.inj hrest
          rw [ih hnext]

theorem Pages.mem_iff (h : Pages n L ps) {a : α} : (∃ p ∈ ps, a ∈ p) ↔ a ∈ L := by
  induction h with
  | short => simp
  | full _ _ ih =>
      simp only [List.mem_cons, exists_eq_or_imp, ih, List.mem_append, List.not_mem_nil, or_false]
      tauto

/-- The first page starts the list. -/
theorem Pages.cons_eq {x : α} {after : List α} (h : Pages n (x :: after) ps) :
    ∃ p rest, ps = (x :: p) :: rest := by
  generalize hL : x :: after = L at h
  cases h with
  | short => exact ⟨after, [], by rw [hL]⟩
  | @full before after' y ps =>
      cases before with
      | nil =>
          obtain ⟨rfl, -⟩ := List.cons.inj hL
          exact ⟨[], ps, rfl⟩
      | cons z before =>
          obtain ⟨rfl, -⟩ := List.cons.inj hL
          exact ⟨before ++ [y], ps, rfl⟩

theorem Pages.joined_eq (h : Pages n L ps) : joined ps = L := by
  induction h with
  | short => simp [joined]
  | @full before after x ps _ hnext ih =>
      obtain ⟨p, rest, rfl⟩ := hnext.cons_eq
      have hrest : p ++ rest.flatMap List.tail = after := (List.cons.inj ih).2
      simp [joined, hrest]

theorem Pages.pairwise {R : α → α → Prop} (hrefl : ∀ a, R a a) (h : Pages n L ps)
    (hL : L.Pairwise R) : ps.flatten.Pairwise R := by
  induction h with
  | short => simpa using hL
  | @full before after x ps _ hnext ih =>
      obtain ⟨hbefore, hafter, hcross⟩ := List.pairwise_append.mp hL
      rw [List.flatten_cons, List.append_assoc, List.pairwise_append]
      refine ⟨hbefore, ?_, ?_⟩
      · rw [List.singleton_append, List.pairwise_cons]
        refine ⟨fun b hb => ?_, ih hafter⟩
        rcases List.mem_cons.mp (hnext.mem_iff.mp (List.mem_flatten.mp hb)) with rfl | hb
        · exact hrefl b
        · exact (List.pairwise_cons.mp hafter).1 b hb
      · intro a ha b hb
        rw [List.singleton_append] at hb
        rcases List.mem_cons.mp hb with rfl | hb
        · exact hcross a ha b (List.mem_cons_self ..)
        · exact hcross a ha b (hnext.mem_iff.mp (List.mem_flatten.mp hb))

/-- Two pages in a row have one element in common. -/
theorem Pages.chain (h : Pages n L ps) (hL : L.Nodup) :
    ps.IsChain fun p q => ∃! a, a ∈ p ∧ a ∈ q := by
  induction h with
  | short => exact .singleton _
  | @full before after x ps _ hnext ih =>
      obtain ⟨-, hafter, hcross⟩ := List.nodup_append.mp hL
      obtain ⟨p, rest, rfl⟩ := hnext.cons_eq
      refine List.isChain_cons_cons.mpr ⟨⟨x, ⟨by simp, by simp⟩, ?_⟩, ih hafter⟩
      rintro a ⟨ha, ha'⟩
      rcases List.mem_append.mp ha with ha | ha
      · exact absurd rfl
          (hcross a ha a (hnext.mem_iff.mp ⟨_, List.mem_cons_self .., ha'⟩))
      · exact List.mem_singleton.mp ha

end Foundation.Overlap
