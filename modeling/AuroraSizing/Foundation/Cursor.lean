import Mathlib.Data.Finset.Card
import Mathlib.Data.List.Basic
import Mathlib.Order.Defs.Unbundled

/-!
# Reading a changing collection by a cursor

A reader asks for the elements from a bound on, in the order of their keys and at most `n` of
them, and goes on from the key of the last one it got until an answer is short. The collection
may be another one at every turn. What stays in it all the time is read, what is read comes in
order, and the turns are no more than the keys there are.
-/

namespace Foundation.Cursor

variable {α κ : Type*}

/-- One turn: the collection as it is then, what is read of it, and whether the reading goes
through to its end. -/
structure Turn (α : Type*) where
  table : List α
  page : List α
  whole : Bool

/-- A turn reads the first elements from `bound` on; a whole one stops short of `n` only where
there are no more. -/
structure Turn.Reads (key : α → κ) (r : κ → κ → Prop) (n : ℕ) (bound : κ) (v : Turn α) :
    Prop where
  length_le : v.page.length ≤ n
  found : ∀ a ∈ v.page, a ∈ v.table ∧ r bound (key a)
  sorted : v.page.Pairwise fun a b => r (key a) (key b) ∧ key a ≠ key b
  upTo : ∀ last ∈ v.page, ∀ a ∈ v.table, r bound (key a) → r (key a) (key last) → a ∈ v.page
  short : v.whole = true → v.page.length < n → ∀ a ∈ v.table, r bound (key a) → a ∈ v.page

/-- The turns of one reader, as far as it went. -/
inductive Walk (key : α → κ) (r : κ → κ → Prop) (n : ℕ) : κ → List (Turn α) → Prop
  | stop (bound : κ) : Walk key r n bound []
  | short {bound : κ} {v : Turn α} (reads : v.Reads key r n bound) (h : v.page.length < n) :
      Walk key r n bound [v]
  | full {bound : κ} {v : Turn α} {last : α} {vs : List (Turn α)} (reads : v.Reads key r n bound)
      (h : v.page.length = n) (hlast : v.page.getLast? = some last)
      (next : Walk key r n (key last) vs) : Walk key r n bound (v :: vs)

/-- The last turn went through and was short. -/
def Finished (n : ℕ) (vs : List (Turn α)) : Prop :=
  ∃ v, vs.getLast? = some v ∧ v.whole = true ∧ v.page.length < n

variable {key : α → κ} {r : κ → κ → Prop} {n : ℕ} {bound : κ} {v : Turn α} {vs : List (Turn α)}

/-! ## One turn -/

section Turns

variable [IsLinearOrder κ r]

/-- Any start of the sorted elements is read; all of them, up to `n`, if the turn is whole. -/
theorem Turn.Reads.of_prefix {L : List α} (hL : ∀ a, a ∈ L ↔ a ∈ v.table ∧ r bound (key a))
    (hsorted : L.Pairwise fun a b => r (key a) (key b) ∧ key a ≠ key b)
    (hpre : v.page <+: L.take n) (hwhole : v.whole = true → v.page = L.take n) :
    v.Reads key r n bound := by
  obtain ⟨rest, hrest⟩ := hpre.trans (List.take_prefix n L)
  rw [← hrest] at hsorted
  obtain ⟨hpage, -, hcross⟩ := List.pairwise_append.mp hsorted
  refine ⟨?_, ?_, hpage, ?_, ?_⟩
  · exact hpre.length_le.trans (List.length_take_le n L)
  · intro a ha
    apply (hL a).mp
    rw [← hrest]
    exact List.mem_append_left rest ha
  · intro last hlast a ha hbound hle
    have hmem : a ∈ v.page ++ rest := by
      rw [hrest]
      exact (hL a).mpr ⟨ha, hbound⟩
    rcases List.mem_append.mp hmem with hin | hin
    · exact hin
    · -- what comes behind the page is above all of it
      obtain ⟨habove, hne⟩ := hcross last hlast a hin
      exact absurd (antisymm_of r habove hle) hne
  · intro h hshort a ha hbound
    have htake : L.take n = L := by
      apply List.take_of_length_le
      rw [hwhole h, List.length_take] at hshort
      omega
    rw [hwhole h, htake]
    exact (hL a).mpr ⟨ha, hbound⟩

/-- The last element is the largest of its page, and the only one with its key. -/
theorem Turn.Reads.le_last (h : v.Reads key r n bound) {last a : α}
    (hlast : v.page.getLast? = some last) (ha : a ∈ v.page) :
    r (key a) (key last) ∧ (key a = key last → a = last) := by
  obtain ⟨before, hpage⟩ := List.getLast?_eq_some_iff.mp hlast
  have hsorted := h.sorted
  rw [hpage] at hsorted ha
  rcases List.mem_append.mp ha with hin | hin
  · obtain ⟨hle, hne⟩ := (List.pairwise_append.mp hsorted).2.2 a hin last List.mem_cons_self
    exact ⟨hle, fun heq => absurd heq hne⟩
  · obtain rfl := List.mem_singleton.mp hin
    exact ⟨refl_of r (key a), fun _ => rfl⟩

/-- An element with a key that nothing of the page is below is the first one. -/
theorem Turn.Reads.head_of_least (h : v.Reads key r n bound) {b : α} (hb : b ∈ v.page)
    (hleast : ∀ c ∈ v.page, r (key b) (key c)) : v.page.head? = some b := by
  have hsorted := h.sorted
  rcases hpage : v.page with _ | ⟨first, rest⟩
  · rw [hpage] at hb
    exact absurd hb List.not_mem_nil
  · rw [hpage] at hsorted hb hleast
    rcases List.mem_cons.mp hb with rfl | hin
    · rfl
    · obtain ⟨hle, hne⟩ := (List.pairwise_cons.mp hsorted).1 b hin
      exact absurd (antisymm_of r hle (hleast first List.mem_cons_self)) hne

/-- The elements up to the last of the first `n`, in order, are the first `n`. -/
theorem eq_take_of_upTo {L upTo : List α} {last : α}
    (hL : L.Pairwise fun a b => r (key a) (key b) ∧ key a ≠ key b)
    (hupTo : upTo.Pairwise fun a b => r (key a) (key b) ∧ key a ≠ key b)
    (hlast : (L.take n).getLast? = some last)
    (hmem : ∀ a, a ∈ upTo ↔ a ∈ L ∧ r (key a) (key last)) : upTo = L.take n := by
  have hstart : ∀ a, a ∈ upTo ↔ a ∈ L.take n := by
    intro a
    obtain ⟨before, hpage⟩ := List.getLast?_eq_some_iff.mp hlast
    have hsplit : L.Pairwise fun a b => r (key a) (key b) ∧ key a ≠ key b := hL
    rw [← List.take_append_drop n L] at hsplit
    obtain ⟨hpre, -, hcross⟩ := List.pairwise_append.mp hsplit
    rw [hmem]
    constructor
    · rintro ⟨ha, hle⟩
      rw [← List.take_append_drop n L] at ha
      rcases List.mem_append.mp ha with hin | hin
      · exact hin
      · obtain ⟨habove, hne⟩ := hcross last (List.mem_of_getLast? hlast) a hin
        exact absurd (antisymm_of r habove hle) hne
    · intro ha
      refine ⟨List.mem_of_mem_take ha, ?_⟩
      rw [hpage] at ha hpre
      rcases List.mem_append.mp ha with hin | hin
      · exact ((List.pairwise_append.mp hpre).2.2 a hin last List.mem_cons_self).1
      · obtain rfl := List.mem_singleton.mp hin
        exact refl_of r (key a)
  have hnodup : ∀ {l : List α}, l.Pairwise (fun a b => r (key a) (key b) ∧ key a ≠ key b) →
      l.Nodup := fun h => h.imp fun hab heq => hab.2 (congrArg key heq)
  have htake := hL.sublist (List.take_sublist n L)
  refine List.Perm.eq_of_pairwise ?_ hupTo htake
    ((List.perm_ext_iff_of_nodup (hnodup hupTo) (hnodup htake)).mpr hstart)
  intro a b _ _ hab hba
  exact absurd (antisymm_of r hab.1 hba.1) hab.2

/-! ## A walk -/

/-- Every page is of its own table, from the start of the walk on. -/
theorem Walk.found (h : Walk key r n bound vs) :
    ∀ v ∈ vs, ∀ a ∈ v.page, a ∈ v.table ∧ r bound (key a) := by
  induction h with
  | stop => exact fun v hv => absurd hv List.not_mem_nil
  | short reads =>
      intro w hw
      obtain rfl := List.mem_singleton.mp hw
      exact reads.found
  | full reads _ hlast _ ih =>
      intro w hw a ha
      rcases List.mem_cons.mp hw with rfl | hw
      · exact reads.found a ha
      · obtain ⟨htable, hle⟩ := ih w hw a ha
        have hbound := (reads.found _ (List.mem_of_getLast? hlast)).2
        exact ⟨htable, trans_of r hbound hle⟩

omit [IsLinearOrder κ r] in
theorem Walk.reads (h : Walk key r n bound vs) : ∀ v ∈ vs, ∃ b, v.Reads key r n b := by
  induction h with
  | stop => exact fun v hv => absurd hv List.not_mem_nil
  | short reads =>
      intro w hw
      obtain rfl := List.mem_singleton.mp hw
      exact ⟨_, reads⟩
  | full reads _ _ _ ih =>
      intro w hw
      rcases List.mem_cons.mp hw with rfl | hw
      · exact ⟨_, reads⟩
      · exact ih w hw

/-- **In order**: what a later turn reads is not below what an earlier one read, and has its key
only where the one page ends and the other starts. -/
theorem Walk.ordered (h : Walk key r n bound vs) :
    vs.Pairwise fun v w => ∀ a ∈ v.page, ∀ b ∈ w.page, r (key a) (key b) ∧
      (key a = key b → v.page.getLast? = some a ∧ w.page.head? = some b) := by
  induction h with
  | stop => exact List.Pairwise.nil
  | short => exact List.pairwise_singleton _ _
  | full reads _ hlast next ih =>
      refine List.Pairwise.cons ?_ ih
      intro w hw a ha b hb
      obtain ⟨hle, hsame⟩ := reads.le_last hlast ha
      have hfound := next.found w hw
      have hab := (hfound b hb).2
      refine ⟨trans_of r hle hab, ?_⟩
      intro heq
      rw [heq] at hle hsame
      have hlastKey := antisymm_of r hle hab
      obtain ⟨_, hreads⟩ := next.reads w hw
      refine ⟨hsame hlastKey ▸ hlast, hreads.head_of_least hb ?_⟩
      intro c hc
      rw [hlastKey]
      exact (hfound c hc).2

/-- **Nothing is missed**: what is in every table of a finished walk, from its start on, is in
one of its pages. -/
theorem Walk.complete (h : Walk key r n bound vs) (hend : Finished n vs) {a : α}
    (ha : ∀ v ∈ vs, a ∈ v.table) (hbound : r bound (key a)) : ∃ v ∈ vs, a ∈ v.page := by
  induction h with
  | stop =>
      obtain ⟨_, hlast, -⟩ := hend
      cases hlast
  | @short bound v reads hshort =>
      obtain ⟨_, hlast, hwhole, -⟩ := hend
      cases hlast
      have hmem : v ∈ [v] := List.mem_singleton_self v
      exact ⟨v, hmem, reads.short hwhole hshort a (ha v hmem) hbound⟩
  | @full bound v last vs reads hfull hlast next ih =>
      have htable : a ∈ v.table := ha v List.mem_cons_self
      rcases total_of r (key a) (key last) with hle | hge
      · -- below the cursor nothing is left out
        refine ⟨v, List.mem_cons_self, ?_⟩
        exact reads.upTo last (List.mem_of_getLast? hlast) a htable hbound hle
      · have hrest : Finished n vs := by
          obtain ⟨w, hw, hwhole, hshort⟩ := hend
          rcases vs with _ | ⟨u, us⟩
          · rw [List.getLast?_singleton, Option.some.injEq] at hw
            subst hw
            exact absurd hfull hshort.ne
          · exact ⟨w, by rwa [List.getLast?_cons_cons] at hw, hwhole, hshort⟩
        obtain ⟨w, hw, hpage⟩ := ih hrest (fun w hw => ha w (List.mem_cons_of_mem v hw)) hge
        exact ⟨w, List.mem_cons_of_mem v hw, hpage⟩

/-- **No more turns than keys**: every full page has `n - 1` keys that do not come again. -/
theorem Walk.turns_le [DecidableEq κ] (h : Walk key r n bound vs) {K : Finset κ}
    (hK : ∀ v ∈ vs, ∀ a ∈ v.page, key a ∈ K) : (vs.length - 1) * (n - 1) ≤ K.card := by
  induction h generalizing K with
  | stop => simp
  | short => simp
  | @full bound v last vs reads hfull hlast next ih =>
      obtain ⟨before, hpage⟩ := List.getLast?_eq_some_iff.mp hlast
      have hsorted := reads.sorted
      rw [hpage] at hsorted
      obtain ⟨hbefore, -, hcross⟩ := List.pairwise_append.mp hsorted
      have hnodup : (before.map key).Nodup := by
        apply List.Pairwise.map _ _ hbefore
        exact fun _ _ h => h.2
      have hsub : (before.map key).toFinset ⊆ K := by
        intro k hk
        obtain ⟨a, ha, rfl⟩ := List.mem_map.mp (List.mem_toFinset.mp hk)
        apply hK v List.mem_cons_self
        rw [hpage]
        exact List.mem_append_left [last] ha
      have hcard : (before.map key).toFinset.card = n - 1 := by
        rw [List.toFinset_card_of_nodup hnodup, List.length_map, ← hfull, hpage,
          List.length_append, List.length_singleton, Nat.add_sub_cancel]
      have hrest := ih (K := K \ (before.map key).toFinset) (by
        intro w hw a ha
        refine Finset.mem_sdiff.mpr ⟨hK w (List.mem_cons_of_mem v hw) a ha, ?_⟩
        -- the keys before the cursor are below it
        intro hk
        obtain ⟨c, hc, heq⟩ := List.mem_map.mp (List.mem_toFinset.mp hk)
        obtain ⟨hle, hne⟩ := hcross c hc last List.mem_cons_self
        rw [heq] at hle hne
        exact hne (antisymm_of r hle (next.found w hw a ha).2))
      rw [Finset.card_sdiff_of_subset hsub, hcard] at hrest
      have hle := Finset.card_le_card hsub
      rw [hcard] at hle
      rw [List.length_cons, Nat.add_sub_cancel]
      rcases vs with _ | ⟨w, ws⟩
      · simp
      · rw [List.length_cons, Nat.add_sub_cancel] at hrest
        rw [List.length_cons, Nat.succ_mul]
        omega

end Turns

end Foundation.Cursor
