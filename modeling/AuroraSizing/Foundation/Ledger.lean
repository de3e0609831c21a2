import AuroraSizing.Foundation.Journal
import Mathlib.Data.List.Induction
import Mathlib.Data.List.Nodup
import Mathlib.Logic.Function.Basic

/-!
# Ledgers: which work each commit makes durable

A ledger keeps what a journal makes durable commit by commit. Where the journals of many parties
are mixed into one, each party's part of the ledger is the ledger of its own journal. Parties
that commit no more than one piece of work each are a serial order of those that did.
-/

namespace Foundation.Journal

variable {α ι : Type*}

structure CommitLedger (α : Type*) where
  committed : List (List α)
  opened : List α
deriving DecidableEq

def CommitLedger.enter (l : CommitLedger α) : Entry α → CommitLedger α
  | .write a => { l with opened := l.opened ++ [a] }
  | .commit => ⟨l.committed ++ [l.opened], []⟩
  | .abort => { l with opened := [] }

def ledger (js : List (Entry α)) : CommitLedger α := js.foldl CommitLedger.enter ⟨[], []⟩

theorem ledger_concat (js : List (Entry α)) (j : Entry α) :
    ledger (js ++ [j]) = (ledger js).enter j := List.foldl_concat ..

/-! ## One transaction -/

/-- The journal commits nothing, or writes what is asked, commits it and writes no more. -/
def OneTransaction (asked : List α → Prop) (js : List (Entry α)) : Prop :=
  .commit ∉ js ∨
    ∃ ws rest, asked ws ∧ js = ws.map Entry.write ++ .commit :: rest ∧ ∀ a, .write a ∉ rest

variable {asked : List α → Prop} {js ks : List (Entry α)}

theorem commit_notMem_writes (ws : List α) : Entry.commit ∉ ws.map Entry.write := by
  intro h
  obtain ⟨_, -, heq⟩ := List.mem_map.mp h
  cases heq

/-- A journal cut off is one as well. -/
theorem OneTransaction.of_prefix (h : OneTransaction asked js) (hpre : ks <+: js) :
    OneTransaction asked ks := by
  rcases h with hnone | ⟨ws, rest, hasked, rfl, hrest⟩
  · exact .inl fun hmem => hnone (hpre.subset hmem)
  · rcases List.prefix_or_prefix_of_prefix hpre (List.prefix_append _ _) with hshort | ⟨tail, rfl⟩
    · exact .inl fun hmem => commit_notMem_writes ws (hshort.subset hmem)
    · have htail := (List.prefix_append_right_inj _).mp hpre
      cases tail with
      | nil =>
          refine .inl fun hmem => commit_notMem_writes ws ?_
          rwa [List.append_nil] at hmem
      | cons j tail =>
          obtain ⟨rfl, hcut⟩ := List.cons_prefix_cons.mp htail
          exact .inr ⟨ws, tail, hasked, rfl, fun a hmem => hrest a (hcut.subset hmem)⟩

/-- Without a commit nothing is made durable. -/
theorem committed_of_notMem (h : Entry.commit ∉ js) : (ledger js).committed = [] := by
  induction js using List.reverseRecOn with
  | nil => rfl
  | append_singleton js j ih =>
      rw [List.mem_append, not_or] at h
      rw [ledger_concat]
      cases j with
      | write | abort => exact ih h.1
      | commit => exact absurd (List.mem_singleton_self _) h.2

theorem ledger_writes (ws : List α) : ledger (ws.map Entry.write) = ⟨[], ws⟩ := by
  induction ws using List.reverseRecOn with
  | nil => rfl
  | append_singleton ws w ih =>
      rw [List.map_append, List.map_singleton, ledger_concat, ih]
      rfl

/-- What is behind the commit adds no work. -/
theorem ledger_one {ws : List α} {rest : List (Entry α)} (h : ∀ a, Entry.write a ∉ rest) :
    ∃ k, ledger (ws.map Entry.write ++ .commit :: rest) = ⟨ws :: List.replicate k [], []⟩ := by
  induction rest using List.reverseRecOn with
  | nil =>
      refine ⟨0, ?_⟩
      rw [ledger_concat, ledger_writes]
      rfl
  | append_singleton rest j ih =>
      obtain ⟨k, hk⟩ := ih fun a hmem => h a (List.mem_append_left [j] hmem)
      rw [← List.cons_append, ← List.append_assoc, ledger_concat, hk]
      cases j with
      | write a => exact absurd (List.mem_append_right rest (List.mem_singleton_self _)) (h a)
      | abort => exact ⟨k, rfl⟩
      | commit =>
          refine ⟨k + 1, congrArg (CommitLedger.mk · []) ?_⟩
          rw [List.replicate_succ']
          rfl

/-- A transaction has at most one piece of work made durable, and it is what is asked. -/
theorem OneTransaction.committed (h : OneTransaction asked js) :
    (∀ ws ∈ (ledger js).committed, ws ≠ [] → asked ws) ∧
      ((ledger js).committed.filter fun ws => !ws.isEmpty).length ≤ 1 := by
  rcases h with hnone | ⟨ws, rest, hasked, rfl, hrest⟩
  · rw [committed_of_notMem hnone]
    exact ⟨fun ws hmem => absurd hmem List.not_mem_nil, Nat.zero_le 1⟩
  · obtain ⟨k, hk⟩ := @ledger_one _ ws rest hrest
    rw [hk]
    constructor
    · intro vs hvs hne
      rcases List.mem_cons.mp hvs with rfl | hvs
      · exact hasked
      · exact absurd (List.eq_of_mem_replicate hvs) hne
    · have hempty : (List.replicate k ([] : List α)).filter (fun ws => !ws.isEmpty) = [] := by
        rw [List.filter_eq_nil_iff]
        intro vs hvs
        rw [List.eq_of_mem_replicate hvs]
        exact Bool.false_ne_true
      rw [List.filter_cons, hempty]
      split <;> simp

/-! ## Many parties -/

/-- What each commit of each party made durable, in the order of the commits, and what each has
open. -/
structure Ledgers (ι α : Type*) where
  committed : List (ι × List α)
  opened : ι → List α

variable [DecidableEq ι]

def Ledgers.enter (l : Ledgers ι α) (e : ι × Entry α) : Ledgers ι α :=
  match e.2 with
  | .write a => { l with opened := Function.update l.opened e.1 (l.opened e.1 ++ [a]) }
  | .commit => ⟨l.committed ++ [(e.1, l.opened e.1)], Function.update l.opened e.1 []⟩
  | .abort => { l with opened := Function.update l.opened e.1 [] }

def ledgers (es : List (ι × Entry α)) : Ledgers ι α := es.foldl Ledgers.enter ⟨[], fun _ => []⟩

theorem ledgers_concat (es : List (ι × Entry α)) (e : ι × Entry α) :
    ledgers (es ++ [e]) = (ledgers es).enter e := List.foldl_concat ..

/-- The journal of one party. -/
def journalOf (i : ι) (es : List (ι × Entry α)) : List (Entry α) :=
  (es.filter fun e => e.1 = i).map Prod.snd

theorem journalOf_append (i : ι) (es fs : List (ι × Entry α)) :
    journalOf i (es ++ fs) = journalOf i es ++ journalOf i fs := by
  rw [journalOf, List.filter_append, List.map_append]
  rfl

/-- **A party's part of the ledger is the ledger of its journal.** -/
theorem ledgers_of (i : ι) (es : List (ι × Entry α)) :
    ((ledgers es).committed.filter fun p => p.1 = i).map Prod.snd =
        (ledger (journalOf i es)).committed ∧
      (ledgers es).opened i = (ledger (journalOf i es)).opened := by
  induction es using List.reverseRecOn with
  | nil => exact ⟨rfl, rfl⟩
  | append_singleton es e ih =>
      obtain ⟨j, entry⟩ := e
      rw [ledgers_concat, journalOf_append]
      by_cases hij : j = i
      · subst hij
        have hjournal : journalOf j [(j, entry)] = [entry] := by simp [journalOf]
        rw [hjournal, ledger_concat]
        cases entry with
        | write a => exact ⟨ih.1, by simp [Ledgers.enter, CommitLedger.enter, ih.2]⟩
        | abort => exact ⟨ih.1, by simp [Ledgers.enter, CommitLedger.enter]⟩
        | commit =>
            refine ⟨?_, by simp [Ledgers.enter, CommitLedger.enter]⟩
            simp only [Ledgers.enter, CommitLedger.enter, List.filter_append, List.map_append, ih.1,
              ← ih.2]
            simp
      · have hjournal : journalOf i [(j, entry)] = [] := by simp [journalOf, hij]
        rw [hjournal, List.append_nil]
        have hopened : ∀ x, Function.update (ledgers es).opened j x i = (ledgers es).opened i :=
          fun _ => Function.update_of_ne (Ne.symm hij) _ _
        cases entry with
        | write a => exact ⟨ih.1, (hopened _).trans ih.2⟩
        | abort => exact ⟨ih.1, (hopened _).trans ih.2⟩
        | commit =>
            refine ⟨?_, (hopened _).trans ih.2⟩
            simp only [Ledgers.enter, List.filter_append, List.map_append]
            simpa [hij] using ih.1

/-- The work made durable, in the order of the commits, with whom it is of. -/
def order (es : List (ι × Entry α)) : List (ι × List α) :=
  (ledgers es).committed.filter fun p => !p.2.isEmpty

theorem order_work (es : List (ι × Entry α)) :
    (order es).flatMap Prod.snd = (ledgers es).committed.flatMap Prod.snd := by
  rw [order]
  induction (ledgers es).committed with
  | nil => rfl
  | cons p ps ih =>
      rw [List.filter_cons, List.flatMap_cons, ← ih]
      split
      · rw [List.flatMap_cons]
      · rename_i hempty
        have hnil : p.2 = [] := by simpa using hempty
        rw [hnil, List.nil_append]

/-- What was made durable stays where it is. -/
theorem order_grows (es fs : List (ι × Entry α)) : order es <+: order (es ++ fs) := by
  induction fs using List.reverseRecOn with
  | nil => exact ⟨[], by rw [List.append_nil, List.append_nil]⟩
  | append_singleton fs f ih =>
      refine ih.trans ?_
      rw [← List.append_assoc, order, order, ledgers_concat]
      apply List.IsPrefix.filter
      obtain ⟨i, entry⟩ := f
      cases entry with
      | write | abort => exact List.prefix_rfl
      | commit => exact List.prefix_append _ _

theorem mem_order {i : ι} {ws : List α} {es : List (ι × Entry α)} :
    (i, ws) ∈ order es ↔ ws ∈ (ledger (journalOf i es)).committed ∧ ws ≠ [] := by
  rw [order, List.mem_filter, ← (ledgers_of i es).1, List.mem_map]
  simp [and_comm]

/-- **Parties of one transaction each come in a serial order.** -/
theorem order_nodup {es : List (ι × Entry α)} {asked : ι → List α → Prop}
    (h : ∀ i, OneTransaction (asked i) (journalOf i es)) : ((order es).map Prod.fst).Nodup := by
  rw [List.nodup_iff_count_le_one]
  intro i
  have hone := (h i).committed.2
  rw [← (ledgers_of i es).1, List.filter_map, List.length_map, List.filter_filter] at hone
  rw [order, List.count_eq_countP, List.countP_map, List.countP_eq_length_filter,
    List.filter_filter]
  refine Nat.le_trans (Nat.le_of_eq (congrArg List.length ?_)) hone
  apply List.filter_congr
  intro p _
  rw [Function.comp_apply, Bool.and_comm]
  rfl

end Foundation.Journal
