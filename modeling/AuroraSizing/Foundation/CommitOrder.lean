import AuroraSizing.Foundation.RowLocks
import Mathlib.Data.List.Induction

/-!
# The order of the commits is a serial order

Sessions share the rows of `RowLocks`. Two live rows may not clash: a session stores
a value only if no row it sees clashes with it, and none that another session has
stored and not committed. Then the sessions that committed can run one after
another, in the order of their commits, and each of their writes finds the value it
replaced: `Follows` is kept by writes, commits and rollbacks, whatever the others
have open.
-/

namespace Foundation.CommitOrder

open Foundation.RowLocks

variable {τ ρ σ : Type*}

/-- A statement as what it does to the rows. -/
inductive Statement (ρ : Type*) where
  | insert (value : ρ)
  | rewrite (sel : ρ → Bool) (f : ρ → Option ρ)

namespace Statement

def run : Statement ρ → List ρ → List ρ
  | insert value, rows => rows ++ [value]
  | rewrite sel f, rows => rows.filterMap fun a => if sel a then f a else some a

/-- How many rows it writes. -/
def affected : Statement ρ → List ρ → ℕ
  | insert _, _ => 1
  | rewrite sel _, rows => (rows.filter sel).length

end Statement

/-- The rows of a table by their places. -/
abbrev Rows (ρ : Type*) := ℕ → Option ρ

/-- A statement with the row it wrote, and what it left there. -/
structure Write (σ ρ : Type*) where
  stmt : σ
  row : ℕ
  new : Option ρ

def Rows.write (t : Rows ρ) (w : Write σ ρ) : Rows ρ := Function.update t w.row w.new

def Rows.after (t : Rows ρ) (ws : List (Write σ ρ)) : Rows ρ := ws.foldl Rows.write t

@[simp] theorem Rows.after_nil (t : Rows ρ) : t.after ([] : List (Write σ ρ)) = t := rfl

@[simp] theorem Rows.after_cons (t : Rows ρ) (w : Write σ ρ) (ws : List (Write σ ρ)) :
    t.after (w :: ws) = (t.write w).after ws := rfl

theorem Rows.after_append (t : Rows ρ) (ws us : List (Write σ ρ)) :
    t.after (ws ++ us) = (t.after ws).after us := List.foldl_append

theorem Rows.write_self (t : Rows ρ) (w : Write σ ρ) : t.write w w.row = w.new :=
  Function.update_self ..

theorem Rows.write_of_ne (t : Rows ρ) (w : Write σ ρ) {r : ℕ} (h : r ≠ w.row) :
    t.write w r = t r := Function.update_of_ne h ..

/-! ## The last write of a row -/

/-- What the last write of the row left. -/
def lastNew (ws : List (Write σ ρ)) (r : ℕ) : Option (Option ρ) :=
  ws.foldl (fun x w => if w.row = r then some w.new else x) none

theorem lastNew_append (ws : List (Write σ ρ)) (w : Write σ ρ) (r : ℕ) :
    lastNew (ws ++ [w]) r = if w.row = r then some w.new else lastNew ws r := by
  rw [lastNew, List.foldl_append]
  rfl

theorem lastNew_eq_some {ws : List (Write σ ρ)} {r : ℕ} {x : Option ρ}
    (h : lastNew ws r = some x) : ∃ w ∈ ws, w.row = r ∧ w.new = x := by
  induction ws using List.reverseRecOn with
  | nil => cases h
  | append_singleton ws w ih =>
      rw [lastNew_append] at h
      split at h
      case isTrue hrow =>
        exact ⟨w, List.mem_append_right _ (List.mem_singleton_self w), hrow, Option.some.inj h⟩
      case isFalse =>
        obtain ⟨w', hw', hnew⟩ := ih h
        exact ⟨w', List.mem_append_left _ hw', hnew⟩

theorem lastNew_eq_none {ws : List (Write σ ρ)} {r : ℕ} :
    lastNew ws r = none ↔ ∀ w ∈ ws, w.row ≠ r := by
  induction ws using List.reverseRecOn with
  | nil => simp [lastNew]
  | append_singleton ws w ih =>
      rw [lastNew_append, List.forall_mem_append, ← ih]
      by_cases hrow : w.row = r
      · simp [hrow]
      · simp [hrow]

/-- A row holds what its last write left, or what it held before. -/
theorem Rows.after_apply (t : Rows ρ) (ws : List (Write σ ρ)) (r : ℕ) :
    t.after ws r = (lastNew ws r).getD (t r) := by
  induction ws using List.reverseRecOn with
  | nil => rfl
  | append_singleton ws w ih =>
      rw [after_append, lastNew_append, after_cons, after_nil]
      by_cases hrow : w.row = r
      · rw [if_pos hrow, ← hrow, write_self]
        rfl
      · rw [if_neg hrow, write_of_ne _ _ fun h => hrow h.symm, ih]

/-! ## Serial execution -/

variable (den : σ → Statement ρ) (clash : ρ → ρ → Prop)

/-- The statement writes this row of the table, and leaves this. -/
def Writes (t : Rows ρ) (w : Write σ ρ) : Prop :=
  match den w.stmt with
  | .insert value => t w.row = none ∧ w.new = some value
  | .rewrite sel f => ∃ v, t w.row = some v ∧ sel v = true ∧ w.new = f v

/-- No two rows clash. -/
def Distinct (t : Rows ρ) : Prop :=
  ∀ r r' v v', r ≠ r' → t r = some v → t r' = some v' → ¬ clash v v'

/-- The writes, one after another, each on the table the ones before it left. -/
def Serial : Rows ρ → List (Write σ ρ) → Prop
  | _, [] => True
  | t, w :: ws => Writes den t w ∧ Distinct clash (t.write w) ∧ Serial (t.write w) ws

variable {den clash}

/-- A table stays distinct under a write of a value that clashes with no other row. -/
theorem Distinct.write (hsymm : ∀ a b, clash a b → clash b a) {t : Rows ρ} {w : Write σ ρ}
    (h : Distinct clash t)
    (hnew : ∀ r a b, r ≠ w.row → t r = some a → w.new = some b → ¬ clash a b) :
    Distinct clash (t.write w) := by
  intro r r' a b hne ha hb
  by_cases hr : r = w.row
  · have hr' : r' ≠ w.row := fun h => hne (hr.trans h.symm)
    rw [hr, Rows.write_self] at ha
    rw [Rows.write_of_ne _ _ hr'] at hb
    exact fun hclash => hnew r' b a hr' hb ha (hsymm a b hclash)
  · rw [Rows.write_of_ne _ _ hr] at ha
    by_cases hr' : r' = w.row
    · rw [hr', Rows.write_self] at hb
      exact hnew r a b hr ha hb
    · rw [Rows.write_of_ne _ _ hr'] at hb
      exact h r r' a b hne ha hb

theorem serial_append {t : Rows ρ} {ws us : List (Write σ ρ)} :
    Serial den clash t (ws ++ us) ↔ Serial den clash t ws ∧ Serial den clash (t.after ws) us := by
  induction ws generalizing t with
  | nil => exact (iff_of_eq (true_and _)).symm
  | cons w ws ih => rw [List.cons_append, Serial, Serial, ih, Rows.after_cons, and_assoc, and_assoc]

theorem Serial.distinct {t : Rows ρ} {ws : List (Write σ ρ)} (h : Serial den clash t ws)
    (hdistinct : Distinct clash t) : Distinct clash (t.after ws) := by
  induction ws generalizing t with
  | nil => exact hdistinct
  | cons w ws ih => exact ih h.2.2 h.2.1

/-- Two values that two sessions have stored do not clash. -/
def Apart (clash : ρ → ρ → Prop) (ws us : List (Write σ ρ)) : Prop :=
  ∀ w ∈ ws, ∀ u ∈ us, ∀ a b, w.new = some a → u.new = some b → ¬ clash a b

/-- **The writes do as well on a table that others have written**: on other rows, and values
that clash with none of theirs. -/
theorem Serial.transfer (hsymm : ∀ a b, clash a b → clash b a) {t t' : Rows ρ}
    {ws : List (Write σ ρ)} (h : Serial den clash t ws) (hdistinct : Distinct clash t')
    (hsame : ∀ r, t' r = t r ∨ (∀ w ∈ ws, w.row ≠ r) ∧
      ∀ a, t' r = some a → ∀ w ∈ ws, ∀ b, w.new = some b → ¬ clash a b) :
    Serial den clash t' ws := by
  induction ws generalizing t t' with
  | nil => trivial
  | cons w ws ih =>
      obtain ⟨hwrites, hdistinct', hrest⟩ := h
      have hrow : t' w.row = t w.row :=
        (hsame w.row).resolve_right fun hother => hother.1 w List.mem_cons_self rfl
      have hafter : Distinct clash (t'.write w) := by
        refine hdistinct.write hsymm ?_
        intro r a b hne ha hb
        rcases hsame r with heq | ⟨-, hapart⟩
        · refine hdistinct' r w.row a b hne ?_ ?_
          · rw [Rows.write_of_ne _ _ hne, ← heq, ha]
          · rw [Rows.write_self, hb]
        · exact hapart a ha w List.mem_cons_self b hb
      refine ⟨?_, hafter, ih hrest hafter ?_⟩
      · unfold Writes at hwrites ⊢
        rwa [hrow]
      · intro r
        by_cases hr : r = w.row
        · exact .inl (by rw [hr, Rows.write_self, Rows.write_self])
        · rw [Rows.write_of_ne _ _ hr, Rows.write_of_ne _ _ hr]
          refine (hsame r).imp_right fun ⟨hrows, hapart⟩ => ⟨?_, ?_⟩
          · exact fun u hu => hrows u (List.mem_cons_of_mem _ hu)
          · exact fun a ha u hu => hapart a ha u (List.mem_cons_of_mem _ hu)

/-! ## Sessions -/

/-- The writes that sessions committed, a list for each commit, and those they have open. -/
structure History (σ ρ : Type*) where
  committed : List (List (Write σ ρ))
  opened : ℕ → List (Write σ ρ)

namespace History

def empty : History σ ρ := ⟨[], fun _ => []⟩

def push (h : History σ ρ) (c : ℕ) (w : Write σ ρ) : History σ ρ :=
  { h with opened := Function.update h.opened c (h.opened c ++ [w]) }

def commit (h : History σ ρ) (c : ℕ) : History σ ρ :=
  ⟨h.committed ++ [h.opened c], Function.update h.opened c []⟩

def rollback (h : History σ ρ) (c : ℕ) : History σ ρ :=
  { h with opened := Function.update h.opened c [] }

@[simp] theorem push_committed (h : History σ ρ) (c : ℕ) (w : Write σ ρ) :
    (h.push c w).committed = h.committed := rfl

@[simp] theorem push_self (h : History σ ρ) (c : ℕ) (w : Write σ ρ) :
    (h.push c w).opened c = h.opened c ++ [w] := Function.update_self ..

theorem push_of_ne (h : History σ ρ) {c c' : ℕ} (w : Write σ ρ) (hne : c' ≠ c) :
    (h.push c w).opened c' = h.opened c' := Function.update_of_ne hne ..

theorem mem_push {h : History σ ρ} {c c' : ℕ} {w u : Write σ ρ} :
    u ∈ (h.push c w).opened c' ↔ u ∈ h.opened c' ∨ c' = c ∧ u = w := by
  by_cases hc : c' = c
  · subst hc
    simp
  · simp [push_of_ne h w hc, hc]

@[simp] theorem commit_self (h : History σ ρ) (c : ℕ) : (h.commit c).opened c = [] :=
  Function.update_self ..

theorem commit_of_ne (h : History σ ρ) {c c' : ℕ} (hne : c' ≠ c) :
    (h.commit c).opened c' = h.opened c' := Function.update_of_ne hne ..

@[simp] theorem flatten_commit (h : History σ ρ) (c : ℕ) :
    (h.commit c).committed.flatten = h.committed.flatten ++ h.opened c := by
  simp [commit]

@[simp] theorem rollback_committed (h : History σ ρ) (c : ℕ) :
    (h.rollback c).committed = h.committed := rfl

@[simp] theorem rollback_self (h : History σ ρ) (c : ℕ) : (h.rollback c).opened c = [] :=
  Function.update_self ..

theorem mem_of_mem_end {h : History σ ρ} {c c' : ℕ} {u : Write σ ρ}
    (hu : u ∈ Function.update h.opened c [] c') : c' ≠ c ∧ u ∈ h.opened c' := by
  by_cases hc : c' = c
  · subst hc
    rw [Function.update_self] at hu
    cases hu
  · rw [Function.update_of_ne hc] at hu
    exact ⟨hc, hu⟩

theorem rollback_of_ne (h : History σ ρ) {c c' : ℕ} (hne : c' ≠ c) :
    (h.rollback c).opened c' = h.opened c' := Function.update_of_ne hne ..

end History

/-- The committed values. -/
def committedRows (s : Store τ ρ) : Rows ρ := fun r => (s.rows r).map Version.value

/-- The values a session sees. -/
def seenRows (s : Store τ ρ) (c : ℕ) : Rows ρ := fun r => (s.visible c r).map Version.value

/-- What a session has left of a row it holds. -/
def held (s : Store τ ρ) (c r : ℕ) : Option (Option ρ) :=
  match s.dirty r with
  | some (owner, v) => if owner = c then some (v.map Version.value) else none
  | none => none

theorem seenRows_apply (s : Store τ ρ) (c r : ℕ) :
    seenRows s c r = (held s c r).getD (committedRows s r) := by
  unfold seenRows held Store.visible
  cases s.dirty r with
  | none => rfl
  | some entry =>
      rcases entry with ⟨owner, v⟩
      by_cases howner : owner = c
      · simp only [howner, if_true, Option.getD_some]
      · simp only [howner, if_false, Option.getD_none]
        rfl

theorem held_eq_some {s : Store τ ρ} {c r : ℕ} {x : Option ρ} :
    held s c r = some x ↔ ∃ v, s.dirty r = some (c, v) ∧ v.map Version.value = x := by
  unfold held
  cases hdirty : s.dirty r with
  | none => simp
  | some entry =>
      rcases entry with ⟨owner, v⟩
      by_cases howner : owner = c
      · simp [howner]
      · simp [howner]

/-- A row has one holder. -/
theorem held_of_held {s : Store τ ρ} {c c' r : ℕ} {x : Option ρ} (h : held s c r = some x)
    (hne : c' ≠ c) : held s c' r = none := by
  obtain ⟨v, hdirty, -⟩ := held_eq_some.mp h
  rw [Option.eq_none_iff_forall_ne_some]
  intro y hy
  obtain ⟨v', hdirty', -⟩ := held_eq_some.mp hy
  rw [hdirty] at hdirty'
  cases hdirty'
  exact hne rfl

/-- A row that is free to a session is held by no other. -/
theorem held_of_free {s : Store τ ρ} {c c' r : ℕ} (hfree : s.blocked c r = false) (hne : c' ≠ c) :
    held s c' r = none := by
  rw [Option.eq_none_iff_forall_ne_some]
  intro y hy
  obtain ⟨v, hdirty, -⟩ := held_eq_some.mp hy
  rw [Store.blocked, hdirty] at hfree
  exact hne (by simpa using hfree)

/-- What a session must see to that stores a value: no row it sees clashes with it, and none
that another session has stored and not committed. -/
structure Admits (clash : ρ → ρ → Prop) (s : Store τ ρ) (c row : ℕ) (a : ρ) : Prop where
  seen : ∀ r v, r ≠ row → s.visible c r = some v → ¬ clash v.value a
  stored : ∀ c' v, c' ≠ c → v ∈ (s.pending c').created → ¬ clash v.value a

/-- The store is what the history says: the committed rows are those of the commits run one
after another, and each session sees them with its own writes on top. -/
structure Follows (den : σ → Statement ρ) (clash : ρ → ρ → Prop) (t₀ : Rows ρ) (s : Store τ ρ)
    (h : History σ ρ) : Prop where
  rows : committedRows s = t₀.after h.committed.flatten
  held : ∀ c r, held s c r = lastNew (h.opened c) r
  serial : Serial den clash t₀ h.committed.flatten
  opened : ∀ c, Serial den clash (t₀.after h.committed.flatten) (h.opened c)
  apart : ∀ c c', c ≠ c' → Apart clash (h.opened c) (h.opened c')
  stored : ∀ c, ∀ w ∈ h.opened c, ∀ a, w.new = some a → ∃ v ∈ (s.pending c).created, v.value = a
  beyond : ∀ r, s.size ≤ r → s.rows r = none ∧ s.dirty r = none
  bounded : ∀ w ∈ h.committed.flatten, w.row < s.size
  opened_bounded : ∀ c, ∀ w ∈ h.opened c, w.row < s.size

section Operations

variable {t₀ : Rows ρ} {s : Store τ ρ} {h : History σ ρ}

theorem Follows.seen (hf : Follows den clash t₀ s h) (c : ℕ) :
    seenRows s c = (t₀.after h.committed.flatten).after (h.opened c) := by
  funext r
  rw [seenRows_apply, Rows.after_apply _ (h.opened c), hf.held, hf.rows]

theorem Follows.seen_distinct (hf : Follows den clash t₀ s h) (h₀ : Distinct clash t₀) (c : ℕ) :
    Distinct clash (seenRows s c) := by
  rw [hf.seen]
  exact (hf.opened c).distinct (hf.serial.distinct h₀)

theorem held_write {c row : ℕ} (old : Option (τ × Version ρ)) (new : Option ρ) (n c' r : ℕ) :
    held { s.write c row old new with size := n } c' r =
      if row = r then if c = c' then some new else none else held s c' r := by
  unfold held
  by_cases hr : row = r
  · subst hr
    show (match (s.write c row old new).dirty row with
      | some (owner, v) => if owner = c' then some (v.map Version.value) else none
      | none => none) = _
    rw [Store.dirty_write_self, if_pos rfl]
    cases new with
    | none => rfl
    | some a => rfl
  · show (match (s.write c row old new).dirty r with
      | some (owner, v) => if owner = c' then some (v.map Version.value) else none
      | none => none) = _
    rw [Store.dirty_write_of_ne fun h => hr h.symm, if_neg hr]

/-- A session writes a row that is free to it. -/
theorem Follows.write (hf : Follows den clash t₀ s h) (hsymm : ∀ a b, clash a b → clash b a)
    (h₀ : Distinct clash t₀) {c n : ℕ} {w : Write σ ρ} (old : Option (τ × Version ρ))
    (hsize : s.size ≤ n) (hrow : w.row < n) (hfree : s.blocked c w.row = false)
    (hwrites : Writes den (seenRows s c) w)
    (hadmits : ∀ a, w.new = some a → Admits clash s c w.row a) :
    Follows den clash t₀ { s.write c w.row old w.new with size := n } (h.push c w) where
  rows := hf.rows
  held := by
    intro c' r
    rw [held_write]
    by_cases hc : c' = c
    · subst hc
      rw [History.push_self, lastNew_append, if_pos rfl, hf.held]
    · have hother : ¬ c = c' := fun heq => hc heq.symm
      rw [History.push_of_ne h w hc, ← hf.held]
      by_cases hr : w.row = r
      · rw [if_pos hr, if_neg hother, ← hr, held_of_free hfree hc]
      · rw [if_neg hr]
  serial := hf.serial
  opened := by
    intro c'
    rw [History.push_committed]
    by_cases hc : c' = c
    · subst hc
      rw [History.push_self, serial_append, ← hf.seen]
      refine ⟨hf.opened c', hwrites, ?_, trivial⟩
      refine (hf.seen_distinct h₀ c').write hsymm ?_
      intro r a b hne ha hb
      obtain ⟨v, hv, rfl⟩ := Option.map_eq_some_iff.mp ha
      exact (hadmits b hb).seen r v hne hv
    · rw [History.push_of_ne h w hc]
      exact hf.opened c'
  apart := by
    have hnew : ∀ c', c' ≠ c → ∀ u ∈ h.opened c', ∀ a b, u.new = some a → w.new = some b →
        ¬ clash a b := by
      intro c' hc u hu a b ha hb
      obtain ⟨v, hv, rfl⟩ := hf.stored c' u hu a ha
      exact (hadmits b hb).stored c' v hc hv
    intro c₁ c₂ hne u hu u' hu' a b ha hb
    rcases History.mem_push.mp hu with hin | ⟨rfl, rfl⟩
    · rcases History.mem_push.mp hu' with hin' | ⟨rfl, rfl⟩
      · exact hf.apart c₁ c₂ hne u hin u' hin' a b ha hb
      · exact hnew c₁ hne u hin a b ha hb
    · rcases History.mem_push.mp hu' with hin' | ⟨rfl, rfl⟩
      · exact fun hclash => hnew c₂ hne.symm u' hin' b a hb ha (hsymm a b hclash)
      · exact absurd rfl hne
  stored := by
    intro c' u hu a ha
    rcases History.mem_push.mp hu with hin | ⟨rfl, rfl⟩
    · obtain ⟨v, hv, heq⟩ := hf.stored c' u hin a ha
      exact ⟨v, (Store.mem_created_write c' v).mpr (.inl hv), heq⟩
    · exact ⟨_, (Store.mem_created_write c' _).mpr (.inr ⟨rfl, a, ha, rfl⟩), rfl⟩
  beyond := by
    intro r hr
    obtain ⟨hrows, hdirty⟩ := hf.beyond r (Nat.le_trans hsize hr)
    have hne : r ≠ w.row := fun h => absurd hrow (Nat.not_lt.mpr (h ▸ hr))
    refine ⟨hrows, ?_⟩
    show (s.write c w.row old w.new).dirty r = none
    rw [Store.dirty_write_of_ne hne, hdirty]
  bounded := fun u hu => Nat.lt_of_lt_of_le (hf.bounded u hu) hsize
  opened_bounded := by
    intro c' u hu
    rcases History.mem_push.mp hu with hin | ⟨rfl, rfl⟩
    · exact Nat.lt_of_lt_of_le (hf.opened_bounded c' u hin) hsize
    · exact hrow

theorem held_release {c : ℕ} {s' : Store τ ρ} (hdirty : s'.dirty = s.release c) (c' r : ℕ) :
    held s' c' r = if c' = c then none else held s c' r := by
  apply Option.ext
  intro x
  rw [held_eq_some, hdirty]
  by_cases hc : c' = c
  · rw [if_pos hc]
    constructor
    · rintro ⟨v, hv, -⟩
      exact absurd hc (Store.release_eq_some.mp hv).2
    · exact fun h => nomatch h
  · rw [if_neg hc, held_eq_some]
    constructor
    · rintro ⟨v, hv, hx⟩
      exact ⟨v, (Store.release_eq_some.mp hv).1, hx⟩
    · rintro ⟨v, hv, hx⟩
      exact ⟨v, Store.release_eq_some.mpr ⟨hv, hc⟩, hx⟩

/-- **A commit comes after the commits before it**, and the others go on as if it had come
before anything they did. -/
theorem Follows.commit (hf : Follows den clash t₀ s h) (hsymm : ∀ a b, clash a b → clash b a)
    (h₀ : Distinct clash t₀) (c : ℕ) : Follows den clash t₀ (s.commit c) (h.commit c) where
  rows := by
    show seenRows s c = _
    rw [hf.seen, History.flatten_commit, Rows.after_append]
  held := by
    intro c' r
    rw [held_release rfl]
    by_cases hc : c' = c
    · subst hc
      rw [if_pos rfl, History.commit_self]
      rfl
    · rw [if_neg hc, History.commit_of_ne h hc, hf.held]
  serial := by
    rw [History.flatten_commit, serial_append]
    exact ⟨hf.serial, hf.opened c⟩
  opened := by
    intro c'
    by_cases hc : c' = c
    · subst hc
      rw [History.commit_self]
      trivial
    · rw [History.commit_of_ne h hc, History.flatten_commit, Rows.after_append]
      refine (hf.opened c').transfer hsymm ?_ ?_
      · rw [← hf.seen]
        exact hf.seen_distinct h₀ c
      · intro r
        rw [Rows.after_apply _ (h.opened c)]
        cases hlast : lastNew (h.opened c) r with
        | none => exact .inl rfl
        | some x =>
            -- the row is held by the session that commits
            obtain ⟨w, hw, hrow, hnew⟩ := lastNew_eq_some hlast
            refine .inr ⟨lastNew_eq_none.mp ?_, ?_⟩
            · have hheld := hf.held c r
              rw [hlast] at hheld
              rw [← hf.held]
              exact held_of_held hheld hc
            · rintro a ha u hu b hb
              exact hf.apart c c' (fun h => hc h.symm) w hw u hu a b (hnew.trans ha) hb
  apart := fun c₁ c₂ hne u hu u' hu' =>
    hf.apart c₁ c₂ hne u (History.mem_of_mem_end hu).2 u' (History.mem_of_mem_end hu').2
  stored := by
    intro c' u hu a ha
    obtain ⟨hc, hin⟩ := History.mem_of_mem_end hu
    obtain ⟨v, hv, heq⟩ := hf.stored c' u hin a ha
    exact ⟨v, (Store.mem_pending_end rfl).mpr ⟨hc, hv⟩, heq⟩
  beyond := by
    intro r hr
    obtain ⟨hrows, hdirty⟩ := hf.beyond r hr
    refine ⟨?_, Store.release_eq_none hdirty⟩
    show s.visible c r = none
    rw [Store.visible, hdirty]
    exact hrows
  bounded := by
    intro u hu
    rw [History.flatten_commit] at hu
    rcases List.mem_append.mp hu with hu | hu
    · exact hf.bounded u hu
    · exact hf.opened_bounded c u hu
  opened_bounded := fun c' u hu => hf.opened_bounded c' u (History.mem_of_mem_end hu).2

theorem Follows.rollback (hf : Follows den clash t₀ s h) (c : ℕ) :
    Follows den clash t₀ (s.rollback c) (h.rollback c) where
  rows := hf.rows
  held := by
    intro c' r
    rw [held_release rfl]
    by_cases hc : c' = c
    · subst hc
      rw [if_pos rfl, History.rollback_self]
      rfl
    · rw [if_neg hc, History.rollback_of_ne h hc, hf.held]
  serial := hf.serial
  opened := by
    intro c'
    by_cases hc : c' = c
    · subst hc
      rw [History.rollback_self]
      trivial
    · rw [History.rollback_of_ne h hc]
      exact hf.opened c'
  apart := fun c₁ c₂ hne u hu u' hu' =>
    hf.apart c₁ c₂ hne u (History.mem_of_mem_end hu).2 u' (History.mem_of_mem_end hu').2
  stored := by
    intro c' u hu a ha
    obtain ⟨hc, hin⟩ := History.mem_of_mem_end hu
    obtain ⟨v, hv, heq⟩ := hf.stored c' u hin a ha
    exact ⟨v, (Store.mem_pending_end rfl).mpr ⟨hc, hv⟩, heq⟩
  beyond := fun r hr => ⟨(hf.beyond r hr).1, Store.release_eq_none (hf.beyond r hr).2⟩
  bounded := hf.bounded
  opened_bounded := fun c' u hu => hf.opened_bounded c' u (History.mem_of_mem_end hu).2

theorem Follows.insert (hf : Follows den clash t₀ s h) (hsymm : ∀ a b, clash a b → clash b a)
    (h₀ : Distinct clash t₀) {c : ℕ} {stmt : σ} {value : ρ} (hden : den stmt = .insert value)
    (hadmits : Admits clash s c s.size value) :
    Follows den clash t₀ (s.insert c value) (h.push c ⟨stmt, s.size, some value⟩) := by
  obtain ⟨hrows, hdirty⟩ := hf.beyond s.size (Nat.le_refl _)
  refine hf.write hsymm h₀ (w := ⟨stmt, s.size, some value⟩) none (Nat.le_succ _)
    (Nat.lt_succ_self _) ?_ ?_ ?_
  · rw [Store.blocked, hdirty]
  · unfold Writes
    rw [hden]
    refine ⟨?_, rfl⟩
    show (s.visible c s.size).map Version.value = none
    rw [Store.visible, hdirty, Option.map_eq_none_iff]
    exact hrows
  · rintro a ⟨⟩
    exact hadmits

theorem Follows.rewriteRow (hf : Follows den clash t₀ s h)
    (hsymm : ∀ a b, clash a b → clash b a) (h₀ : Distinct clash t₀) {c row : ℕ} {tag : τ}
    {stmt : σ} {sel : ρ → Bool} {f : ρ → Option ρ} {v : Version ρ}
    (hden : den stmt = .rewrite sel f) (hfree : s.blocked c row = false)
    (hv : s.visible c row = some v) (hsel : sel v.value = true)
    (hadmits : ∀ a, f v.value = some a → Admits clash s c row a) :
    Follows den clash t₀ (s.write c row (some (tag, v)) (f v.value))
      (h.push c ⟨stmt, row, f v.value⟩) := by
  have hrow : row < s.size := by
    by_contra hle
    obtain ⟨hrows, hdirty⟩ := hf.beyond row (Nat.not_lt.mp hle)
    rw [Store.visible, hdirty] at hv
    cases hrows.symm.trans hv
  refine hf.write hsymm h₀ (w := ⟨stmt, row, f v.value⟩) (some (tag, v)) (Nat.le_refl _) hrow hfree
    ?_ hadmits
  unfold Writes
  rw [hden]
  exact ⟨v.value, by rw [seenRows, hv]; rfl, hsel, rfl⟩

/-- The rows of a store that nobody has begun to change. -/
theorem Follows.start (hclean : ∀ r, s.dirty r = none)
    (hbeyond : ∀ r, s.size ≤ r → s.rows r = none) :
    Follows den clash (committedRows s) s .empty where
  rows := rfl
  held := by
    intro c r
    rw [CommitOrder.held, hclean]
    rfl
  serial := trivial
  opened := fun _ => trivial
  apart := fun _ _ _ _ hw => nomatch hw
  stored := fun _ _ hw => nomatch hw
  beyond := fun r hr => ⟨hbeyond r hr, hclean r⟩
  bounded := fun _ hw => nomatch hw
  opened_bounded := fun _ _ hw => nomatch hw

end Operations

/-! ## Statements on the rows they found -/

section Rewrite

variable {s : Store τ ρ} {c : ℕ} {tag : τ} {sel : ρ → Bool} {f : ρ → Option ρ}

theorem visible_write_of_ne {c' row r : ℕ} {old : Option (τ × Version ρ)} {new : Option ρ}
    (hne : r ≠ row) : (s.write c' row old new).visible c r = s.visible c r := by
  unfold Store.visible
  rw [Store.dirty_write_of_ne hne]
  rfl

theorem rewrite_of_none {found : List ℕ}
    (h : ∀ r ∈ found, ∀ v, s.visible c r = some v → sel v.value = false) :
    s.rewrite c tag sel f found = s := by
  induction found with
  | nil => rfl
  | cons r found ih =>
      have hrow : s.rewriteRow c tag sel f r = s := by
        unfold Store.rewriteRow
        cases hv : s.visible c r with
        | none => rfl
        | some v => exact if_neg (by simp [h r List.mem_cons_self v hv])
      show (s.rewriteRow c tag sel f r).rewrite c tag sel f found = s
      rw [hrow]
      exact ih fun r hr => h r (List.mem_cons_of_mem _ hr)

theorem mem_matching {found : List ℕ} {r : ℕ} : r ∈ s.matching c sel found ↔
    r ∈ found ∧ ∃ v, s.visible c r = some v ∧ sel v.value = true := by
  rw [Store.matching, List.mem_filter, Option.any_eq_true]

/-- A statement whose condition fits one row at most writes that row or none. -/
theorem rewrite_cases {found : List ℕ} (hnodup : found.Nodup)
    (hone : ∀ r r', r ∈ s.matching c sel found → r' ∈ s.matching c sel found → r = r') :
    (s.matching c sel found = [] ∧ s.rewrite c tag sel f found = s) ∨
    ∃ r v, r ∈ found ∧ s.visible c r = some v ∧ sel v.value = true ∧
      s.matching c sel found = [r] ∧
      s.rewrite c tag sel f found = s.write c r (some (tag, v)) (f v.value) := by
  rcases List.eq_nil_or_concat' (s.matching c sel found) with hnil | ⟨rest, r, hmatching⟩
  · refine .inl ⟨hnil, rewrite_of_none ?_⟩
    intro r hr v hv
    rw [← Bool.not_eq_true]
    intro hsel
    have hmem : r ∈ s.matching c sel found := mem_matching.mpr ⟨hr, v, hv, hsel⟩
    rw [hnil] at hmem
    cases hmem
  · have hr : r ∈ s.matching c sel found := by
      rw [hmatching]
      exact List.mem_append_right _ (List.mem_singleton_self r)
    obtain ⟨hfound, v, hv, hsel⟩ := mem_matching.mp hr
    have hother : ∀ r' ∈ found, r' ≠ r → ∀ v', s.visible c r' = some v' → sel v'.value = false := by
      intro r' hr' hne v' hv'
      rw [← Bool.not_eq_true]
      exact fun hsel' => hne (hone r' r (mem_matching.mpr ⟨hr', v', hv', hsel'⟩) hr)
    have hsingle : s.matching c sel found = [r] := by
      have hnodup' : (s.matching c sel found).Nodup := hnodup.filter _
      refine (List.perm_ext_iff_of_nodup hnodup' (List.nodup_singleton r)).mpr ?_ |>.eq_singleton
      intro r'
      rw [List.mem_singleton]
      exact ⟨fun hr' => hone r' r hr' hr, fun h => h ▸ hr⟩
    refine .inr ⟨r, v, hfound, hv, hsel, hsingle, ?_⟩
    obtain ⟨before, after, rfl⟩ := List.append_of_mem hfound
    rw [List.nodup_middle, List.nodup_cons] at hnodup
    have hne : ∀ r', r' ∈ before ∨ r' ∈ after → r' ≠ r := by
      rintro r' hr' rfl
      exact hnodup.1 (List.mem_append.mpr hr')
    have hbefore : s.rewrite c tag sel f before = s :=
      rewrite_of_none fun r' hr' => hother r' (List.mem_append_left _ hr') (hne r' (.inl hr'))
    have hrow : s.rewriteRow c tag sel f r = s.write c r (some (tag, v)) (f v.value) := by
      simp only [Store.rewriteRow, hv, hsel, if_true]
    rw [Store.rewrite, List.foldl_append, List.foldl_cons]
    show ((s.rewrite c tag sel f before).rewriteRow c tag sel f r).rewrite c tag sel f after = _
    rw [hbefore, hrow]
    refine rewrite_of_none ?_
    intro r' hr' v' hv'
    rw [visible_write_of_ne (hne r' (.inr hr'))] at hv'
    apply hother r' ?_ (hne r' (.inr hr')) v' hv'
    exact List.mem_append_right _ (List.mem_cons_of_mem _ hr')

end Rewrite

/-! ## Tables as lists -/

theorem Statement.run_perm (st : Statement ρ) {rows rows' : List ρ} (h : rows.Perm rows') :
    (st.run rows).Perm (st.run rows') ∧ st.affected rows = st.affected rows' := by
  cases st with
  | insert value => exact ⟨h.append_right _, rfl⟩
  | rewrite sel f => exact ⟨h.filterMap _, (h.filter sel).length_eq⟩

/-- The rows below a place, in order. -/
def Rows.list (t : Rows ρ) (n : ℕ) : List ρ := (List.range n).filterMap t

theorem Rows.mem_list {t : Rows ρ} {n : ℕ} {a : ρ} : a ∈ t.list n ↔ ∃ r, r < n ∧ t r = some a := by
  simp [Rows.list]

theorem Rows.list_perm_cons {t : Rows ρ} {n row : ℕ} {a : ρ} (hrow : row < n)
    (h : t row = some a) : (t.list n).Perm (a :: Rows.list (Function.update t row none) n) := by
  obtain ⟨before, after, hsplit⟩ := List.append_of_mem (List.mem_range.mpr hrow)
  have hnodup : (before ++ row :: after).Nodup := hsplit ▸ List.nodup_range
  rw [List.nodup_middle, List.nodup_cons, List.mem_append] at hnodup
  have hsame : ∀ rows : List ℕ, (∀ r ∈ rows, r ∈ before ∨ r ∈ after) →
      rows.filterMap (Function.update t row none) = rows.filterMap t := by
    intro rows hrows
    refine List.filterMap_congr fun r hr => Function.update_of_ne ?_ ..
    rintro rfl
    exact hnodup.1 (hrows r hr)
  rw [Rows.list, Rows.list, hsplit, List.filterMap_append, List.filterMap_append,
    List.filterMap_cons_some h, List.filterMap_cons_none (Function.update_self ..),
    hsame before fun r hr => .inl hr, hsame after fun r hr => .inr hr]
  exact List.perm_middle

theorem Rows.list_of_le {t : Rows ρ} {m n : ℕ} (hmn : m ≤ n) (h : ∀ r, m ≤ r → t r = none) :
    t.list n = t.list m := by
  obtain ⟨k, rfl⟩ := Nat.exists_eq_add_of_le hmn
  rw [Rows.list, List.range_add, List.filterMap_append]
  have hnone : ((List.range k).map (m + ·)).filterMap t = [] := by
    rw [List.filterMap_eq_nil_iff]
    intro r hr
    obtain ⟨j, -, rfl⟩ := List.mem_map.mp hr
    exact h _ (Nat.le_add_right m j)
  rw [hnone, List.append_nil]
  rfl

/-- Distinct rows are distinct as a list. -/
theorem Distinct.nodup_map {κ : Type*} {key : ρ → κ} {t : Rows ρ} (h : Distinct clash t)
    (hkey : ∀ a b, key a = key b → clash a b) (n : ℕ) : ((t.list n).map key).Nodup := by
  rw [Rows.list, List.map_filterMap]
  refine List.Nodup.filterMap ?_ List.nodup_range
  intro r r' k hr hr'
  by_contra hne
  obtain ⟨a, ha, rfl⟩ := Option.map_eq_some_iff.mp hr
  obtain ⟨b, hb, heq⟩ := Option.map_eq_some_iff.mp hr'
  exact h r r' a b hne ha hb (hkey a b heq.symm)

/-- The statement of a write, run on the whole table, writes that row and no other. -/
theorem Writes.run_perm {t : Rows ρ} {w : Write σ ρ} {n : ℕ} (hw : Writes den t w)
    (hdistinct : Distinct clash t)
    (hsel : ∀ sel f, den w.stmt = .rewrite sel f → ∀ a b, sel a = true → sel b = true → clash a b)
    (hrow : w.row < n) :
    ((den w.stmt).run (t.list n)).Perm ((t.write w).list n) ∧
      (den w.stmt).affected (t.list n) = 1 := by
  unfold Writes at hw
  cases hden : den w.stmt with
  | insert value =>
      rw [hden] at hw
      obtain ⟨hfree, hnew⟩ := hw
      have hback : Function.update (t.write w) w.row none = t := by
        rw [Rows.write, Function.update_idem, ← hfree, Function.update_eq_self]
      have hperm := Rows.list_perm_cons hrow ((t.write_self w).trans hnew)
      rw [hback] at hperm
      exact ⟨(List.perm_append_singleton value _).trans hperm.symm, rfl⟩
  | rewrite sel f =>
      rw [hden] at hw
      obtain ⟨v, hv, hselv, hnew⟩ := hw
      have hother : ∀ r a, r ≠ w.row → t r = some a → sel a = false := by
        intro r a hne ha
        rw [← Bool.not_eq_true]
        exact fun hsela => hdistinct r w.row a v hne ha hv (hsel sel f hden a v hsela hselv)
      constructor
      · rw [Statement.run, Rows.list, List.filterMap_filterMap]
        refine List.Perm.of_eq (List.filterMap_congr fun r _ => ?_)
        by_cases hr : r = w.row
        · rw [hr, hv, Rows.write_self, hnew, Option.bind_some, hselv, if_pos rfl]
        · rw [Rows.write_of_ne _ _ hr]
          cases ha : t r with
          | none => rfl
          | some a => rw [Option.bind_some, hother r a hr ha, if_neg Bool.false_ne_true]
      · rw [Statement.affected, ((Rows.list_perm_cons hrow hv).filter sel).length_eq,
          List.filter_cons_of_pos hselv]
        have hnone : (Rows.list (Function.update t w.row none) n).filter sel = [] := by
          rw [List.filter_eq_nil_iff]
          intro a ha
          obtain ⟨r, -, hr⟩ := Rows.mem_list.mp ha
          by_cases heq : r = w.row
          · rw [heq, Function.update_self] at hr
            cases hr
          · rw [Function.update_of_ne heq] at hr
            rw [hother r a heq hr]
            exact Bool.false_ne_true
        rw [hnone]
        rfl

/-! ## A loaded store -/

/-- A session has inserted the values. -/
def fill (values : List ρ) : Store τ ρ := values.foldl (fun s value => s.insert 0 value) .empty

theorem fill_concat (values : List ρ) (value : ρ) :
    (fill (values ++ [value]) : Store τ ρ) = (fill values).insert 0 value := List.foldl_append

theorem size_fill (values : List ρ) : (fill values : Store τ ρ).size = values.length := by
  induction values using List.reverseRecOn with
  | nil => rfl
  | append_singleton values value ih =>
      rw [fill_concat, List.length_append, List.length_singleton, ← ih]
      rfl

theorem blocked_fill (values : List ρ) (r : ℕ) :
    (fill values : Store τ ρ).blocked 0 r = false := by
  induction values using List.reverseRecOn generalizing r with
  | nil => rfl
  | append_singleton values value ih =>
      rw [fill_concat]
      show (Store.write _ 0 _ none (some value)).blocked 0 r = false
      exact Store.blocked_write (ih _) (ih r)

theorem seenRows_fill (values : List ρ) (r : ℕ) :
    seenRows (fill values : Store τ ρ) 0 r = values[r]? := by
  induction values using List.reverseRecOn with
  | nil => rfl
  | append_singleton values value ih =>
      have hsize : (fill values : Store τ ρ).size = values.length := size_fill values
      rw [fill_concat]
      show ((Store.write _ 0 _ none (some value)).visible 0 r).map Version.value = _
      by_cases hr : r = values.length
      · subst hr
        rw [List.getElem?_concat_length, ← hsize, Store.visible, Store.dirty_write_self]
        rfl
      · rw [visible_write_of_ne (hsize ▸ hr), List.getElem?_append]
        split
        case isTrue => exact ih
        case isFalse hge =>
          rw [List.getElem?_eq_none (by rw [List.length_singleton]; omega)]
          exact ih.trans (List.getElem?_eq_none (Nat.not_lt.mp hge))

theorem committedRows_load (values : List ρ) (r : ℕ) :
    committedRows (Store.load values : Store τ ρ) r = values[r]? := seenRows_fill values r

theorem load_clean (values : List ρ) (r : ℕ) : (Store.load values : Store τ ρ).dirty r = none := by
  show Store.release _ 0 r = none
  exact if_neg (ne_true_of_eq_false (blocked_fill values r))

theorem list_load (values : List ρ) :
    (committedRows (Store.load values : Store τ ρ)).list values.length = values := by
  have hrows : committedRows (Store.load values : Store τ ρ) = fun r => values[r]? :=
    funext (committedRows_load values)
  rw [hrows, Rows.list]
  induction values using List.reverseRecOn with
  | nil => rfl
  | append_singleton values value ih =>
      rw [List.length_append, List.length_singleton, List.range_succ, List.filterMap_append,
        List.filterMap_cons_some List.getElem?_concat_length, List.filterMap_nil]
      refine congrArg (· ++ [value]) (Eq.trans (List.filterMap_congr fun r hr => ?_)
        (ih (funext (committedRows_load values))))
      exact List.getElem?_append_left (List.mem_range.mp hr)

theorem pending_fill (values : List ρ) {c : ℕ} (hc : c ≠ 0) :
    ((fill values : Store τ ρ).pending c).created = [] := by
  induction values using List.reverseRecOn with
  | nil => rfl
  | append_singleton values value ih =>
      rw [fill_concat]
      rw [← ih]
      exact congrArg Log.created (Function.update_of_ne hc ..)

theorem admits_load {values : List ρ} {c row : ℕ} {a : ρ}
    (h : ∀ r v, r ≠ row → values[r]? = some v → ¬ clash v a) :
    Admits clash (Store.load values : Store τ ρ) c row a where
  seen := by
    intro r v hr hv
    refine h r v.value hr ?_
    rw [← committedRows_load (τ := τ) values r, committedRows]
    simp only [Store.visible, load_clean] at hv
    rw [hv]
    rfl
  stored := by
    intro c' v hc hv
    exfalso
    change v ∈ (Function.update (fill values : Store τ ρ).pending 0 .empty c').created at hv
    by_cases hzero : c' = 0
    · subst hzero
      rw [Function.update_self] at hv
      cases hv
    · rw [Function.update_of_ne hzero, pending_fill values hzero] at hv
      cases hv

/-- The insert of one value does not stand in the way of another. -/
theorem Admits.insert {s : Store τ ρ} {c row : ℕ} {a value : ρ} (h : Admits clash s c row a)
    (hsize : s.rows s.size = none) (hvalue : ¬ clash value a) (c' : ℕ) :
    Admits clash (s.insert c' value) c row a where
  seen := by
    intro r v hr hv
    change (s.write c' s.size none (some value)).visible c r = some v at hv
    by_cases hnew : r = s.size
    · subst hnew
      simp only [Store.visible, Store.dirty_write_self, Option.map_some] at hv
      split at hv
      · cases hv
        exact hvalue
      · cases hsize.symm.trans hv
    · rw [visible_write_of_ne hnew] at hv
      exact h.seen r v hr hv
  stored := by
    intro c₁ v hc hv
    rcases (Store.mem_created_write c₁ v).mp hv with hin | ⟨-, b, hb, rfl⟩
    · exact h.stored c₁ v hc hin
    · cases hb
      exact hvalue

end Foundation.CommitOrder
