import Mathlib.Data.List.Nodup
import Mathlib.Data.List.Perm.Subperm
import Mathlib.Data.Int.Notation
import Mathlib.Logic.Function.Basic

/-!
# Rows under write locks

Sessions share a store of rows. A write of a session stays uncommitted, and locks
the row, until the session commits or rolls back; the others see the committed
version until then. Every write logs the version it replaces, with a tag of the
caller's, and the version it creates. `replaced_le_created` is the result: among
the committed work, the versions with a property are replaced at most as often as
they were created.
-/

namespace Foundation.RowLocks

variable {τ ρ : Type*}

/-- A version of a row; the stamp tells it from the row's other versions. -/
structure Version (ρ : Type*) where
  row : ℕ
  stamp : ℕ
  value : ρ
deriving DecidableEq

structure Log (τ ρ : Type*) where
  replaced : List (τ × Version ρ)
  created : List (Version ρ)

namespace Log

def empty : Log τ ρ := ⟨[], []⟩

def append (l m : Log τ ρ) : Log τ ρ := ⟨l.replaced ++ m.replaced, l.created ++ m.created⟩

/-- The replaced versions, without their tags. -/
def olds (l : Log τ ρ) : List (Version ρ) := l.replaced.map Prod.snd

@[simp] theorem olds_empty : (empty : Log τ ρ).olds = [] := rfl

@[simp] theorem olds_append (l m : Log τ ρ) : (l.append m).olds = l.olds ++ m.olds := by
  simp [olds, append]

end Log

structure Store (τ ρ : Type*) where
  /-- The committed versions. -/
  rows : ℕ → Option (Version ρ)
  /-- The rows with an uncommitted write: the session it is of, and what it left. -/
  dirty : ℕ → Option (ℕ × Option (Version ρ))
  size : ℕ
  stamp : ℕ
  durable : Log τ ρ
  pending : ℕ → Log τ ρ

namespace Store

def empty : Store τ ρ where
  rows := fun _ => none
  dirty := fun _ => none
  size := 0
  stamp := 0
  durable := .empty
  pending := fun _ => .empty

/-- The version of a row that a session sees. -/
def visible (s : Store τ ρ) (c row : ℕ) : Option (Version ρ) :=
  match s.dirty row with
  | some (owner, v) => if owner = c then v else s.rows row
  | none => s.rows row

/-- Another session has written the row and not ended. -/
def blocked (s : Store τ ρ) (c row : ℕ) : Bool :=
  match s.dirty row with
  | some (owner, _) => owner ≠ c
  | none => false

/-- A write of session `c`: `old` is the version it replaces, `new` what it leaves. -/
def write (s : Store τ ρ) (c row : ℕ) (old : Option (τ × Version ρ)) (new : Option ρ) :
    Store τ ρ :=
  let v := new.map fun value => ⟨row, s.stamp, value⟩
  { s with
    dirty := Function.update s.dirty row (some (c, v))
    stamp := s.stamp + 1
    pending := Function.update s.pending c ((s.pending c).append ⟨old.toList, v.toList⟩) }

def insert (s : Store τ ρ) (c : ℕ) (value : ρ) : Store τ ρ :=
  { s.write c s.size none (some value) with size := s.size + 1 }

/-- Those of the rows whose version the session sees meets the condition. -/
def matching (s : Store τ ρ) (c : ℕ) (sel : ρ → Bool) (rows : List ℕ) : List ℕ :=
  rows.filter fun row => (s.visible c row).any fun v => sel v.value

def candidates (s : Store τ ρ) (c : ℕ) (sel : ρ → Bool) : List ℕ :=
  s.matching c sel (List.range s.size)

/-- Rewrite a row, if the version the session sees now meets the condition. -/
def rewriteRow (s : Store τ ρ) (c : ℕ) (tag : τ) (sel : ρ → Bool) (f : ρ → Option ρ) (row : ℕ) :
    Store τ ρ :=
  match s.visible c row with
  | some v => if sel v.value then s.write c row (some (tag, v)) (f v.value) else s
  | none => s

def rewrite (s : Store τ ρ) (c : ℕ) (tag : τ) (sel : ρ → Bool) (f : ρ → Option ρ)
    (rows : List ℕ) : Store τ ρ :=
  rows.foldl (fun s row => s.rewriteRow c tag sel f row) s

/-- The locks of a session are gone. -/
def release (s : Store τ ρ) (c row : ℕ) : Option (ℕ × Option (Version ρ)) :=
  if s.blocked c row then s.dirty row else none

def commit (s : Store τ ρ) (c : ℕ) : Store τ ρ :=
  { s with
    rows := s.visible c
    dirty := s.release c
    durable := s.durable.append (s.pending c)
    pending := Function.update s.pending c .empty }

def rollback (s : Store τ ρ) (c : ℕ) : Store τ ρ :=
  { s with
    dirty := s.release c
    pending := Function.update s.pending c .empty }

/-- A store that holds these values. -/
def load (values : List ρ) : Store τ ρ :=
  (values.foldl (fun s value => insert s 0 value) empty).commit 0

/-! ## The invariant -/

/-- What a run keeps. `Fits` is what a write checks between its tag and the value it
replaces. -/
structure Inv (Fits : τ → ρ → Prop) (s : Store τ ρ) : Prop where
  beyond : ∀ row, s.size ≤ row → s.rows row = none ∧ s.dirty row = none
  stamp_lt : ∀ v, v ∈ s.durable.created ∨ (∃ c, v ∈ (s.pending c).created) → v.stamp < s.stamp
  /-- A committed version has not been replaced, save by the session that holds it. -/
  rows_live : ∀ row v, s.rows row = some v → v.row = row ∧ v ∈ s.durable.created ∧
    v ∉ s.durable.olds ∧ ∀ c, v ∈ (s.pending c).olds → ∃ o, s.dirty row = some (c, o)
  /-- An uncommitted version has not been replaced. -/
  dirty_live : ∀ row c v, s.dirty row = some (c, some v) → v.row = row ∧
    v ∈ (s.pending c).created ∧ v ∉ s.durable.olds ∧ ∀ c', v ∉ (s.pending c').olds
  /-- No session replaces a version twice, or one replaced by committed work. -/
  nodup : ∀ c, (s.durable.olds ++ (s.pending c).olds).Nodup
  disjoint : ∀ c c', c ≠ c' → List.Disjoint (s.pending c).olds (s.pending c').olds
  durable_known : ∀ v ∈ s.durable.olds, v ∈ s.durable.created
  pending_known : ∀ c, ∀ v ∈ (s.pending c).olds,
    v ∈ s.durable.created ∨ v ∈ (s.pending c).created
  durable_fits : ∀ e ∈ s.durable.replaced, Fits e.1 e.2.value
  pending_fits : ∀ c, ∀ e ∈ (s.pending c).replaced, Fits e.1 e.2.value

variable {Fits : τ → ρ → Prop}

theorem inv_empty : Inv Fits (empty : Store τ ρ) where
  beyond := fun _ _ => ⟨rfl, rfl⟩
  stamp_lt := by
    rintro v (h | ⟨c, h⟩)
    · cases h
    · cases h
  rows_live := fun _ _ h => nomatch h
  dirty_live := fun _ _ _ h => nomatch h
  nodup := fun _ => List.nodup_nil
  disjoint := fun _ _ _ _ h => nomatch h
  durable_known := fun _ h => nomatch h
  pending_known := fun _ _ h => nomatch h
  durable_fits := fun _ h => nomatch h
  pending_fits := fun _ _ h => nomatch h

/-- What a session sees of a row it may write has never been replaced. -/
theorem Inv.visible_live {s : Store τ ρ} (h : Inv Fits s) {c row : ℕ} {v : Version ρ}
    (hfree : s.blocked c row = false) (hv : s.visible c row = some v) :
    v.row = row ∧ v ∉ s.durable.olds ∧ (∀ c', v ∉ (s.pending c').olds) ∧
      (v ∈ s.durable.created ∨ v ∈ (s.pending c).created) := by
  unfold visible at hv
  unfold blocked at hfree
  cases hdirty : s.dirty row with
  | none =>
      rw [hdirty] at hv
      obtain ⟨hrow, hcreated, hdurable, hpending⟩ := h.rows_live row v hv
      refine ⟨hrow, hdurable, ?_, .inl hcreated⟩
      intro c' hc'
      -- a session that replaced it would hold the row
      obtain ⟨o, ho⟩ := hpending c' hc'
      rw [hdirty] at ho
      cases ho
  | some entry =>
      rcases entry with ⟨owner, o⟩
      rw [hdirty] at hv hfree
      obtain rfl : owner = c := by simpa using hfree
      simp only [if_true] at hv
      subst hv
      obtain ⟨hrow, hcreated, hdurable, hpending⟩ := h.dirty_live row owner v hdirty
      exact ⟨hrow, hdurable, hpending, .inr hcreated⟩

theorem Inv.visible_eq_none {s : Store τ ρ} (h : Inv Fits s) {c row : ℕ} (hrow : s.size ≤ row) :
    s.visible c row = none := by
  obtain ⟨hrows, hdirty⟩ := h.beyond row hrow
  rw [visible, hdirty]
  exact hrows

theorem Inv.known_lt {s : Store τ ρ} (h : Inv Fits s) {v : Version ρ}
    (hv : v ∈ s.durable.olds ∨ ∃ c, v ∈ (s.pending c).olds) : v.stamp < s.stamp := by
  rcases hv with hv | ⟨c, hv⟩
  · exact h.stamp_lt v (.inl (h.durable_known v hv))
  · rcases h.pending_known c v hv with hd | hp
    · exact h.stamp_lt v (.inl hd)
    · exact h.stamp_lt v (.inr ⟨c, hp⟩)

/-! ## Writes -/

section Write

variable {s : Store τ ρ} {c row : ℕ} {old : Option (τ × Version ρ)} {new : Option ρ}

theorem mem_replaced_write (c' : ℕ) (e : τ × Version ρ) :
    e ∈ ((s.write c row old new).pending c').replaced ↔
      e ∈ (s.pending c').replaced ∨ c' = c ∧ old = some e := by
  by_cases hc : c' = c
  · subst hc
    simp [write, Log.append]
  · simp [write, hc]

theorem mem_olds_write (c' : ℕ) (v : Version ρ) :
    v ∈ ((s.write c row old new).pending c').olds ↔
      v ∈ (s.pending c').olds ∨ c' = c ∧ ∃ e, old = some e ∧ e.2 = v := by
  simp only [Log.olds, List.mem_map, mem_replaced_write]
  constructor
  · rintro ⟨e, he | ⟨hc, he⟩, rfl⟩
    · exact .inl ⟨e, he, rfl⟩
    · exact .inr ⟨hc, e, he, rfl⟩
  · rintro (⟨e, he, rfl⟩ | ⟨hc, e, he, rfl⟩)
    · exact ⟨e, .inl he, rfl⟩
    · exact ⟨e, .inr ⟨hc, he⟩, rfl⟩

theorem mem_created_write (c' : ℕ) (v : Version ρ) :
    v ∈ ((s.write c row old new).pending c').created ↔
      v ∈ (s.pending c').created ∨
        c' = c ∧ ∃ value, new = some value ∧ v = ⟨row, s.stamp, value⟩ := by
  by_cases hc : c' = c
  · subst hc
    cases new with
    | none => simp [write, Log.append]
    | some value => simp [write, Log.append]
  · simp [write, hc]

theorem dirty_write_self : (s.write c row old new).dirty row =
    some (c, new.map fun value => ⟨row, s.stamp, value⟩) := by
  simp [write]

theorem dirty_write_of_ne {r : ℕ} (h : r ≠ row) : (s.write c row old new).dirty r = s.dirty r := by
  simp [write, h]

/-- The writer's lock and those of the others stay apart. -/
theorem blocked_write (hfree : s.blocked c row = false) {r : ℕ} (h : s.blocked c r = false) :
    (s.write c row old new).blocked c r = false := by
  by_cases hr : r = row
  · subst hr
    simp [blocked, dirty_write_self]
  · rw [blocked, dirty_write_of_ne hr]
    exact h

/-- What the caller must know of the version it replaces. -/
def Names (Fits : τ → ρ → Prop) (s : Store τ ρ) (c row : ℕ) (old : Option (τ × Version ρ)) :
    Prop :=
  ∀ e, old = some e → s.visible c row = some e.2 ∧ Fits e.1 e.2.value

theorem Inv.rows_live_write (h : Inv Fits s) (hfree : s.blocked c row = false)
    (hold : s.Names Fits c row old) {r : ℕ} {v : Version ρ} (hv : s.rows r = some v) {c' : ℕ}
    (hc' : v ∈ ((s.write c row old new).pending c').olds) :
    ∃ o, (s.write c row old new).dirty r = some (c', o) := by
  obtain ⟨hrow, -, -, hpending⟩ := h.rows_live r v hv
  rcases (mem_olds_write c' v).mp hc' with hbefore | ⟨rfl, e, he, rfl⟩
  · obtain ⟨o, ho⟩ := hpending c' hbefore
    by_cases hr : r = row
    · -- the row was held already, so by the writer
      subst hr
      rw [blocked, ho] at hfree
      obtain rfl : c' = c := by simpa using hfree
      exact ⟨_, dirty_write_self⟩
    · exact ⟨o, (dirty_write_of_ne hr).trans ho⟩
  · obtain ⟨hseen, -⟩ := hold e he
    obtain rfl : r = row := hrow.symm.trans (h.visible_live hfree hseen).1
    exact ⟨_, dirty_write_self⟩

theorem Inv.dirty_live_write (h : Inv Fits s) (hfree : s.blocked c row = false)
    (hold : s.Names Fits c row old) {r c' : ℕ} {v : Version ρ}
    (hv : (s.write c row old new).dirty r = some (c', some v)) :
    v.row = r ∧ v ∈ ((s.write c row old new).pending c').created ∧ v ∉ s.durable.olds ∧
      ∀ c'', v ∉ ((s.write c row old new).pending c'').olds := by
  by_cases hr : r = row
  · -- the version just made is newer than every replaced one
    subst hr
    rw [dirty_write_self] at hv
    obtain ⟨rfl, hnew⟩ := Prod.mk.inj (Option.some.inj hv)
    obtain ⟨value, hvalue, rfl⟩ := Option.map_eq_some_iff.mp hnew
    refine ⟨rfl, (mem_created_write _ _).mpr (.inr ⟨rfl, value, hvalue, rfl⟩), ?_, ?_⟩
    · exact fun hmem => absurd (h.known_lt (.inl hmem)) (Nat.lt_irrefl _)
    · intro c'' hmem
      rcases (mem_olds_write c'' _).mp hmem with hbefore | ⟨-, e, he, hev⟩
      · exact absurd (h.known_lt (.inr ⟨c'', hbefore⟩)) (Nat.lt_irrefl _)
      · obtain ⟨-, -, -, hcreated⟩ := h.visible_live hfree (hold e he).1
        have hlt : e.2.stamp < s.stamp :=
          h.stamp_lt e.2 (hcreated.imp_right fun hp => ⟨_, hp⟩)
        rw [hev] at hlt
        exact absurd hlt (Nat.lt_irrefl _)
  · rw [dirty_write_of_ne hr] at hv
    obtain ⟨hrow, hcreated, hdurable, hpending⟩ := h.dirty_live r c' v hv
    refine ⟨hrow, (mem_created_write _ _).mpr (.inl hcreated), hdurable, ?_⟩
    intro c'' hmem
    rcases (mem_olds_write c'' v).mp hmem with hbefore | ⟨-, e, he, rfl⟩
    · exact hpending c'' hbefore
    · exact hr (hrow.symm.trans (h.visible_live hfree (hold e he).1).1)

theorem Inv.nodup_write (h : Inv Fits s) (hfree : s.blocked c row = false)
    (hold : s.Names Fits c row old) (c' : ℕ) :
    (s.durable.olds ++ ((s.write c row old new).pending c').olds).Nodup := by
  by_cases hc : c' = c
  · subst hc
    have holds : ((s.write c' row old new).pending c').olds =
        (s.pending c').olds ++ old.toList.map Prod.snd := by
      simp [write, Log.append, Log.olds]
    rw [holds, ← List.append_assoc]
    cases old with
    | none => simpa using h.nodup c'
    | some e =>
        obtain ⟨-, hdurable, hpending, -⟩ := h.visible_live hfree (hold e rfl).1
        have hnew : e.2 ∉ s.durable.olds ++ (s.pending c').olds := by
          rw [List.mem_append]
          exact not_or.mpr ⟨hdurable, hpending c'⟩
        exact List.nodup_append'.mpr ⟨h.nodup c', List.nodup_singleton _,
          List.disjoint_singleton.mpr hnew⟩
  · have hsame : (s.write c row old new).pending c' = s.pending c' := by simp [write, hc]
    rw [hsame]
    exact h.nodup c'

/-- **A write on a free row keeps the invariant**, if it names the version it
replaces. -/
theorem Inv.write (h : Inv Fits s) {n : ℕ} (hsize : s.size ≤ n) (hrow : row < n)
    (hfree : s.blocked c row = false) (hold : s.Names Fits c row old) :
    Inv Fits { s.write c row old new with size := n } where
  beyond := by
    intro r hr
    have hne : r ≠ row := by
      intro heq
      subst heq
      exact absurd hrow (Nat.not_lt.mpr hr)
    obtain ⟨hrows, hdirty⟩ := h.beyond r (Nat.le_trans hsize hr)
    refine ⟨hrows, ?_⟩
    show (s.write c row old new).dirty r = none
    rw [dirty_write_of_ne hne, hdirty]
  stamp_lt := by
    rintro v (hd | ⟨c', hp⟩)
    · exact Nat.lt_succ_of_lt (h.stamp_lt v (.inl hd))
    · rcases (mem_created_write c' v).mp hp with hbefore | ⟨-, value, -, rfl⟩
      · exact Nat.lt_succ_of_lt (h.stamp_lt v (.inr ⟨c', hbefore⟩))
      · exact Nat.lt_succ_self _
  rows_live := by
    intro r v hv
    obtain ⟨hr, hcreated, hdurable, -⟩ := h.rows_live r v hv
    exact ⟨hr, hcreated, hdurable, fun c' hc' => h.rows_live_write hfree hold hv hc'⟩
  dirty_live := fun r c' v hv => h.dirty_live_write hfree hold hv
  nodup := h.nodup_write hfree hold
  disjoint := by
    intro c₁ c₂ hne v h₁ h₂
    rcases (mem_olds_write c₁ v).mp h₁ with b₁ | ⟨rfl, e, he, rfl⟩
    · rcases (mem_olds_write c₂ v).mp h₂ with b₂ | ⟨rfl, e, he, rfl⟩
      · exact h.disjoint c₁ c₂ hne b₁ b₂
      · exact (h.visible_live hfree (hold e he).1).2.2.1 c₁ b₁
    · rcases (mem_olds_write c₂ e.2).mp h₂ with b₂ | ⟨heq, -⟩
      · exact (h.visible_live hfree (hold e he).1).2.2.1 c₂ b₂
      · exact hne heq.symm
  durable_known := h.durable_known
  pending_known := by
    intro c' v hv
    rcases (mem_olds_write c' v).mp hv with hbefore | ⟨rfl, e, he, rfl⟩
    · exact (h.pending_known c' v hbefore).imp_right
        fun hp => (mem_created_write c' v).mpr (.inl hp)
    · exact (h.visible_live hfree (hold e he).1).2.2.2.imp_right
        fun hp => (mem_created_write c' e.2).mpr (.inl hp)
  durable_fits := h.durable_fits
  pending_fits := by
    intro c' e he
    rcases (mem_replaced_write c' e).mp he with hbefore | ⟨-, he⟩
    · exact h.pending_fits c' e hbefore
    · exact (hold e he).2

end Write

theorem Inv.insert {s : Store τ ρ} (h : Inv Fits s) (c : ℕ) (value : ρ) :
    Inv Fits (s.insert c value) := by
  refine h.write (Nat.le_succ _) (Nat.lt_succ_self _) ?_ (fun _ he => nomatch he)
  rw [blocked, (h.beyond s.size (Nat.le_refl _)).2]

/-! ## Rewriting the rows a statement addresses -/

section Rewrite

variable {s : Store τ ρ} {c : ℕ} {tag : τ} {sel : ρ → Bool} {f : ρ → Option ρ}

theorem blocked_rewriteRow {row : ℕ} (hfree : s.blocked c row = false) {r : ℕ}
    (h : s.blocked c r = false) : (s.rewriteRow c tag sel f row).blocked c r = false := by
  unfold rewriteRow
  split
  · split
    · exact blocked_write hfree h
    · exact h
  · exact h

theorem Inv.rewriteRow (h : Inv Fits s) (hfits : ∀ a, sel a = true → Fits tag a) {row : ℕ}
    (hfree : s.blocked c row = false) : Inv Fits (s.rewriteRow c tag sel f row) := by
  unfold Store.rewriteRow
  split
  · rename_i v hv
    split
    · rename_i hsel
      have hrow : row < s.size := by
        by_contra hle
        rw [h.visible_eq_none (Nat.not_lt.mp hle)] at hv
        cases hv
      refine h.write (Nat.le_refl _) hrow hfree ?_
      rintro e ⟨⟩
      exact ⟨hv, hfits v.value hsel⟩
    · exact h
  · exact h

theorem Inv.rewrite {rows : List ℕ} (h : Inv Fits s) (hfits : ∀ a, sel a = true → Fits tag a)
    (hfree : ∀ r ∈ rows, s.blocked c r = false) : Inv Fits (s.rewrite c tag sel f rows) := by
  induction rows generalizing s with
  | nil => exact h
  | cons row rows ih =>
      have hrow := hfree row List.mem_cons_self
      exact ih (h.rewriteRow hfits hrow) fun r hr =>
        blocked_rewriteRow hrow (hfree r (List.mem_cons_of_mem _ hr))

end Rewrite

/-! ## The end of a transaction -/

section Ending

variable {s : Store τ ρ} {c : ℕ}

/-- The session that ended has no pending work, the others keep theirs. -/
theorem mem_pending_end {β : Type*} {g : Log τ ρ → List β} (hg : g .empty = []) {c' : ℕ} {x : β} :
    x ∈ g (Function.update s.pending c .empty c') ↔ c' ≠ c ∧ x ∈ g (s.pending c') := by
  by_cases hc : c' = c
  · subst hc
    simp [hg]
  · simp [hc]

theorem visible_eq_some {row : ℕ} {v : Version ρ} (h : s.visible c row = some v) :
    s.dirty row = some (c, some v) ∨ s.rows row = some v ∧ ∀ o, s.dirty row ≠ some (c, o) := by
  unfold visible at h
  cases hdirty : s.dirty row with
  | none =>
      rw [hdirty] at h
      exact .inr ⟨h, fun _ ho => nomatch ho⟩
  | some entry =>
      rcases entry with ⟨owner, o⟩
      rw [hdirty] at h
      by_cases howner : owner = c
      · subst howner
        simp only [if_true] at h
        exact .inl (by rw [h])
      · simp only [howner, if_false] at h
        refine .inr ⟨h, ?_⟩
        rintro o' ⟨⟩
        exact howner rfl

theorem release_eq_some {row : ℕ} {e : ℕ × Option (Version ρ)} :
    s.release c row = some e ↔ s.dirty row = some e ∧ e.1 ≠ c := by
  unfold release blocked
  cases hdirty : s.dirty row with
  | none => simp
  | some entry =>
      rcases entry with ⟨owner, o⟩
      by_cases howner : owner = c
      · simp only [howner, ne_eq, not_true_eq_false, decide_false, Bool.false_eq_true, if_false,
          Option.some.injEq]
        constructor
        · intro h
          cases h
        · rintro ⟨rfl, hne⟩
          exact absurd rfl hne
      · simp only [ne_eq, howner, not_false_eq_true, decide_true, if_true, Option.some.injEq]
        constructor
        · rintro rfl
          exact ⟨rfl, howner⟩
        · exact fun h => h.1

theorem release_eq_none {row : ℕ} (h : s.dirty row = none) : s.release c row = none := by
  unfold release
  rw [h, ite_self]

theorem Inv.commit (h : Inv Fits s) (c : ℕ) : Inv Fits (s.commit c) where
  beyond := by
    intro row hrow
    refine ⟨h.visible_eq_none hrow, release_eq_none (h.beyond row hrow).2⟩
  stamp_lt := by
    rintro v (hd | ⟨c', hp⟩)
    · rcases List.mem_append.mp hd with hd | hp
      · exact h.stamp_lt v (.inl hd)
      · exact h.stamp_lt v (.inr ⟨c, hp⟩)
    · exact h.stamp_lt v (.inr ⟨c', ((mem_pending_end rfl).mp hp).2⟩)
  rows_live := by
    intro row v hv
    rcases visible_eq_some hv with hdirty | ⟨hrows, hother⟩
    · obtain ⟨hrow, hcreated, hdurable, hpending⟩ := h.dirty_live row c v hdirty
      refine ⟨hrow, List.mem_append_right _ hcreated, ?_, ?_⟩
      · rw [Store.commit, Log.olds_append, List.mem_append]
        exact not_or.mpr ⟨hdurable, hpending c⟩
      · intro c' hc'
        exact absurd ((mem_pending_end rfl).mp hc').2 (hpending c')
    · obtain ⟨hrow, hcreated, hdurable, hpending⟩ := h.rows_live row v hrows
      refine ⟨hrow, List.mem_append_left _ hcreated, ?_, ?_⟩
      · rw [Store.commit, Log.olds_append, List.mem_append]
        refine not_or.mpr ⟨hdurable, fun hmem => ?_⟩
        obtain ⟨o, ho⟩ := hpending c hmem
        exact hother o ho
      · intro c' hc'
        obtain ⟨hne, hmem⟩ := (mem_pending_end rfl).mp hc'
        obtain ⟨o, ho⟩ := hpending c' hmem
        exact ⟨o, release_eq_some.mpr ⟨ho, hne⟩⟩
  dirty_live := by
    intro row c' v hv
    obtain ⟨hdirty, hne⟩ := release_eq_some.mp hv
    obtain ⟨hrow, hcreated, hdurable, hpending⟩ := h.dirty_live row c' v hdirty
    refine ⟨hrow, (mem_pending_end rfl).mpr ⟨hne, hcreated⟩, ?_, ?_⟩
    · rw [Store.commit, Log.olds_append, List.mem_append]
      exact not_or.mpr ⟨hdurable, hpending c⟩
    · exact fun c'' hc'' => hpending c'' ((mem_pending_end rfl).mp hc'').2
  nodup := by
    intro c'
    rw [Store.commit, Log.olds_append]
    refine List.nodup_append'.mpr ⟨h.nodup c, ?_, ?_⟩
    · by_cases hc : c' = c
      · subst hc
        simp
      · simpa [hc] using (List.nodup_append'.mp (h.nodup c')).2.1
    · intro v hv hv'
      obtain ⟨hne, hmem⟩ := (mem_pending_end rfl).mp hv'
      rcases List.mem_append.mp hv with hd | hp
      · exact (List.nodup_append'.mp (h.nodup c')).2.2 hd hmem
      · exact h.disjoint c' c hne hmem hp
  disjoint := by
    intro c₁ c₂ hne v h₁ h₂
    exact h.disjoint c₁ c₂ hne ((mem_pending_end rfl).mp h₁).2 ((mem_pending_end rfl).mp h₂).2
  durable_known := by
    intro v hv
    rw [Store.commit, Log.olds_append] at hv
    rcases List.mem_append.mp hv with hd | hp
    · exact List.mem_append_left _ (h.durable_known v hd)
    · exact List.mem_append.mpr (h.pending_known c v hp)
  pending_known := by
    intro c' v hv
    obtain ⟨hne, hmem⟩ := (mem_pending_end rfl).mp hv
    rcases h.pending_known c' v hmem with hd | hp
    · exact .inl (List.mem_append_left _ hd)
    · exact .inr ((mem_pending_end rfl).mpr ⟨hne, hp⟩)
  durable_fits := by
    intro e he
    rcases List.mem_append.mp he with hd | hp
    · exact h.durable_fits e hd
    · exact h.pending_fits c e hp
  pending_fits := fun c' e he => h.pending_fits c' e ((mem_pending_end rfl).mp he).2

theorem Inv.rollback (h : Inv Fits s) (c : ℕ) : Inv Fits (s.rollback c) where
  beyond := fun row hrow => ⟨(h.beyond row hrow).1, release_eq_none (h.beyond row hrow).2⟩
  stamp_lt := by
    rintro v (hd | ⟨c', hp⟩)
    · exact h.stamp_lt v (.inl hd)
    · exact h.stamp_lt v (.inr ⟨c', ((mem_pending_end rfl).mp hp).2⟩)
  rows_live := by
    intro row v hv
    obtain ⟨hrow, hcreated, hdurable, hpending⟩ := h.rows_live row v hv
    refine ⟨hrow, hcreated, hdurable, ?_⟩
    intro c' hc'
    obtain ⟨hne, hmem⟩ := (mem_pending_end rfl).mp hc'
    obtain ⟨o, ho⟩ := hpending c' hmem
    exact ⟨o, release_eq_some.mpr ⟨ho, hne⟩⟩
  dirty_live := by
    intro row c' v hv
    obtain ⟨hdirty, hne⟩ := release_eq_some.mp hv
    obtain ⟨hrow, hcreated, hdurable, hpending⟩ := h.dirty_live row c' v hdirty
    exact ⟨hrow, (mem_pending_end rfl).mpr ⟨hne, hcreated⟩, hdurable,
      fun c'' hc'' => hpending c'' ((mem_pending_end rfl).mp hc'').2⟩
  nodup := by
    intro c'
    by_cases hc : c' = c
    · subst hc
      simpa [Store.rollback] using (List.nodup_append'.mp (h.nodup c')).1
    · simpa [Store.rollback, hc] using h.nodup c'
  disjoint := by
    intro c₁ c₂ hne v h₁ h₂
    exact h.disjoint c₁ c₂ hne ((mem_pending_end rfl).mp h₁).2 ((mem_pending_end rfl).mp h₂).2
  durable_known := h.durable_known
  pending_known := by
    intro c' v hv
    obtain ⟨hne, hmem⟩ := (mem_pending_end rfl).mp hv
    exact (h.pending_known c' v hmem).imp_right fun hp => (mem_pending_end rfl).mpr ⟨hne, hp⟩
  durable_fits := h.durable_fits
  pending_fits := fun c' e he => h.pending_fits c' e ((mem_pending_end rfl).mp he).2

end Ending

theorem inv_load (values : List ρ) : Inv Fits (load values : Store τ ρ) := by
  have hinsert : ∀ s : Store τ ρ, Inv Fits s →
      Inv Fits (values.foldl (fun s value => s.insert 0 value) s) := by
    induction values with
    | nil => exact fun _ h => h
    | cons value values ih => exact fun s h => ih (s.insert 0 value) (h.insert 0 value)
  exact (hinsert empty inv_empty).commit 0

/-! ## Committed work -/

/-- **Versions are replaced at most as often as they are created**: among the committed
work, for the versions whose value meets a condition. -/
theorem Inv.replaced_le_created {s : Store τ ρ} (h : Inv Fits s) (p : ρ → Bool) :
    (s.durable.replaced.filter fun e => p e.2.value).length ≤
      (s.durable.created.filter fun v => p v.value).length := by
  have hmap : (s.durable.replaced.filter fun e => p e.2.value).map Prod.snd =
      s.durable.olds.filter fun v => p v.value := by
    rw [Log.olds, List.filter_map]
    rfl
  rw [← List.length_map Prod.snd, hmap]
  have hnodup := (List.nodup_append'.mp (h.nodup 0)).1
  refine (List.Nodup.subperm (hnodup.filter _) ?_).length_le
  intro v hv
  obtain ⟨hmem, hp⟩ := List.mem_filter.mp hv
  exact List.mem_filter.mpr ⟨h.durable_known v hmem, hp⟩

end Store

end Foundation.RowLocks
