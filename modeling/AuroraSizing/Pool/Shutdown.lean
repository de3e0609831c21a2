import AuroraSizing.Pool.SimpleDataSource2
import Mathlib.Data.List.Count

/-!
# `SimpleDataSource2.close`

The guard of `close` is the wrong way round: the call that sets `isClosed` returns, and only
a later one drains the queue. What it finds there are proxies, which are of the class that
`Proxy.newProxyInstance` makes and not of `ConnectionProxy`, so the cast throws on the first.
`after_succ` is the pool after any number of calls.
-/

namespace AuroraSizing.Pool

open Foundation.System

/-- What `close` and `getConnection` throw. -/
inductive RuntimeException where
  | classCastException
  | illegalStateException
deriving DecidableEq, Repr

/-- The handler behind a proxy. -/
structure ConnectionProxy where
  t : Conn
deriving DecidableEq, Repr

inductive Reference where
  | connectionProxy (handler : ConnectionProxy)
  /-- An instance of the class that `Proxy.newProxyInstance` makes for `Connection`. -/
  | newProxyInstance (handler : ConnectionProxy)
deriving DecidableEq, Repr

def ConnectionProxy.getProxy (t : Conn) : Reference := .newProxyInstance ⟨t⟩

/-- `(ConnectionProxy<Connection>) conn` -/
def Reference.castToConnectionProxy : Reference → Except RuntimeException ConnectionProxy
  | .connectionProxy handler => .ok handler
  | .newProxyInstance _ => .error .classCastException

/-- The pool, and what its `close` has released. -/
structure Disposal where
  pool : SimpleDataSource2
  /-- The inner connections whose `close()` was called. -/
  innerClosed : List Conn
  /-- The three event loops are shut down. -/
  loopsShutdown : Bool
deriving DecidableEq, Repr

namespace Disposal

/-- `while (!recycledConnections.isEmpty())`. A `take()` that does not wait is not
interrupted, and an `SQLException` of the inner `close()` is printed in the end. -/
def drain (s : Disposal) : List Conn → Disposal × Option RuntimeException
  | [] => ({ s with pool := { s.pool with recycledConnections := [] } }, none)
  | conn :: rest =>
      match (ConnectionProxy.getProxy conn).castToConnectionProxy with
      | .error e => ({ s with pool := { s.pool with recycledConnections := rest } }, some e)
      | .ok handler => drain { s with innerClosed := s.innerClosed ++ [handler.t] } rest

/-- The pool after `close()`, and what it throws. -/
def close (s : Disposal) : Disposal × Option RuntimeException :=
  -- `isClosed.compareAndSet(false, true)`
  if s.pool.isClosed = false then ({ s with pool := { s.pool with isClosed := true } }, none)
  else drain { s with loopsShutdown := true } s.pool.recycledConnections

/-- `getConnection`, up to its `take()`. -/
def getConnection (s : Disposal) : Except RuntimeException Disposal :=
  if s.pool.isClosed then .error .illegalStateException
  else .ok { s with pool := { s.pool with waiting := s.pool.waiting + 1 } }

/-- After so many calls of `close`, by whatever callers. -/
def after (s : Disposal) : ℕ → Disposal
  | 0 => s
  | k + 1 => (close (after s k)).1

/-- What the call after the first `k` throws. -/
def thrown (s : Disposal) (k : ℕ) : Option RuntimeException := (close (after s k)).2

/-- `n` calls of `close` release the connections below `opened`, each of them once. -/
structure ReleasesOnce (opened : ℕ) (s : Disposal) (n : ℕ) : Prop where
  emptied : (s.after 1).pool.recycledConnections = []
  closedOnce : ∀ c < opened, (s.after 1).innerClosed.count c = 1
  disposed : (s.after 1).getConnection = .error .illegalStateException
  unchanged : ∀ k < n, s.after (k + 1) = s.after 1
  silent : ∀ k < n, s.thrown k = none

end Disposal

/-- A state of the pool that nobody has closed, with every connection in the queue. -/
structure AllReturned (capacity opened : ℕ) (p : SimpleDataSource2) : Prop where
  reached : ∃ events, run (SimpleDataSource2.step capacity)
    (SimpleDataSource2.create opened) events = some p
  isOpen : p.isClosed = false
  returned : p.recycledConnections.Perm (List.range opened)

/-! ## The calls one after another -/

namespace Disposal

@[simp] theorem close_of_isOpen {s : Disposal} (h : s.pool.isClosed = false) :
    s.close = ({ s with pool := { s.pool with isClosed := true } }, none) := if_pos h

theorem close_of_isClosed {s : Disposal} (h : s.pool.isClosed = true) :
    s.close = ({ s with
        pool := { s.pool with recycledConnections := s.pool.recycledConnections.tail }
        loopsShutdown := true },
      if s.pool.recycledConnections = [] then none else some .classCastException) := by
  rw [close, if_neg (by rw [h]; exact Bool.noConfusion)]
  cases hqueue : s.pool.recycledConnections with
  | nil => rfl
  | cons conn rest => rfl

/-- On the pool a call of `close` is one step of the pool, or none. -/
theorem close_step (capacity : ℕ) (s : Disposal) :
    s.pool.step capacity .poolClose = some s.close.1.pool ∨
      s.pool.step capacity .poolDrain = some s.close.1.pool ∨ s.close.1.pool = s.pool := by
  cases hclosed : s.pool.isClosed with
  | false =>
      rw [close_of_isOpen hclosed]
      exact .inl rfl
  | true =>
      rw [close_of_isClosed hclosed]
      cases hqueue : s.pool.recycledConnections with
      | nil =>
          refine .inr (.inr ?_)
          show ({ s.pool with recycledConnections := [] } : SimpleDataSource2) = s.pool
          rw [← hqueue]
      | cons conn rest =>
          refine .inr (.inl ?_)
          simp [SimpleDataSource2.step, hclosed, hqueue]

/-- **After `k + 1` calls** the queue is short of its first `k` connections, and no inner
connection was closed. -/
theorem after_succ {s : Disposal} (hopen : s.pool.isClosed = false) (k : ℕ) :
    s.after (k + 1) =
      { pool := { s.pool with
          isClosed := true
          recycledConnections := s.pool.recycledConnections.drop k }
        innerClosed := s.innerClosed
        loopsShutdown := s.loopsShutdown || decide (0 < k) } := by
  induction k with
  | zero => simp [after, close_of_isOpen hopen]
  | succ k ih =>
      rw [after, ih, close_of_isClosed rfl]
      simp

theorem thrown_zero {s : Disposal} (hopen : s.pool.isClosed = false) : s.thrown 0 = none := by
  rw [thrown, after, close_of_isOpen hopen]

/-- A later call throws as long as there is a connection to take. -/
theorem thrown_succ {s : Disposal} (hopen : s.pool.isClosed = false) (k : ℕ) :
    s.thrown (k + 1) =
      if s.pool.recycledConnections.length ≤ k then none else some .classCastException := by
  rw [thrown, after_succ hopen, close_of_isClosed rfl]
  simp only [List.drop_eq_nil_iff]

/-- **`close` releases everything once exactly** where there is nothing to release and no
second call. -/
theorem close_releasesOnce_iff {capacity opened n : ℕ} {p : SimpleDataSource2}
    (h : AllReturned capacity opened p) (hn : 1 ≤ n) :
    ReleasesOnce opened ⟨p, [], false⟩ n ↔ opened = 0 ∧ n = 1 := by
  constructor
  · intro hreleases
    constructor
    · have hempty := hreleases.emptied
      rw [after_succ h.isOpen] at hempty
      have hlength := h.returned.length_eq
      rw [List.length_range] at hlength
      rw [← hlength]
      exact List.length_eq_zero_iff.mpr hempty
    · by_contra hmany
      -- the second call is the first to shut the event loops down
      have hsecond := hreleases.unchanged 1 (by omega)
      rw [after_succ h.isOpen, after_succ h.isOpen] at hsecond
      cases congrArg Disposal.loopsShutdown hsecond
  · rintro ⟨rfl, rfl⟩
    have hqueue : p.recycledConnections = [] := List.perm_nil.mp h.returned
    refine ⟨?_, ?_, ?_, ?_, ?_⟩
    · rw [after_succ h.isOpen]
      exact hqueue
    · intro c hc
      exact absurd hc (Nat.not_lt_zero c)
    · rw [after_succ h.isOpen]
      rfl
    · intro k hk
      rw [Nat.lt_one_iff.mp hk]
    · intro k hk
      rw [Nat.lt_one_iff.mp hk]
      exact thrown_zero h.isOpen

/-- A pool that opened nothing, closed once. -/
theorem empty_pool_releasesOnce :
    ReleasesOnce 0 ⟨SimpleDataSource2.create 0, [], false⟩ 1 :=
  have hreturned : AllReturned 1 0 (SimpleDataSource2.create 0) :=
    ⟨⟨[], rfl⟩, rfl, List.Perm.refl _⟩
  (close_releasesOnce_iff hreturned (Nat.le_refl 1)).mpr ⟨rfl, rfl⟩

/-- Two connections: the first call leaves both in the queue, the second loses one of them and
throws, and neither is closed by any call. -/
theorem two_connections_not_released :
    AllReturned 2 2 (SimpleDataSource2.create 2) ∧
      (after ⟨SimpleDataSource2.create 2, [], false⟩ 1).pool.recycledConnections = [0, 1] ∧
      (after ⟨SimpleDataSource2.create 2, [], false⟩ 2).pool.recycledConnections = [1] ∧
      (after ⟨SimpleDataSource2.create 2, [], false⟩ 2).innerClosed = [] ∧
      thrown ⟨SimpleDataSource2.create 2, [], false⟩ 1 = some .classCastException ∧
      ¬ ReleasesOnce 2 ⟨SimpleDataSource2.create 2, [], false⟩ 1 := by
  refine ⟨⟨⟨[], rfl⟩, rfl, List.Perm.refl _⟩, by decide, by decide, by decide, by decide, ?_⟩
  intro h
  exact absurd h.emptied (by decide)

end Disposal

/-! ## The holder -/

/-- In memory both providers are one pool. -/
inductive ConnectionProviderHolder where
  | inMem (connectionProvider : Disposal)
  | aurora (roConnectionProvider rwConnectionProvider : Disposal)

/-- `roConnectionProvider.close(); rwConnectionProvider.close();` -/
def ConnectionProviderHolder.close :
    ConnectionProviderHolder → ConnectionProviderHolder × Option RuntimeException
  | .inMem s =>
      match s.close with
      | (s, some e) => (.inMem s, some e)
      | (s, none) => (.inMem s.close.1, s.close.2)
  | .aurora ro rw =>
      match ro.close with
      | (ro, some e) => (.aurora ro rw, some e)
      | (ro, none) => (.aurora ro rw.close.1, rw.close.2)

/-- One `close()` of the holder is two of the shared pool, and the second throws. -/
theorem close_inMem {s : Disposal} (hopen : s.pool.isClosed = false)
    (hqueue : s.pool.recycledConnections ≠ []) :
    (ConnectionProviderHolder.inMem s).close =
      (.inMem (s.after 2), some .classCastException) := by
  rw [ConnectionProviderHolder.close, Disposal.close_of_isOpen hopen]
  dsimp only
  rw [Disposal.after_succ hopen, Disposal.close_of_isClosed rfl, if_neg hqueue]
  simp

/-- Of two pools the second `close()` of the holder reaches only the read-only one. -/
theorem close_aurora {ro rw : Disposal} (hro : ro.pool.isClosed = false)
    (hrw : rw.pool.isClosed = false) (hqueue : ro.pool.recycledConnections ≠ []) :
    (ConnectionProviderHolder.aurora ro rw).close = (.aurora (ro.after 1) (rw.after 1), none) ∧
      (ConnectionProviderHolder.aurora (ro.after 1) (rw.after 1)).close =
        (.aurora (ro.after 2) (rw.after 1), some .classCastException) := by
  constructor
  · rw [ConnectionProviderHolder.close, Disposal.close_of_isOpen hro]
    dsimp only
    rw [Disposal.close_of_isOpen hrw, Disposal.after, Disposal.after, Disposal.after,
      Disposal.after, Disposal.close_of_isOpen hro, Disposal.close_of_isOpen hrw]
  · have hthrown := Disposal.thrown_succ hro 0
    rw [if_neg fun h => hqueue (List.length_eq_zero_iff.mp (Nat.le_zero.mp h))] at hthrown
    have hclose : (ro.after 1).close = (ro.after 2, some .classCastException) :=
      Prod.ext rfl hthrown
    rw [ConnectionProviderHolder.close, hclose]

end AuroraSizing.Pool
