import AuroraSizing.Foundation.RoundRobin
import AuroraSizing.Foundation.System

/-!
# The contexts of the database

`Server` has one pool of `io_context`s for the database. `Connection` is given a reference to it
and keeps a copy: the contexts are shared, the cursor is not. Nothing ever moves the cursor of the
server's own pool, so every connection starts with the first context.
-/

namespace AuroraSizing.Wire

open Foundation.RoundRobin Foundation.System

/-- The contexts by their number; the cursor is at one of them. -/
structure IOContextPool where
  ioContexts : List ℕ
  nextIOContext : ℕ
  inBounds : nextIOContext < ioContexts.length

namespace IOContextPool

/-- The constructor throws for a size of 0. -/
def create (poolSize : ℕ) : Option IOContextPool :=
  if h : 0 < poolSize then
    some
      { ioContexts := List.range poolSize
        nextIOContext := 0
        inBounds := by rw [List.length_range]; exact h }
  else none

def getIOContext (p : IOContextPool) : ℕ × IOContextPool :=
  (p.ioContexts.get ⟨p.nextIOContext, p.inBounds⟩,
    { ioContexts := p.ioContexts
      nextIOContext := if p.nextIOContext + 1 = p.ioContexts.length then 0 else p.nextIOContext + 1
      inBounds := by
        have hbound := p.inBounds
        split <;> omega })

end IOContextPool

/-- The pools of a server, and the contexts its messages went to. -/
structure Server where
  repoContextPool : IOContextPool
  /-- The pool of each connection. -/
  connections : List IOContextPool
  dispatched : List ℕ

inductive ServerEvent where
  /-- `eventLoop` makes a connection. -/
  | accept
  /-- `Connection::read` of this connection has a message to process. -/
  | dispatch (connection : ℕ)
deriving DecidableEq, Repr

namespace Server

def create (dbContextPoolSize : ℕ) : Option Server :=
  (IOContextPool.create dbContextPoolSize).map fun pool => ⟨pool, [], []⟩

def step (s : Server) : ServerEvent → Option Server
  | .accept => some { s with connections := s.connections ++ [s.repoContextPool] }
  | .dispatch connection =>
      match s.connections[connection]? with
      | none => none
      | some pool =>
          let (dbContext, pool) := pool.getIOContext
          some { s with
            connections := s.connections.set connection pool
            dispatched := s.dispatched ++ [dbContext] }

/-- Any two of the `n` contexts have had as many messages, but for one. -/
def Balanced (n : ℕ) (s : Server) : Prop :=
  ∀ j < n, ∀ k < n, s.dispatched.count j ≤ s.dispatched.count k + 1

/-- At most one connection has had a number of messages that `n` does not divide. -/
def OneUneven (n : ℕ) (events : List ServerEvent) : Prop :=
  ∀ a b, events.count (.dispatch a) % n ≠ 0 → events.count (.dispatch b) % n ≠ 0 → a = b

/-! ## What a connection picks -/

/-- Every connection is where its own messages have brought it. -/
structure Picked (n : ℕ) (events : List ServerEvent) (s : Server) : Prop where
  repo : s.repoContextPool.ioContexts = List.range n ∧ s.repoContextPool.nextIOContext = 0
  cursors : ∀ i pool, s.connections[i]? = some pool → pool.ioContexts = List.range n ∧
    pool.nextIOContext = events.count (.dispatch i) % n
  absent : ∀ i, s.connections.length ≤ i → events.count (.dispatch i) = 0
  counts : ∀ k, s.dispatched.count k =
    ∑ i ∈ Finset.range s.connections.length, picks n (events.count (.dispatch i)) k

theorem picked_create {n : ℕ} {s : Server} (h : create n = some s) : 0 < n ∧ Picked n [] s := by
  obtain ⟨pool, hpool, rfl⟩ := Option.map_eq_some_iff.mp h
  unfold IOContextPool.create at hpool
  split at hpool
  case isFalse => cases hpool
  case isTrue hn =>
    cases hpool
    refine ⟨hn, ⟨rfl, rfl⟩, ?_, fun _ _ => rfl, fun _ => rfl⟩
    intro i pool hi
    cases hi

theorem count_concat (events : List ServerEvent) (e : ServerEvent) (i : ℕ) :
    (events ++ [e]).count (.dispatch i) =
      events.count (.dispatch i) + if e = .dispatch i then 1 else 0 := by
  rw [List.count_append, List.count_singleton]
  by_cases he : e = .dispatch i
  · simp [he]
  · simp [he]

/-- The new connection has had no message. -/
theorem picked_accept {n : ℕ} {events : List ServerEvent} {s : Server} (h : Picked n events s) :
    Picked n (events ++ [.accept])
      { s with connections := s.connections ++ [s.repoContextPool] } := by
  have hcount : ∀ i, (events ++ [ServerEvent.accept]).count (.dispatch i) =
      events.count (.dispatch i) := by
    intro i
    rw [count_concat, if_neg (by simp), Nat.add_zero]
  refine ⟨h.repo, ?_, ?_, ?_⟩
  · intro i pool hi
    rw [hcount]
    rcases Nat.lt_or_ge i s.connections.length with hlt | hge
    · rw [List.getElem?_append_left hlt] at hi
      exact h.cursors i pool hi
    · rw [List.getElem?_append_right hge] at hi
      obtain rfl := List.mem_singleton.mp (List.mem_of_getElem? hi)
      rw [h.absent i hge, Nat.zero_mod]
      exact h.repo
  · intro i hi
    rw [hcount]
    rw [List.length_append, List.length_singleton] at hi
    exact h.absent i (by omega)
  · intro k
    rw [List.length_append, List.length_singleton, Finset.sum_range_succ]
    simp only [hcount]
    rw [h.absent _ (Nat.le_refl _), picks_zero, Nat.add_zero]
    exact h.counts k

/-- The message goes to the context the cursor of its connection is at. -/
theorem picked_dispatch {n : ℕ} (hn : 0 < n) {events : List ServerEvent} {s : Server}
    {connection : ℕ} {pool : IOContextPool} (h : Picked n events s)
    (hpool : s.connections[connection]? = some pool) :
    Picked n (events ++ [.dispatch connection])
      { s with
        connections := s.connections.set connection pool.getIOContext.2
        dispatched := s.dispatched ++ [pool.getIOContext.1] } := by
  obtain ⟨hcontexts, hcursor⟩ := h.cursors connection pool hpool
  have hlt : connection < s.connections.length := (List.getElem?_eq_some_iff.mp hpool).1
  have hlength : pool.ioContexts.length = n := by rw [hcontexts, List.length_range]
  have hcontext : pool.getIOContext.1 = events.count (.dispatch connection) % n := by
    simp only [IOContextPool.getIOContext, hcontexts, List.get_eq_getElem, List.getElem_range]
    exact hcursor
  have hcount : ∀ i, (events ++ [ServerEvent.dispatch connection]).count (.dispatch i) =
      events.count (.dispatch i) + if i = connection then 1 else 0 := by
    intro i
    rw [count_concat]
    simp only [ServerEvent.dispatch.injEq, eq_comm]
  refine ⟨h.repo, ?_, ?_, ?_⟩
  · intro i pool' hi
    rw [hcount]
    rcases eq_or_ne i connection with rfl | hne
    · rw [List.getElem?_set_self hlt] at hi
      cases hi
      refine ⟨hcontexts, ?_⟩
      rw [if_pos rfl, ← succ_mod hn, ← hcursor, ← hlength]
      rfl
    · rw [List.getElem?_set_ne hne.symm] at hi
      rw [if_neg hne, Nat.add_zero]
      exact h.cursors i pool' hi
  · intro i hi
    rw [List.length_set] at hi
    rw [hcount, if_neg (by omega), Nat.add_zero]
    exact h.absent i hi
  · intro k
    have hmem : connection ∈ Finset.range s.connections.length := Finset.mem_range.mpr hlt
    have hrest : ∑ i ∈ (Finset.range s.connections.length).erase connection,
        picks n ((events ++ [ServerEvent.dispatch connection]).count (.dispatch i)) k =
          ∑ i ∈ (Finset.range s.connections.length).erase connection,
            picks n (events.count (.dispatch i)) k := by
      refine Finset.sum_congr rfl ?_
      intro i hi
      rw [hcount, if_neg (Finset.ne_of_mem_erase hi), Nat.add_zero]
    rw [List.length_set, List.count_append, List.count_singleton, h.counts k,
      ← Finset.add_sum_erase _ _ hmem, ← Finset.add_sum_erase _ _ hmem, hrest, hcount,
      if_pos rfl, picks_succ, hcontext]
    simp only [beq_iff_eq]
    omega

/-- Every run keeps the connections where their messages have brought them. -/
theorem picked_run {n : ℕ} {s₀ s : Server} {events : List ServerEvent}
    (hcreate : create n = some s₀) (hrun : run step s₀ events = some s) : Picked n events s := by
  obtain ⟨hn, hstart⟩ := picked_create hcreate
  induction events using List.reverseRecOn generalizing s with
  | nil =>
      obtain rfl := run_nil_eq_some.mp hrun
      exact hstart
  | append_singleton events e ih =>
      obtain ⟨s', hrun', hlast⟩ := run_append_eq_some.mp hrun
      have h := ih hrun'
      obtain ⟨s'', hstep, hnil⟩ := run_cons_eq_some.mp hlast
      obtain rfl := run_nil_eq_some.mp hnil
      cases e with
      | accept =>
          cases hstep
          exact picked_accept h
      | dispatch connection =>
          rw [step] at hstep
          split at hstep
          case h_1 => cases hstep
          case h_2 pool hpool =>
            cases hstep
            exact picked_dispatch hn h hpool

/-! ## When the contexts are used evenly -/

/-- **The contexts are used round-robin exactly when** all connections but one have gone round a
whole number of times. -/
theorem balanced_run_iff (n : ℕ) (s₀ s : Server) (events : List ServerEvent)
    (hcreate : create n = some s₀) (hrun : run step s₀ events = some s) :
    Balanced n s ↔ OneUneven n events := by
  have hpicked := picked_run hcreate hrun
  have hn := (picked_create hcreate).1
  have hiff := balanced_iff hn (Finset.range s.connections.length)
    fun i => events.count (.dispatch i)
  have hbalanced : Balanced n s ↔ ∀ a ∈ Finset.range s.connections.length,
      ∀ b ∈ Finset.range s.connections.length, events.count (.dispatch a) % n ≠ 0 →
        events.count (.dispatch b) % n ≠ 0 → a = b := by
    rw [← hiff, Balanced]
    simp only [hpicked.counts]
  have hpresent : ∀ a, events.count (.dispatch a) % n ≠ 0 →
      a ∈ Finset.range s.connections.length := by
    intro a ha
    rw [Finset.mem_range]
    by_contra hge
    rw [hpicked.absent a (by omega), Nat.zero_mod] at ha
    exact ha rfl
  rw [hbalanced]
  constructor
  · intro h a b ha hb
    exact h a (hpresent a ha) b (hpresent b hb) ha hb
  · intro h a _ b _ ha hb
    exact h a b ha hb

/-- One connection with three messages for two contexts. -/
theorem one_connection_balanced : ∃ s₀ s, create 2 = some s₀ ∧
    run step s₀ [.accept, .dispatch 0, .dispatch 0, .dispatch 0] = some s ∧
    (Balanced 2 s ↔ OneUneven 2 [.accept, .dispatch 0, .dispatch 0, .dispatch 0]) :=
  ⟨_, _, rfl, rfl, balanced_run_iff 2 _ _ _ rfl rfl⟩

/-- Two connections with one message each leave the second context without any. -/
theorem two_connections_unbalanced : ∃ s₀ s, create 2 = some s₀ ∧
    run step s₀ [.accept, .accept, .dispatch 0, .dispatch 1] = some s ∧
    s.dispatched = [0, 0] ∧ ¬ Balanced 2 s := by
  refine ⟨_, _, rfl, rfl, rfl, ?_⟩
  intro h
  exact absurd (h 0 (by decide) 1 (by decide)) (by decide)

end Server

end AuroraSizing.Wire
