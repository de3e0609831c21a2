import AuroraSizing.Foundation.CommitOrder
import AuroraSizing.Objects.Tables
import AuroraSizing.Transaction.LostUpdate

/-!
# Concurrent streams against one transaction at a time

`Recorded` is the server of any number of streams with a log beside it: the statements
each commit made durable, in the order of the commits, and those each connection has
open. With the unique indexes of `objects` enforced, the committed rows are at every
moment those of the log run statement after statement on the initial table, each
statement changing one row, and each connection sees them with its own statements on
top.
-/

namespace AuroraSizing

open Foundation.CommitOrder

/-! ## Statements alone on a table -/

/-- What the statement does to the rows of `objects`; a log row does nothing. -/
def Stmt.statement (s : Stmt) : Statement ObjectRow :=
  match s, s.key? with
  | .insertRecords row, _ => .insert row
  | _, some k => .rewrite k.matches s.rewrite
  | _, none => .rewrite (fun _ => false) some

theorem Stmt.statement_of_key {s : Stmt} {k : RowKey} (h : s.key? = some k) :
    s.statement = .rewrite k.matches s.rewrite := by
  cases s with
  | updateRecords | renameRecords | deleteRecords =>
      cases h
      rfl
  | insertRecords | insertTransHeader | insertTransParts => cases h

theorem Stmt.run_statement (s : Stmt) (rows : List ObjectRow) :
    s.statement.run rows = s.run rows := by
  cases s with
  | insertRecords | updateRecords | renameRecords | deleteRecords => rfl
  | insertTransHeader | insertTransParts => exact List.filterMap_some

/-- Two rows share a value under one of the unique indexes; `object_typeid_name` says no more
than `object_lower_name`. -/
def Clash (a b : ObjectRow) : Prop := a.name = b.name ∨ a.nameLower = b.nameLower

instance (a b : ObjectRow) : Decidable (Clash a b) := inferInstanceAs (Decidable (_ ∨ _))

theorem Clash.symm (a b : ObjectRow) (h : Clash a b) : Clash b a := h.imp Eq.symm Eq.symm

/-- Two rows one statement addresses have one name. -/
theorem Stmt.clash_of_sel {s : Stmt} {sel : ObjectRow → Bool} {f : ObjectRow → Option ObjectRow}
    (h : s.statement = .rewrite sel f) {a b : ObjectRow} (ha : sel a = true) (hb : sel b = true) :
    Clash a b := by
  cases s with
  | insertRecords => cases h
  | updateRecords | renameRecords | deleteRecords =>
      cases h
      exact .inl (congrArg RowKey.name
        ((RowKey.matches_iff.mp ha).trans (RowKey.matches_iff.mp hb).symm))
  | insertTransHeader | insertTransParts =>
      cases h
      cases ha

/-- The statement, if it changes one row and the unique indexes allow it. -/
def ObjectsTable.execute (table : ObjectsTable) (s : Stmt) : Option ObjectsTable :=
  if s.affected table.rows = 1 then ObjectsTable.ofRows (s.run table.rows) else none

def ObjectsTable.executeAll (table : ObjectsTable) (ss : List Stmt) : Option ObjectsTable :=
  ss.foldlM ObjectsTable.execute table

theorem ObjectsTable.ofRows_of_distinct {rows : List ObjectRow} {t : Rows ObjectRow} {n : ℕ}
    (hrows : rows.Perm (t.list n)) (h : Distinct Clash t) :
    ∃ table, ObjectsTable.ofRows rows = some table ∧ table.rows = rows := by
  have hunique : ∀ {κ : Type} (key : ObjectRow → κ), (∀ a b, key a = key b → Clash a b) →
      Foundation.KeyedRows.Unique key rows := fun key hkey =>
    ((hrows.map key).nodup_iff).mpr (h.nodup_map hkey n)
  exact ⟨_, dif_pos ⟨hunique _ fun a b heq => .inr (Prod.mk.inj heq).2,
    hunique _ fun a b heq => .inr heq, hunique _ fun a b heq => .inl heq⟩, rfl⟩

/-- **Serial writes are the statements run on a table.** -/
theorem executeAll_of_serial {t : Rows ObjectRow} {n : ℕ} {ws : List (Write Stmt ObjectRow)}
    (h : Serial Stmt.statement Clash t ws) (hdistinct : Distinct Clash t)
    (hbounded : ∀ w ∈ ws, w.row < n) {table : ObjectsTable} (htable : table.rows.Perm (t.list n)) :
    ∃ table', table.executeAll (ws.map Write.stmt) = some table' ∧
      table'.rows.Perm ((t.after ws).list n) := by
  induction ws generalizing t table with
  | nil => exact ⟨table, rfl, htable⟩
  | cons w ws ih =>
      obtain ⟨hwrites, hdistinct', hrest⟩ := h
      obtain ⟨hrun, haffected⟩ := hwrites.run_perm hdistinct
        (fun sel f hden a b => Stmt.clash_of_sel hden) (hbounded w List.mem_cons_self)
      obtain ⟨hrun', haffected'⟩ := w.stmt.statement.run_perm htable
      have hperm := hrun'.trans hrun
      rw [Stmt.run_statement] at hperm
      obtain ⟨next, hnext, hrows⟩ := ObjectsTable.ofRows_of_distinct hperm hdistinct'
      have hone : w.stmt.affected table.rows = 1 := by
        rw [haffected] at haffected'
        cases hstmt : w.stmt with
        | insertRecords | insertTransHeader | insertTransParts => rfl
        | updateRecords | renameRecords | deleteRecords =>
            rw [hstmt] at haffected'
            exact haffected'
      obtain ⟨table', hall, hlast⟩ := ih hrest hdistinct'
        (fun u hu => hbounded u (List.mem_cons_of_mem _ hu)) (hrows ▸ hperm)
      refine ⟨table', ?_, hlast⟩
      rw [List.map_cons, ObjectsTable.executeAll, List.foldlM_cons, ObjectsTable.execute,
        if_pos hone, hnext]
      exact hall

namespace Transaction

open Foundation.RowLocks Foundation.System

/-! ## The log of the commits -/

/-- The statements on `objects` that each commit made durable, in the order of the commits, and
those each connection has open. -/
structure CommitLog where
  committed : List (List Stmt)
  opened : ℕ → List Stmt

def CommitLog.record (log : CommitLog) (connection : ℕ) : Action → CommitLog
  | .execute stmt rows _ =>
      match stmt with
      | .insertTransHeader _ | .insertTransParts _ => log
      | _ =>
          if rows = 0 then log
          else { log with
            opened := Function.update log.opened connection (log.opened connection ++ [stmt]) }
  | .commit true =>
      { committed := log.committed ++ [log.opened connection]
        opened := Function.update log.opened connection [] }
  | .rollback true => { log with opened := Function.update log.opened connection [] }
  | .commit false | .rollback false | .close _ | .respond _ => log

/-- The call a move makes on a connection. -/
def Server.performs (s : Server) : Move → Option (ℕ × Action)
  | .call stream =>
      (s.lines stream).bind fun l => l.calls.head?.map fun a => (l.connection, a)
  | .accept .. | .deliver .. | .scan _ | .finish _ => none

structure Recorded where
  server : Server
  log : CommitLog

namespace Recorded

def start (rows : List ObjectRow) : Recorded := ⟨.start rows, [], fun _ => []⟩

def step (jdk : Jdk) (s : Recorded) (m : Move) : Option Recorded :=
  (s.server.step jdk m).map fun server =>
    ⟨server, ((s.server.performs m).map fun p => s.log.record p.1 p.2).getD s.log⟩

/-- What a move does, and when. -/
inductive Moves (jdk : Jdk) (s : Recorded) : Move → Recorded → Prop
  | accept {stream connection : ℕ} {resultSet : Option JLong}
      (absent : s.server.lines stream = none) :
      Moves jdk s (.accept stream connection resultSet)
        ⟨s.server.setLine stream ⟨connection, Stream.start resultSet, none, [], none⟩, s.log⟩
  | deliver {stream : ℕ} {e : Event} {l : Line} (line : s.server.lines stream = some l)
      (idle : l.callback = none) :
      Moves jdk s (.deliver stream e)
        ⟨s.server.setLine stream { l with
          callback := some e
          calls := (l.stream.observer.callback jdk e).2.trace }, s.log⟩
  | scan {stream : ℕ} {l : Line} {stmt : Stmt} {rows : ℕ} {raised : Bool} {calls : List Action}
      {k : RowKey} (line : s.server.lines stream = some l)
      (next : l.calls = .execute stmt rows raised :: calls) (unscanned : l.found = none)
      (key : stmt.key? = some k) :
      Moves jdk s (.scan stream)
        ⟨s.server.setLine stream { l with
          found := some (s.server.objects.candidates l.connection k.matches) }, s.log⟩
  | call {stream : ℕ} {l : Line} {a : Action} {calls : List Action} {objects : Store Tag ObjectRow}
      (line : s.server.lines stream = some l) (next : l.calls = a :: calls)
      (performed : perform s.server.objects stream l a = some objects) :
      Moves jdk s (.call stream)
        ⟨({ s.server with objects := objects } : Server).setLine stream { l with
          calls := calls
          found := none }, s.log.record l.connection a⟩
  | finish {stream : ℕ} {l : Line} {e : Event} (line : s.server.lines stream = some l)
      (running : l.callback = some e) (served : l.calls = []) :
      Moves jdk s (.finish stream)
        ⟨s.server.setLine stream { l with
          stream := l.stream.deliver jdk e
          callback := none }, s.log⟩

theorem step_cases {jdk : Jdk} {s s' : Recorded} {m : Move} (h : step jdk s m = some s') :
    Moves jdk s m s' := by
  obtain ⟨server, hserver, rfl⟩ := Option.map_eq_some_iff.mp h
  cases m with
  | accept stream connection resultSet =>
      simp only [Server.step] at hserver
      split at hserver
      case h_1 habsent =>
        obtain rfl := Option.some.inj hserver
        exact .accept habsent
      case h_2 => cases hserver
  | deliver stream e =>
      obtain ⟨l, hline, hmap⟩ := Option.bind_eq_some_iff.mp hserver
      obtain ⟨l', hl', rfl⟩ := Option.map_eq_some_iff.mp hmap
      unfold Line.deliver at hl'
      split at hl'
      case h_1 hidle =>
        obtain rfl := Option.some.inj hl'
        exact .deliver hline hidle
      case h_2 => cases hl'
  | scan stream =>
      obtain ⟨l, hline, hmap⟩ := Option.bind_eq_some_iff.mp hserver
      obtain ⟨l', hl', rfl⟩ := Option.map_eq_some_iff.mp hmap
      unfold Line.scan at hl'
      split at hl'
      case h_1 hnext hunscanned =>
        obtain ⟨k, hkey, rfl⟩ := Option.map_eq_some_iff.mp hl'
        exact .scan hline hnext hunscanned hkey
      case h_2 => cases hl'
  | call stream =>
      obtain ⟨l, hline, hcall⟩ := Option.bind_eq_some_iff.mp hserver
      cases hnext : l.calls with
      | nil =>
          simp only [Server.call, hnext] at hcall
          cases hcall
      | cons a calls =>
          simp only [Server.call, hnext] at hcall
          obtain ⟨objects, hperformed, rfl⟩ := Option.map_eq_some_iff.mp hcall
          have hperforms : s.server.performs (.call stream) = some (l.connection, a) := by
            simp only [Server.performs, hline, Option.bind_some, hnext, List.head?_cons,
              Option.map_some]
          rw [hperforms]
          exact .call hline hnext hperformed
  | finish stream =>
      obtain ⟨l, hline, hmap⟩ := Option.bind_eq_some_iff.mp hserver
      obtain ⟨l', hl', rfl⟩ := Option.map_eq_some_iff.mp hmap
      unfold Line.finish at hl'
      split at hl'
      case h_1 e hrunning hserved =>
        obtain rfl := Option.some.inj hl'
        exact .finish hline hrunning hserved
      case h_2 => cases hl'

/-- The log only watches. -/
theorem run_of_server {jdk : Jdk} {moves : List Move} {s : Recorded} {server : Server}
    (h : run (Server.step jdk) s.server moves = some server) :
    ∃ log, run (step jdk) s moves = some ⟨server, log⟩ := by
  induction moves generalizing s with
  | nil =>
      obtain rfl := run_nil_eq_some.mp h
      exact ⟨s.log, rfl⟩
  | cons m moves ih =>
      obtain ⟨next, hnext, hrest⟩ := run_cons_eq_some.mp h
      obtain ⟨log, hlog⟩ := ih (s := ⟨next,
        ((s.server.performs m).map fun p => s.log.record p.1 p.2).getD s.log⟩) hrest
      refine ⟨log, run_cons_eq_some.mpr ⟨_, ?_, hlog⟩⟩
      rw [step, hnext]
      rfl

end Recorded

/-! ## The unique indexes -/

/-- The rows that the statement is about to store, with their places. -/
def stores (objects : Store Tag ObjectRow) (l : Line) (stmt : Stmt) : List (ℕ × ObjectRow) :=
  match stmt, stmt.key?, l.found with
  | .insertRecords row, _, _ => [(objects.size, row)]
  | stmt, some k, some found =>
      (objects.matching l.connection k.matches found).filterMap fun r =>
        (objects.visible l.connection r).bind fun v =>
          (stmt.rewrite v.value).map fun row => (r, row)
  | _, _, _ => []

/-- A statement of the streams that changes rows gets past the unique indexes: what it stores
clashes with no row its connection sees, and with none another connection has stored and not
committed, for which the database makes it wait. -/
def IndexesHold (s : Server) : Move → Prop
  | .call stream => ∀ l, s.lines stream = some l → ∀ stmt rows raised calls,
      l.calls = .execute stmt rows raised :: calls → rows ≠ 0 →
      ∀ p ∈ stores s.objects l stmt, Admits Clash s.objects l.connection p.1 p.2
  | .accept .. | .deliver .. | .scan _ | .finish _ => True

/-! ## One call -/

/-- The log a history of row writes stands for. -/
def logOf (h : History Stmt ObjectRow) : CommitLog where
  committed := h.committed.map fun ws => ws.map Write.stmt
  opened := fun c => (h.opened c).map Write.stmt

theorem logOf_push (h : History Stmt ObjectRow) (c : ℕ) (w : Write Stmt ObjectRow) :
    logOf (h.push c w) = { logOf h with
      opened := Function.update (logOf h).opened c ((logOf h).opened c ++ [w.stmt]) } := by
  refine congrArg (CommitLog.mk _) (funext fun c' => ?_)
  by_cases hc : c' = c
  · subst hc
    rw [History.push_self, Function.update_self, List.map_append]
    rfl
  · rw [History.push_of_ne h w hc, Function.update_of_ne hc]
    rfl

theorem map_update_nil (opened : ℕ → List (Write Stmt ObjectRow)) (c : ℕ) :
    (fun c' => (Function.update opened c [] c').map Write.stmt) =
      Function.update (fun c' => (opened c').map Write.stmt) c [] := by
  funext c'
  by_cases hc : c' = c
  · subst hc
    rw [Function.update_self, Function.update_self]
    rfl
  · rw [Function.update_of_ne hc, Function.update_of_ne hc]

theorem logOf_commit (h : History Stmt ObjectRow) (c : ℕ) :
    logOf (h.commit c) = (logOf h).record c (.commit true) := by
  unfold logOf CommitLog.record History.commit
  rw [map_update_nil, List.map_append]
  rfl

theorem logOf_rollback (h : History Stmt ObjectRow) (c : ℕ) :
    logOf (h.rollback c) = (logOf h).record c (.rollback true) := by
  unfold logOf CommitLog.record History.rollback
  rw [map_update_nil]

variable {t₀ : Rows ObjectRow} {objects objects' : Store Tag ObjectRow}
  {h : History Stmt ObjectRow} {l : Line} {stream : ℕ}

theorem stores_of_key {stmt : Stmt} {k : RowKey} {found : List ℕ} (hkey : stmt.key? = some k)
    (hfound : l.found = some found) : stores objects l stmt =
      (objects.matching l.connection k.matches found).filterMap fun r =>
        (objects.visible l.connection r).bind fun v =>
          (stmt.rewrite v.value).map fun row => (r, row) := by
  cases stmt with
  | updateRecords | renameRecords | deleteRecords =>
      cases hkey
      simp only [stores, Stmt.key?, hfound]
  | insertRecords | insertTransHeader | insertTransParts => cases hkey

/-- An update, rename or delete writes one row, or changes none. -/
theorem follows_rewrite (stream : ℕ) (hf : Follows Stmt.statement Clash t₀ objects h)
    (h₀ : Distinct Clash t₀) {stmt : Stmt} {k : RowKey} {found : List ℕ}
    (hkey : stmt.key? = some k) (hfound : l.found = some found) (hnodup : found.Nodup)
    (hfree : ∀ r ∈ found, objects.blocked l.connection r = false)
    (hindex : objects.matching l.connection k.matches found ≠ [] →
      ∀ p ∈ stores objects l stmt, Admits Clash objects l.connection p.1 p.2) :
    ∃ h', Follows Stmt.statement Clash t₀
        (objects.rewrite l.connection ⟨stream, k⟩ k.matches stmt.rewrite found) h' ∧
      logOf h' = (logOf h).record l.connection (.execute stmt
        (objects.matching l.connection k.matches found).length false) := by
  have hone : ∀ r r', r ∈ objects.matching l.connection k.matches found →
      r' ∈ objects.matching l.connection k.matches found → r = r' := by
    intro r r' hr hr'
    obtain ⟨-, v, hv, hsel⟩ := mem_matching.mp hr
    obtain ⟨-, v', hv', hsel'⟩ := mem_matching.mp hr'
    by_contra hne
    refine hf.seen_distinct h₀ l.connection r r' v.value v'.value hne ?_ ?_
      (Stmt.clash_of_sel (Stmt.statement_of_key hkey) hsel hsel')
    · rw [seenRows, hv]
      rfl
    · rw [seenRows, hv']
      rfl
  have hrecord : ∀ n, (logOf h).record l.connection (.execute stmt n false) =
      if n = 0 then logOf h
      else { logOf h with
        opened := Function.update (logOf h).opened l.connection
          ((logOf h).opened l.connection ++ [stmt]) } := by
    intro n
    cases stmt with
    | updateRecords | renameRecords | deleteRecords => rfl
    | insertRecords | insertTransHeader | insertTransParts => cases hkey
  rcases rewrite_cases (f := stmt.rewrite) hnodup hone with
    ⟨hnil, hsame⟩ | ⟨r, v, hr, hv, hsel, hsingle, hwrite⟩
  · refine ⟨h, ?_, ?_⟩
    · rw [hsame]
      exact hf
    · rw [hnil, hrecord]
      rfl
  · refine ⟨h.push l.connection ⟨stmt, r, stmt.rewrite v.value⟩, ?_, ?_⟩
    · rw [hwrite]
      refine hf.rewriteRow Clash.symm h₀ (Stmt.statement_of_key hkey) (hfree r hr) hv hsel ?_
      intro a ha
      refine hindex (by rw [hsingle]; exact List.cons_ne_nil _ _) (r, a) ?_
      rw [stores_of_key hkey hfound, hsingle, List.mem_filterMap]
      exact ⟨r, List.mem_singleton_self r, by rw [hv, Option.bind_some, ha]; rfl⟩
    · rw [hsingle, hrecord, logOf_push]
      rfl

/-- What an executed statement has done. -/
theorem perform_execute {stmt : Stmt} {rows : ℕ} {raised : Bool}
    (hp : perform objects stream l (.execute stmt rows raised) = some objects') :
    (rows = 0 ∧ objects' = objects) ∨
    (∃ row, stmt = .insertRecords row ∧ rows = 1 ∧ objects' = objects.insert l.connection row) ∨
    (∃ k found, stmt.key? = some k ∧ l.found = some found ∧
      (∀ r ∈ found, objects.blocked l.connection r = false) ∧
      rows = (objects.matching l.connection k.matches found).length ∧
      objects' = objects.rewrite l.connection ⟨stream, k⟩ k.matches stmt.rewrite found) ∨
    (objects' = objects ∧ ∀ log : CommitLog,
      log.record l.connection (.execute stmt rows raised) = log) := by
  simp only [perform] at hp
  split at hp
  case isTrue hraised => exact .inl ⟨hraised.1, (Option.some.inj hp).symm⟩
  case isFalse =>
    cases stmt with
    | insertRecords row =>
        simp only at hp
        split at hp
        case isTrue hrows => exact .inr (.inl ⟨row, rfl, hrows, (Option.some.inj hp).symm⟩)
        case isFalse => cases hp
    | updateRecords _ k | renameRecords _ k | deleteRecords k =>
        simp only [Stmt.key?] at hp
        cases hfound : l.found with
        | none =>
            rw [hfound] at hp
            cases hp
        | some found =>
            simp only [hfound] at hp
            split at hp
            case isTrue hgo =>
              refine .inr (.inr (.inl ⟨k, found, rfl, rfl, ?_, hgo.2, (Option.some.inj hp).symm⟩))
              intro r hr
              simpa using List.all_eq_true.mp hgo.1 r hr
            case isFalse => cases hp
    | insertTransHeader row | insertTransParts row =>
        simp only [Stmt.key?] at hp
        split at hp
        case isTrue =>
          exact .inr (.inr (.inr ⟨(Option.some.inj hp).symm, fun _ => rfl⟩))
        case isFalse => cases hp

/-- What a call does to the store, the log says. -/
theorem follows_perform (hf : Follows Stmt.statement Clash t₀ objects h)
    (h₀ : Distinct Clash t₀) (hnodup : ∀ found, l.found = some found → found.Nodup) {a : Action}
    (hindex : ∀ stmt rows raised, a = .execute stmt rows raised → rows ≠ 0 →
      ∀ p ∈ stores objects l stmt, Admits Clash objects l.connection p.1 p.2)
    (hp : perform objects stream l a = some objects') :
    ∃ h', Follows Stmt.statement Clash t₀ objects' h' ∧
      logOf h' = (logOf h).record l.connection a := by
  cases a with
  | execute stmt rows raised =>
      rcases perform_execute hp with ⟨rfl, rfl⟩ | ⟨row, rfl, rfl, rfl⟩ |
        ⟨k, found, hkey, hfound, hfree, rfl, rfl⟩ | ⟨rfl, hrecord⟩
      · refine ⟨h, hf, ?_⟩
        cases stmt <;> rfl
      · refine ⟨h.push l.connection ⟨.insertRecords row, objects.size, some row⟩,
          hf.insert Clash.symm h₀ rfl ?_, logOf_push ..⟩
        exact hindex _ 1 raised rfl Nat.one_ne_zero (objects.size, row) (List.mem_singleton_self _)
      · obtain ⟨h', hf', hlog⟩ := follows_rewrite stream hf h₀ hkey hfound
          (hnodup found hfound) hfree fun hne => hindex stmt _ raised rfl
            fun hzero => hne (List.length_eq_zero_iff.mp hzero)
        refine ⟨h', hf', ?_⟩
        rw [hlog]
        cases stmt <;> rfl
      · exact ⟨h, hf, (hrecord (logOf h)).symm⟩
  | commit ok =>
      cases ok with
      | true =>
          obtain rfl := Option.some.inj hp
          exact ⟨h.commit l.connection, hf.commit Clash.symm h₀ _, logOf_commit ..⟩
      | false =>
          obtain rfl := Option.some.inj hp
          exact ⟨h, hf, rfl⟩
  | rollback ok =>
      cases ok with
      | true =>
          obtain rfl := Option.some.inj hp
          exact ⟨h.rollback l.connection, hf.rollback _, logOf_rollback ..⟩
      | false =>
          obtain rfl := Option.some.inj hp
          exact ⟨h, hf, rfl⟩
  | close ok =>
      obtain rfl := Option.some.inj hp
      exact ⟨h, hf, rfl⟩
  | respond m =>
      obtain rfl := Option.some.inj hp
      exact ⟨h, hf, rfl⟩

/-! ## Whole runs -/

/-- The committed rows of `objects`, in the order they were inserted. -/
def Server.committed (s : Server) : List ObjectRow :=
  (committedRows s.objects).list s.objects.size

/-- The rows a connection sees. -/
def Server.seen (s : Server) (connection : ℕ) : List ObjectRow :=
  (seenRows s.objects connection).list s.objects.size

namespace Recorded

/-- The log says what the store holds, and no line has found a row twice. -/
structure Inv (t₀ : Rows ObjectRow) (s : Recorded) : Prop where
  follows : ∃ h, Follows Stmt.statement Clash t₀ s.server.objects h ∧ logOf h = s.log
  nodup : ∀ stream l found, s.server.lines stream = some l → l.found = some found → found.Nodup

theorem inv_start (rows : List ObjectRow) :
    Inv (committedRows (Store.load rows : Store Tag ObjectRow)) (start rows) where
  follows := by
    have hinv : (Store.load rows : Store Tag ObjectRow).Inv Carries := Store.inv_load rows
    exact ⟨.empty, Follows.start (load_clean rows) fun r hr => (hinv.beyond r hr).1, rfl⟩
  nodup := by
    intro stream l found hl
    cases hl

theorem Inv.setLine {s : Recorded} (h : Inv t₀ s) (stream : ℕ) {l : Line}
    (hfound : ∀ found, l.found = some found → found.Nodup) :
    Inv t₀ ⟨s.server.setLine stream l, s.log⟩ where
  follows := h.follows
  nodup := by
    intro stream' l' found hl hl'
    rcases Server.setLine_cases hl with ⟨rfl, rfl⟩ | hl
    · exact hfound found hl'
    · exact h.nodup stream' l' found hl hl'

theorem inv_call {s : Recorded} {l : Line} {a : Action} {calls : List Action}
    {objects : Store Tag ObjectRow} (h : Inv t₀ s) (h₀ : Distinct Clash t₀)
    (hindex : IndexesHold s.server (.call stream)) (hl : s.server.lines stream = some l)
    (hcalls : l.calls = a :: calls)
    (hperform : perform s.server.objects stream l a = some objects) :
    Inv t₀ ⟨({ s.server with objects := objects } : Server).setLine stream
      { l with calls := calls, found := none }, s.log.record l.connection a⟩ := by
  obtain ⟨history, hf, hlog⟩ := h.follows
  obtain ⟨history', hf', hlog'⟩ := follows_perform hf h₀
    (fun found => h.nodup stream l found hl)
    (fun stmt rows raised ha => hindex l hl stmt rows raised calls (ha ▸ hcalls)) hperform
  have hafter : Inv t₀ ⟨{ s.server with objects := objects }, s.log.record l.connection a⟩ :=
    ⟨⟨history', hf', by rw [hlog', hlog]⟩, h.nodup⟩
  apply hafter.setLine stream
  intro found hnone
  cases hnone

theorem inv_step {jdk : Jdk} {s s' : Recorded} {m : Move} (h : Inv t₀ s) (h₀ : Distinct Clash t₀)
    (hindex : IndexesHold s.server m) (hs : step jdk s m = some s') : Inv t₀ s' := by
  cases step_cases hs with
  | accept =>
      apply h.setLine
      intro found hnone
      cases hnone
  | @deliver stream e l hl => exact h.setLine stream fun found => h.nodup stream l found hl
  | scan =>
      apply h.setLine
      intro found hfound
      cases hfound
      exact List.nodup_range.filter _
  | call hl hcalls hperform => exact inv_call h h₀ hindex hl hcalls hperform
  | @finish stream l e hl => exact h.setLine stream fun found => h.nodup stream l found hl

/-- The unique indexes hold along a run whether one keeps the log or not. -/
theorem along_of_server {jdk : Jdk} {moves : List Move} {s : Recorded}
    (h : Along (Server.step jdk) IndexesHold s.server moves) :
    Along (step jdk) (fun s m => IndexesHold s.server m) s moves := by
  induction moves generalizing s with
  | nil => trivial
  | cons m moves ih =>
      refine ⟨h.1, ?_⟩
      cases hs : step jdk s m with
      | none => trivial
      | some s' =>
          obtain ⟨server, hserver, rfl⟩ := Option.map_eq_some_iff.mp hs
          exact ih (h.tail hserver)

end Recorded

/-- The rows of a table are distinct. -/
theorem distinct_load (table : ObjectsTable) :
    Distinct Clash (committedRows (Store.load table.rows : Store Tag ObjectRow)) := by
  have hplace : ∀ {κ : Type} (key : ObjectRow → κ), Foundation.KeyedRows.Unique key table.rows →
      ∀ (r r' : ℕ) (a b : ObjectRow), table.rows[r]? = some a → table.rows[r']? = some b →
        key a = key b → r = r' := by
    intro κ key hunique r r' a b ha hb heq
    have hr : r < (table.rows.map key).length :=
      List.length_map key ▸ (List.getElem?_eq_some_iff.mp ha).1
    refine (List.getElem?_inj hr hunique).mp ?_
    rw [List.getElem?_map, List.getElem?_map, ha, hb, Option.map_some, Option.map_some, heq]
  intro r r' a b hne ha hb hclash
  rw [committedRows_load] at ha hb
  rcases hclash with hname | hlower
  · exact hne (hplace _ table.objectName r r' a b ha hb hname)
  · exact hne (hplace _ table.objectLowerName r r' a b ha hb hlower)

/-- What the log says of the tables: the committed one, and the one each connection sees. -/
theorem tables_of_inv {table₀ : ObjectsTable} {s : Recorded}
    (h : s.Inv (committedRows (Store.load table₀.rows : Store Tag ObjectRow))) :
    ∃ table, table₀.executeAll s.log.committed.flatten = some table ∧
      table.rows.Perm s.server.committed ∧
      ∀ c, ∃ seen, table.executeAll (s.log.opened c) = some seen ∧
        seen.rows.Perm (s.server.seen c) := by
  obtain ⟨history, hf, hlog⟩ := h.follows
  have h₀ := distinct_load table₀
  have hsize : s.server.objects.size ≤ max s.server.objects.size table₀.rows.length :=
    Nat.le_max_left ..
  have hstart : table₀.rows.Perm
      (Rows.list (committedRows (Store.load table₀.rows : Store Tag ObjectRow))
        (max s.server.objects.size table₀.rows.length)) := by
    rw [Rows.list_of_le (Nat.le_max_right ..), list_load]
    intro r hr
    rw [committedRows_load]
    exact List.getElem?_eq_none hr
  have hcommitted : s.log.committed.flatten = history.committed.flatten.map Write.stmt := by
    rw [← hlog, logOf, List.map_flatten]
  obtain ⟨table, hall, hrows⟩ := executeAll_of_serial hf.serial h₀
    (fun w hw => Nat.lt_of_lt_of_le (hf.bounded w hw) hsize) hstart
  refine ⟨table, by rw [hcommitted, hall], ?_, ?_⟩
  · rw [← hf.rows, Rows.list_of_le hsize] at hrows
    · exact hrows
    · intro r hr
      rw [committedRows, (hf.beyond r hr).1]
      rfl
  · intro c
    obtain ⟨seen, hseen, hrows'⟩ := executeAll_of_serial (hf.opened c) (hf.serial.distinct h₀)
      (fun w hw => Nat.lt_of_lt_of_le (hf.opened_bounded c w hw) hsize) hrows
    refine ⟨seen, by rw [← hlog]; exact hseen, ?_⟩
    rw [← hf.seen, Rows.list_of_le hsize] at hrows'
    · exact hrows'
    · intro r hr
      rw [seenRows, Store.visible, (hf.beyond r hr).2, (hf.beyond r hr).1]
      rfl

/-- The log of a run that keeps to the unique indexes. -/
theorem recorded_run {jdk : Jdk} {table₀ : ObjectsTable} {moves : List Move} {s : Server}
    (hrun : run (Server.step jdk) (Server.start table₀.rows) moves = some s)
    (hindex : Along (Server.step jdk) IndexesHold (Server.start table₀.rows) moves) :
    ∃ log, run (Recorded.step jdk) (Recorded.start table₀.rows) moves = some ⟨s, log⟩ ∧
      Recorded.Inv (committedRows (Store.load table₀.rows : Store Tag ObjectRow)) ⟨s, log⟩ := by
  obtain ⟨log, hlog⟩ := Recorded.run_of_server (s := Recorded.start table₀.rows) hrun
  refine ⟨log, hlog, ?_⟩
  exact run_invariant (fun s m s' h hok hs => Recorded.inv_step h (distinct_load table₀) hok hs)
    (Recorded.inv_start table₀.rows)
    (Recorded.along_of_server (s := Recorded.start table₀.rows) hindex) hlog

/-- **The order of the commits is a serial order**: after any interleaving of streams that the
unique indexes let through, the committed rows are what the statements of the committed
transactions make of the initial table, run one after another in the order of the commits, each
changing one row; and a connection sees them with what it has open run on top. -/
theorem commits_are_serial {jdk : Jdk} {table₀ : ObjectsTable} {moves : List Move} {s : Server}
    (hrun : run (Server.step jdk) (Server.start table₀.rows) moves = some s)
    (hindex : Along (Server.step jdk) IndexesHold (Server.start table₀.rows) moves) :
    ∃ log, run (Recorded.step jdk) (Recorded.start table₀.rows) moves = some ⟨s, log⟩ ∧
      ∃ table, table₀.executeAll log.committed.flatten = some table ∧
        table.rows.Perm s.committed ∧
        ∀ c, ∃ seen, table.executeAll (log.opened c) = some seen ∧
          seen.rows.Perm (s.seen c) := by
  obtain ⟨log, hlog, hinv⟩ := recorded_run hrun hindex
  exact ⟨log, hlog, tables_of_inv hinv⟩

/-! ## An insert beside an update -/

namespace Server

def testTable : ObjectsTable :=
  ⟨[testSec], List.nodup_singleton _, List.nodup_singleton _, List.nodup_singleton _⟩

def insertOther : CmdTransactionRequest where
  transSeqValue := 1
  messageRequest := .insert
    { metadata :=
        { securityName := "Other", updateCount := 1, timeUpdate := "1970-01-01 00:00:00" } }

/-- One stream inserts and stays open, while the other updates `testSec` and commits. -/
def insertAndUpdate : List Move :=
  [.accept 0 0 (some 7), .accept 1 1 (some 8),
    .deliver 0 (.onNext insertOther, {}), .deliver 1 (.onNext (updateTo 2), {}),
    .call 0, .scan 1, .call 1, .call 1, .finish 1, .call 0, .finish 0] ++
  runCallback 1 (.onCompleted, {}) 3

theorem indexes_insertAndUpdate :
    Along (step Jdk.ascii) IndexesHold (start testTable.rows) insertAndUpdate := by
  have hload : ∀ row a, ¬ Clash testSec a ∨ row = 0 → ∀ c,
      Admits Clash (Store.load [testSec] : Store Tag ObjectRow) c row a := by
    intro row a ha c
    refine admits_load fun r v hr hv => ?_
    obtain ⟨hzero, rfl⟩ : r = 0 ∧ testSec = v := by
      rcases r with _ | r
      · exact ⟨rfl, Option.some.inj hv⟩
      · cases hv
    exact ha.resolve_right fun h => hr (hzero.trans h.symm)
  refine Along.cons trivial rfl <| Along.cons trivial rfl <| Along.cons trivial rfl <|
    Along.cons trivial rfl <| Along.cons ?_ rfl <| Along.cons trivial rfl <| Along.cons ?_ rfl <|
    Along.cons ?_ rfl <| Along.cons trivial rfl <| Along.cons ?_ rfl <| Along.cons trivial rfl <|
    Along.cons trivial rfl <| Along.cons ?_ rfl <| Along.cons ?_ rfl <| Along.cons ?_ rfl <|
    Along.cons trivial rfl trivial
  · intro l hl stmt rows raised calls hcalls hrows p hp
    cases hl
    cases hcalls
    cases List.mem_singleton.mp hp
    exact hload 1 _ (.inl (by decide)) 0
  · intro l hl stmt rows raised calls hcalls hrows p hp
    cases hl
    cases hcalls
    cases List.mem_singleton.mp hp
    exact (hload 0 _ (.inr rfl) 1).insert rfl (by decide) 0
  -- the other calls store nothing in `objects`
  all_goals
    intro l hl stmt rows raised calls hcalls hrows p hp
    cases hl
    cases hcalls <;> cases hp

end Server

/-- The update is committed, and the insert on top of it seen by its own connection. -/
theorem insertAndUpdate_serial :
    ∃ s : Server, s.committed.length = 1 ∧ (s.seen 0).length = 2 ∧
      ∃ log, run (Recorded.step Jdk.ascii) (Recorded.start Server.testTable.rows)
          Server.insertAndUpdate = some ⟨s, log⟩ ∧
        ∃ table, Server.testTable.executeAll log.committed.flatten = some table ∧
          table.rows.Perm s.committed ∧
          ∀ c, ∃ seen, table.executeAll (log.opened c) = some seen ∧
            seen.rows.Perm (s.seen c) := by
  have hrun : run (Server.step Jdk.ascii) (Server.start Server.testTable.rows)
      Server.insertAndUpdate = some _ := rfl
  exact ⟨_, by decide, by decide, commits_are_serial hrun Server.indexes_insertAndUpdate⟩

end Transaction

end AuroraSizing
