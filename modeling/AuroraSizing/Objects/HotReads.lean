import AuroraSizing.Foundation.Raising
import AuroraSizing.Objects.SingleReads

/-!
# The connections of the hot reads

`getMemByKeyInBytes` closes its connection on the way to its end and nowhere else.
`getFullObject` has a `finally`, but there the connection comes last, after a result set that
is still `null` when the query raised and after two calls of `close()` that may raise
themselves. `released_iff` lists, for each, the calls that have to go through.
-/

namespace AuroraSizing.HotReads

open Foundation.Raising

/-- What a call of the driver may raise, by the `catch` that takes it. -/
inductive Raised where
  | sqlException
  | runtimeException
  | error
deriving DecidableEq, Repr

inductive Call where
  | getConnection
  | prepareStatement
  | setString
  | executeQuery
  /-- `rs.next()`, for the `i`-th time from 0. -/
  | next (i : ℕ)
  /-- A getter on the `i`-th row. -/
  | get (i : ℕ) (column : String)
  | closeResultSet
  | closeStatement
  | closeConnection
deriving DecidableEq, Repr

/-- What the driver does in one call of a read. -/
structure Driver where
  raises : Call → Option Raised
  /-- The provider answers `null`. -/
  nullConnection : Bool
  /-- The rows with this `nameLower`. -/
  found : String → List ObjectRow

/-- Which variables are not `null`, and the one that is returned. -/
structure Locals (α : Type) where
  connection : Bool
  stmt : Bool
  rs : Bool
  result : Option α

def Locals.start {α : Type} : Locals α := ⟨false, false, false, none⟩

abbrev Jdbc (α : Type) := Code Raised (Traced Call (Locals α))

variable {α : Type}

/-- A method is called on this variable. -/
def deref (v : Locals α → Bool) : Jdbc α Unit := do
  let s ← get
  if v s.locals then pure () else throw .runtimeException

/-! ## The mem -/

/-- `while (rs.next()) { arrayContainsMem = rs.getBytes("mem"); }` -/
def fetchMem (raises : Call → Option Raised) : ℕ → List ObjectRow → Jdbc Bytes Unit
  | i, [] => call raises (.next i)
  | i, row :: rows => do
      call raises (.next i)
      call raises (.get i "mem")
      assign fun v => { v with result := some row.mem }
      fetchMem raises (i + 1) rows

def ObjectRepository.getMemByKeyInBytes (jdk : Jdk) (d : Driver) (secKey : String) :
    Jdbc Bytes Unit :=
  tryCatch (do
      call d.raises .getConnection
      assign fun v => { v with connection := !d.nullConnection }
      deref Locals.connection
      call d.raises .prepareStatement
      call d.raises .setString
      call d.raises .executeQuery
      fetchMem d.raises 0 (d.found (jdk.toLowerCase secKey))
      call d.raises .closeResultSet
      call d.raises .closeStatement
      call d.raises .closeConnection)
    -- `catch (SQLException sqlException)`
    fun e => if e = .sqlException then pure () else throw e

/-! ## The whole object -/

/-- An `ObjectDTO` with the fields that were set. -/
structure PartialDTO where
  mem : Option Bytes
  name : Option String
  typeId : JInt
  lastTransaction : JLong
  updateCount : JLong
  dateCreated : JInt
  dbIdUpdated : JInt
  versionInfo : JInt
  timeUpdated : Option String
deriving DecidableEq, Repr

/-- `new ObjectDTO()` -/
def PartialDTO.new : PartialDTO := ⟨none, none, 0, 0, 0, 0, 0, 0, none⟩

/-- A getter, and the field it is for. -/
def getter (raises : Call → Option Raised) (column : String) (set : PartialDTO → PartialDTO) :
    Jdbc PartialDTO Unit := do
  call raises (.get 0 column)
  assign fun v => { v with result := v.result.map set }

/-- `if (rs.next())` -/
def fetchObject (jdk : Jdk) (raises : Call → Option Raised) : List ObjectRow → Jdbc PartialDTO Unit
  | [] => call raises (.next 0)
  | row :: _ => do
      call raises (.next 0)
      assign fun v => { v with result := some .new }
      getter raises "mem" fun d => { d with mem := some row.mem }
      getter raises "name" fun d => { d with name := some row.name }
      getter raises "typeId" fun d => { d with typeId := row.typeId }
      getter raises "lastTransaction" fun d => { d with lastTransaction := row.lastTransaction }
      getter raises "updateCount" fun d => { d with updateCount := row.updateCount }
      getter raises "dateCreated" fun d => { d with dateCreated := row.dateCreated }
      getter raises "dbIdUpdated" fun d => { d with dbIdUpdated := row.dbIdUpdated }
      getter raises "versionInfo" fun d => { d with versionInfo := row.versionInfo }
      getter raises "timeUpdated" fun d =>
        { d with timeUpdated := some (jdk.timestampText row.timeUpdated) }

/-- `catch (Exception exception)` -/
def catchException (e : Raised) : Jdbc α Unit := if e = .error then throw e else pure ()

def openAndFetch (jdk : Jdk) (d : Driver) (secKey : String) : Jdbc PartialDTO Unit := do
  call d.raises .getConnection
  assign fun v => { v with connection := !d.nullConnection }
  deref Locals.connection
  call d.raises .prepareStatement
  assign fun v => { v with stmt := true }
  call d.raises .setString
  call d.raises .executeQuery
  assign fun v => { v with rs := true }
  fetchObject jdk d.raises (d.found (jdk.toLowerCase secKey))

/-- The `try` in the `finally`. -/
def closeAll (d : Driver) : Jdbc PartialDTO Unit := do
  deref Locals.rs
  call d.raises .closeResultSet
  deref Locals.stmt
  call d.raises .closeStatement
  deref Locals.connection
  call d.raises .closeConnection

def ObjectRepository.getFullObject (jdk : Jdk) (d : Driver) (secKey : String) :
    Jdbc PartialDTO Unit :=
  tryFinally (tryCatch (openAndFetch jdk d secKey) catchException)
    (tryCatch (closeAll d) catchException)

/-! ## The release -/

inductive Read where
  | getMemByKeyInBytes
  | getFullObject
deriving DecidableEq, Repr

/-- The calls a read makes. -/
def Read.calls (jdk : Jdk) (d : Driver) (secKey : String) : Read → List Call
  | .getMemByKeyInBytes =>
      (execute (ObjectRepository.getMemByKeyInBytes jdk d secKey) ⟨[], .start⟩).2.calls
  | .getFullObject => (execute (ObjectRepository.getFullObject jdk d secKey) ⟨[], .start⟩).2.calls

/-- The provider answers with a connection. -/
def Driver.Obtained (d : Driver) : Prop :=
  d.raises .getConnection = none ∧ d.nullConnection = false

/-- A connection that was obtained is closed, once. -/
def Released (jdk : Jdk) (d : Driver) (secKey : String) (read : Read) : Prop :=
  d.Obtained → (read.calls jdk d secKey).count .closeConnection = 1

/-- The calls of the loop over so many rows. -/
def fetchCalls : ℕ → ℕ → List Call
  | i, 0 => [.next i]
  | i, n + 1 => .next i :: .get i "mem" :: fetchCalls (i + 1) n

/-- The calls that a read makes before it closes the connection, and that keep it from doing so
when they raise. -/
def Read.critical (rows : ℕ) : Read → List Call
  | .getMemByKeyInBytes =>
      [.prepareStatement, .setString, .executeQuery] ++ fetchCalls 0 rows ++
        [.closeResultSet, .closeStatement]
  | .getFullObject =>
      [.prepareStatement, .setString, .executeQuery, .closeResultSet, .closeStatement]

/-! ## One statement after another -/

/-- The connection is closed once exactly if nothing critical raised. -/
def Exact (raises : Call → Option Raised) (critical : List Call) (t : Traced Call (Locals α)) :
    Prop :=
  t.calls.count .closeConnection = 1 ↔ ∀ c ∈ critical, raises c = none

section

variable {raises : Call → Option Raised} {critical : List Call} {s t : Traced Call (Locals α)}

theorem exact_of_raised {c : Call} {e : Raised} (hcritical : c ∈ critical)
    (he : raises c = some e) (hopen : t.calls.count .closeConnection = 0) :
    Exact raises critical t := by
  refine iff_of_false ?_ ?_
  · rw [hopen]
    exact Nat.zero_ne_one
  · intro h
    rw [h c hcritical] at he
    cases he

theorem exact_of_closed (hcritical : ∀ c ∈ critical, raises c = none)
    (hclosed : t.calls.count .closeConnection = 1) : Exact raises critical t :=
  iff_of_true hclosed hcritical

section Deref

variable {β : Type} {v : Locals α → Bool} {f : Unit → Jdbc α β}
  {Q : Except Raised β → Traced Call (Locals α) → Prop} {calls : List Call} {l : Locals α}

theorem ends_deref_bind (h : v l = true) :
    Ends (deref v >>= f) Q ⟨calls, l⟩ ↔ Ends (f ()) Q ⟨calls, l⟩ := by
  rw [deref, ends_bind, ends_bind, ends_get]
  dsimp only
  rw [if_pos h, ends_pure]

theorem ends_deref_bind_of_null (h : v l = false) :
    Ends (deref v >>= f) Q ⟨calls, l⟩ ↔ Q (.error .runtimeException) ⟨calls, l⟩ := by
  rw [deref, ends_bind, ends_bind, ends_get]
  dsimp only
  rw [if_neg (by rw [h]; exact Bool.false_ne_true), ends_throw]

end Deref

/-- Neither catch changes anything. -/
theorem ends_catchException {e : Raised} {Q : Except Raised Unit → Traced Call (Locals α) → Prop}
    (h : ∀ r, Q r s) : Ends (catchException e) Q s := by
  unfold catchException
  split
  · exact h _
  · exact h _

/-! ## The loop over the mem -/

theorem fetchMem_spec (i : ℕ) (rows : List ObjectRow) (s : Traced Call (Locals Bytes)) :
    Ends (fetchMem raises i rows) (fun r t =>
      t.calls.count .closeConnection = s.calls.count .closeConnection ∧
        match r with
        | .ok _ => ∀ c ∈ fetchCalls i rows.length, raises c = none
        | .error e => ∃ c ∈ fetchCalls i rows.length, raises c = some e) s := by
  induction rows generalizing i s with
  | nil =>
      rw [fetchMem, ends_call]
      cases hnext : raises (.next i) with
      | none => simp [fetchCalls, hnext]
      | some e => simp [fetchCalls, hnext]
  | cons row rows ih =>
      rw [fetchMem, ends_call_bind]
      refine ⟨fun e he => ⟨by simp, .next i, by simp [fetchCalls], he⟩, fun hnext => ?_⟩
      rw [ends_call_bind]
      refine ⟨fun e he => ⟨by simp, .get i "mem", by simp [fetchCalls], he⟩, fun hget => ?_⟩
      rw [ends_assign_bind]
      refine (ih (i + 1) _).mono ?_
      rintro r t ⟨hcount, hcalls⟩
      refine ⟨by simpa using hcount, ?_⟩
      cases r with
      | ok _ =>
          intro c hc
          rcases List.mem_cons.mp hc with rfl | hc
          · exact hnext
          · rcases List.mem_cons.mp hc with rfl | hc
            · exact hget
            · exact hcalls c hc
      | error e =>
          obtain ⟨c, hc, he⟩ := hcalls
          exact ⟨c, List.mem_cons_of_mem _ (List.mem_cons_of_mem _ hc), he⟩

end

/-! ## The getters of the whole object -/

/-- The variables are as `null` as before, and no connection was closed. -/
structure Frame (s t : Traced Call (Locals α)) : Prop where
  connection : t.locals.connection = s.locals.connection
  stmt : t.locals.stmt = s.locals.stmt
  rs : t.locals.rs = s.locals.rs
  count : t.calls.count .closeConnection = s.calls.count .closeConnection

theorem Frame.trans {s t t' : Traced Call (Locals α)} (h : Frame s t) (h' : Frame t t') :
    Frame s t' :=
  ⟨h'.connection.trans h.connection, h'.stmt.trans h.stmt, h'.rs.trans h.rs,
    h'.count.trans h.count⟩

theorem frame_call {raises : Call → Option Raised} {c : Call} (hc : c ≠ .closeConnection) :
    Preserves Frame (call raises c : Jdbc α Unit) := by
  intro s
  rw [ends_call]
  exact ⟨rfl, rfl, rfl, by simp [hc]⟩

theorem frame_getter {raises : Call → Option Raised} (column : String)
    (set : PartialDTO → PartialDTO) : Preserves Frame (getter raises column set) :=
  (frame_call (by simp)).bind Frame.trans fun _ _ => ⟨rfl, rfl, rfl, rfl⟩

theorem frame_fetchObject (jdk : Jdk) (raises : Call → Option Raised) (rows : List ObjectRow) :
    Preserves Frame (fetchObject jdk raises rows) := by
  cases rows with
  | nil => exact frame_call (by simp)
  | cons row rows =>
      refine (frame_call (by simp)).bind Frame.trans fun _ => ?_
      refine Preserves.bind Frame.trans (fun _ => ⟨rfl, rfl, rfl, rfl⟩) fun _ => ?_
      iterate 8 refine (frame_getter _ _).bind Frame.trans fun _ => ?_
      exact frame_getter _ _

/-! ## The two reads -/

variable {jdk : Jdk} {d : Driver} {secKey : String}

theorem getMemByKeyInBytes_exact (h : d.Obtained) :
    Ends (ObjectRepository.getMemByKeyInBytes jdk d secKey)
      (fun _ t => Exact d.raises
        (Read.critical (d.found (jdk.toLowerCase secKey)).length .getMemByKeyInBytes) t)
      ⟨[], .start⟩ := by
  generalize hcritical :
    Read.critical (d.found (jdk.toLowerCase secKey)).length .getMemByKeyInBytes = critical
  have hmem : ∀ c, c ∈ critical ↔ c = .prepareStatement ∨ c = .setString ∨ c = .executeQuery ∨
      c ∈ fetchCalls 0 (d.found (jdk.toLowerCase secKey)).length ∨
      c = .closeResultSet ∨ c = .closeStatement := by
    intro c
    rw [← hcritical]
    simp [Read.critical]
  rw [ObjectRepository.getMemByKeyInBytes]
  refine ends_tryCatch_keeps ?_ ?_
  · rw [ends_call_bind, h.1]
    refine ⟨fun e he => (Option.some_ne_none e he.symm).elim, fun _ => ?_⟩
    rw [ends_assign_bind, ends_deref_bind (congrArg not h.2), ends_call_bind]
    refine ⟨fun e he => exact_of_raised ((hmem _).mpr (by simp)) he (by simp), fun hprepare => ?_⟩
    rw [ends_call_bind]
    refine ⟨fun e he => exact_of_raised ((hmem _).mpr (by simp)) he (by simp), fun hset => ?_⟩
    rw [ends_call_bind]
    refine ⟨fun e he => exact_of_raised ((hmem _).mpr (by simp)) he (by simp), fun hexecute => ?_⟩
    rw [ends_bind]
    refine (fetchMem_spec 0 _ _).mono ?_
    rintro r t ⟨hopen, hfetch⟩
    have hopen : t.calls.count .closeConnection = 0 := by simpa using hopen
    cases r with
    | error e =>
        obtain ⟨c, hc, he⟩ := hfetch
        exact exact_of_raised ((hmem _).mpr (by simp [hc])) he hopen
    | ok _ =>
        rw [ends_call_bind]
        refine ⟨fun e he => exact_of_raised ((hmem _).mpr (by simp)) he (by simp [hopen]),
          fun hrs => ?_⟩
        rw [ends_call_bind]
        refine ⟨fun e he => exact_of_raised ((hmem _).mpr (by simp)) he (by simp [hopen]),
          fun hstmt => ?_⟩
        rw [ends_call]
        refine exact_of_closed (fun c hc => ?_) (by simp [hopen])
        rcases (hmem c).mp hc with rfl | rfl | rfl | hc | rfl | rfl
        · exact hprepare
        · exact hset
        · exact hexecute
        · exact hfetch c hc
        · exact hrs
        · exact hstmt
  · -- whatever leaves the `try`, the `catch` makes no call
    intro e t ht
    split
    · exact ht
    · exact ht

/-- A `finally` that finds `rs` to be `null` closes nothing. -/
theorem closeAll_of_null {s : Traced Call (Locals PartialDTO)} {critical : List Call}
    (hrs : s.locals.rs = false) (hexact : Exact d.raises critical s) :
    Ends (tryCatch (closeAll d) catchException) (fun _ t => Exact d.raises critical t) s := by
  refine ends_tryCatch_keeps ?_ fun e t ht => ends_catchException fun _ => ht
  rw [closeAll, ends_deref_bind_of_null hrs]
  exact hexact

theorem closeAll_exact {s : Traced Call (Locals PartialDTO)}
    (hconnection : s.locals.connection = true) (hstmt : s.locals.stmt = true)
    (hrs : s.locals.rs = true) (hopen : s.calls.count .closeConnection = 0)
    (hquery : ∀ c ∈ [Call.prepareStatement, .setString, .executeQuery], d.raises c = none)
    (n : ℕ) :
    Ends (tryCatch (closeAll d) catchException)
      (fun _ t => Exact d.raises (Read.critical n .getFullObject) t) s := by
  refine ends_tryCatch_keeps ?_ fun e t ht => ends_catchException fun _ => ht
  rw [closeAll, ends_deref_bind hrs, ends_call_bind]
  refine ⟨fun e he => exact_of_raised (by simp [Read.critical]) he (by simp [hopen]),
    fun hcloseResultSet => ?_⟩
  rw [ends_deref_bind hstmt, ends_call_bind]
  refine ⟨fun e he => exact_of_raised (by simp [Read.critical]) he (by simp [hopen]),
    fun hcloseStatement => ?_⟩
  rw [ends_deref_bind hconnection, ends_call]
  refine exact_of_closed ?_ (by simp [hopen])
  simpa [Read.critical, hcloseResultSet, hcloseStatement] using hquery

/-- The body ends before the query has an answer, and then something critical raised, or with
everything the `finally` closes. -/
theorem openAndFetch_spec (h : d.Obtained) (n : ℕ) :
    Ends (openAndFetch jdk d secKey)
      (fun _ t => t.locals.rs = false ∧ Exact d.raises (Read.critical n .getFullObject) t ∨
        t.locals.connection = true ∧ t.locals.stmt = true ∧ t.locals.rs = true ∧
          t.calls.count .closeConnection = 0 ∧
          ∀ c ∈ [Call.prepareStatement, .setString, .executeQuery], d.raises c = none)
      ⟨[], .start⟩ := by
  rw [openAndFetch, ends_call_bind, h.1]
  refine ⟨fun e he => (Option.some_ne_none e he.symm).elim, fun _ => ?_⟩
  rw [ends_assign_bind, ends_deref_bind (congrArg not h.2), ends_call_bind]
  refine ⟨fun e he => .inl ⟨rfl, exact_of_raised (by simp [Read.critical]) he (by simp)⟩,
    fun hprepare => ?_⟩
  rw [ends_assign_bind, ends_call_bind]
  refine ⟨fun e he => .inl ⟨rfl, exact_of_raised (by simp [Read.critical]) he (by simp)⟩,
    fun hset => ?_⟩
  rw [ends_call_bind]
  refine ⟨fun e he => .inl ⟨rfl, exact_of_raised (by simp [Read.critical]) he (by simp)⟩,
    fun hexecute => ?_⟩
  rw [ends_assign_bind]
  refine (frame_fetchObject jdk d.raises _ _).mono ?_
  intro r t hframe
  refine .inr ⟨hframe.connection.trans (congrArg not h.2), hframe.stmt, hframe.rs, ?_, ?_⟩
  · rw [hframe.count]
    simp
  · simp [hprepare, hset, hexecute]

theorem getFullObject_exact (h : d.Obtained) (n : ℕ) :
    Ends (ObjectRepository.getFullObject jdk d secKey)
      (fun _ t => Exact d.raises (Read.critical n .getFullObject) t) ⟨[], .start⟩ := by
  have hfinally : ∀ t : Traced Call (Locals PartialDTO),
      (t.locals.rs = false ∧ Exact d.raises (Read.critical n .getFullObject) t ∨
        t.locals.connection = true ∧ t.locals.stmt = true ∧ t.locals.rs = true ∧
          t.calls.count .closeConnection = 0 ∧
          ∀ c ∈ [Call.prepareStatement, .setString, .executeQuery], d.raises c = none) →
      Ends (tryCatch (closeAll d) catchException)
        (fun _ t => Exact d.raises (Read.critical n .getFullObject) t) t := by
    rintro t (⟨hrs, hexact⟩ | ⟨hconnection, hstmt, hrs, hopen, hquery⟩)
    · exact closeAll_of_null hrs hexact
    · exact closeAll_exact hconnection hstmt hrs hopen hquery n
  refine Ends.tryFinally (Ends.tryCatch ((openAndFetch_spec h n).mono ?_))
  intro r t ht
  cases r with
  | ok _ => exact hfinally t ht
  | error e => exact ends_catchException fun _ => hfinally t ht

/-! ## A read that goes through -/

/-- Nothing raises, and the query finds what the table has. -/
def Driver.quiet (table : ObjectsTable) : Driver where
  raises _ := none
  nullConnection := false
  found p₁ := table.rows.filter fun r => r.nameLower = p₁

theorem fetchMem_quiet (i : ℕ) (rows : List ObjectRow) (s : Traced Call (Locals Bytes)) :
    Ends (fetchMem (fun _ => none) i rows)
      (fun r t => r = .ok () ∧
        t.locals.result = (rows.map ObjectRow.mem).foldl (fun _ mem => some mem) s.locals.result)
      s := by
  induction rows generalizing i s with
  | nil => exact ⟨rfl, rfl⟩
  | cons row rows ih => exact ih (i + 1) _

/-- Then `getMemByKeyInBytes` answers as the read of the table does. -/
theorem getMemByKeyInBytes_quiet (jdk : Jdk) (table : ObjectsTable) (secKey : String) :
    Ends (ObjectRepository.getMemByKeyInBytes jdk (.quiet table) secKey)
      (fun r t => r = .ok () ∧
        t.locals.result = Reads.ObjectRepository.getMemByKeyInBytes jdk table secKey)
      ⟨[], .start⟩ := by
  rw [ObjectRepository.getMemByKeyInBytes, ends_tryCatch, ends_call_bind]
  refine ⟨fun e he => (Option.some_ne_none e he.symm).elim, fun _ => ?_⟩
  rw [ends_assign_bind, ends_deref_bind rfl]
  iterate 3
    rw [ends_call_bind]
    refine ⟨fun e he => (Option.some_ne_none e he.symm).elim, fun _ => ?_⟩
  rw [ends_bind]
  refine (fetchMem_quiet 0 _ _).mono ?_
  rintro r t ⟨rfl, hresult⟩
  exact ⟨rfl, hresult⟩

/-- An object with every field set. -/
def PartialDTO.ofDTO (d : Cache.ObjectDTO) : PartialDTO :=
  ⟨some d.mem, some d.name, d.typeId, d.lastTransaction, d.updateCount, d.dateCreated,
    d.dbIdUpdated, d.versionInfo, some d.timeUpdated⟩

/-- And `getFullObject`, with every field. -/
theorem getFullObject_quiet (jdk : Jdk) (table : ObjectsTable) (secKey : String) :
    (execute (ObjectRepository.getFullObject jdk (.quiet table) secKey)
        ⟨[], .start⟩).2.locals.result =
      (AuroraSizing.ObjectRepository.getFullObject jdk table secKey).map PartialDTO.ofDTO := by
  have hlookup : Store.GET_FULL_OBJECT table (jdk.toLowerCase secKey) =
      ((Driver.quiet table).found (jdk.toLowerCase secKey)).head? := by
    rw [Driver.quiet, List.head?_filter]
    rfl
  rw [AuroraSizing.ObjectRepository.getFullObject, hlookup]
  unfold ObjectRepository.getFullObject openAndFetch
  cases (Driver.quiet table).found (jdk.toLowerCase secKey) with
  | nil => rfl
  | cons row rows => rfl

/-! ## When the connection is released -/

/-- **A read releases its connection exactly if** it obtained none or no critical call raises. -/
theorem released_iff (jdk : Jdk) (d : Driver) (secKey : String) (read : Read) :
    Released jdk d secKey read ↔
      (d.Obtained → ∀ c ∈ read.critical (d.found (jdk.toLowerCase secKey)).length,
        d.raises c = none) := by
  refine forall_congr' fun h => ?_
  cases read with
  | getMemByKeyInBytes => exact getMemByKeyInBytes_exact h
  | getFullObject => exact getFullObject_exact h _

/-- The server goes away under the query: both reads keep their connection. -/
def queryFails : Driver where
  raises c := if c = .executeQuery then some .sqlException else none
  nullConnection := false
  found _ := []

theorem failing_query_leaks :
    Read.calls Jdk.ascii queryFails "a" .getMemByKeyInBytes =
        [.getConnection, .prepareStatement, .setString, .executeQuery] ∧
      Read.calls Jdk.ascii queryFails "a" .getFullObject =
        [.getConnection, .prepareStatement, .setString, .executeQuery] ∧
      ¬ Released Jdk.ascii queryFails "a" .getMemByKeyInBytes ∧
      ¬ Released Jdk.ascii queryFails "a" .getFullObject := by
  refine ⟨rfl, rfl, ?_, ?_⟩
  · intro h
    exact absurd (h ⟨rfl, rfl⟩) (by decide)
  · intro h
    exact absurd (h ⟨rfl, rfl⟩) (by decide)

end AuroraSizing.HotReads
