import AuroraSizing.Transaction.ClientStreams
import AuroraSizing.Transaction.CommitOrder

/-!
# All of a client's transaction or nothing of it

Many clients run one transaction each, on the connections of one pool. Whatever the
interleaving, the committed rows are those of some of the transactions run one after another,
each with all the operations its client buffered; a client told of success is among them, and
one told of failure is not.
-/

namespace AuroraSizing.Transaction

open Foundation.Journal Foundation.System

/-! ## The calls of each stream -/

/-- The callbacks gRPC has started on a stream. -/
def deliveriesTo (stream : ℕ) (moves : List Move) : List Event :=
  moves.filterMap fun
    | .deliver stream' e => if stream' = stream then some e else none
    | .accept .. | .scan _ | .call _ | .finish _ => none

/-- The call a move makes, with its stream. -/
def Server.callOf (s : Server) : Move → Option (ℕ × Action)
  | .call stream => (s.lines stream).bind fun l => l.calls.head?.map (stream, ·)
  | .accept .. | .deliver .. | .scan _ | .finish _ => none

def callsOf (stream : ℕ) (calls : List (ℕ × Action)) : List Action :=
  (calls.filter fun p => p.1 = stream).map Prod.snd

/-- What the calls do to `objects`, each with its stream. -/
def objectEntries (calls : List (ℕ × Action)) : List (ℕ × Entry Stmt) :=
  calls.flatMap fun p => (objectJournal [p.2]).map (p.1, ·)

theorem callsOf_append (stream : ℕ) (cs ds : List (ℕ × Action)) :
    callsOf stream (cs ++ ds) = callsOf stream cs ++ callsOf stream ds := by
  rw [callsOf, List.filter_append, List.map_append]
  rfl

theorem callsOf_concat (stream : ℕ) (cs : List (ℕ × Action)) (p : ℕ × Action) :
    callsOf stream (cs ++ [p]) =
      callsOf stream cs ++ if p.1 = stream then [p.2] else [] := by
  rw [callsOf_append]
  by_cases h : p.1 = stream <;> simp [callsOf, h]

theorem deliveriesTo_concat (stream : ℕ) (ms : List Move) (m : Move) :
    deliveriesTo stream (ms ++ [m]) = deliveriesTo stream ms ++ deliveriesTo stream [m] :=
  List.filterMap_append

theorem journalOf_tagged (stream stream' : ℕ) (js : List (Entry Stmt)) :
    journalOf stream (js.map (stream', ·)) = if stream' = stream then js else [] := by
  by_cases h : stream' = stream
  · rw [journalOf, if_pos h, List.filter_eq_self.mpr, List.map_map]
    · exact List.map_id js
    · intro e he
      obtain ⟨_, -, rfl⟩ := List.mem_map.mp he
      exact decide_eq_true h
  · rw [journalOf, if_neg h, List.filter_eq_nil_iff.mpr, List.map_nil]
    intro e he
    obtain ⟨_, -, rfl⟩ := List.mem_map.mp he
    simpa using h

/-- The journal of a stream is that of its calls. -/
theorem journalOf_objectEntries (stream : ℕ) (calls : List (ℕ × Action)) :
    journalOf stream (objectEntries calls) = objectJournal (callsOf stream calls) := by
  induction calls using List.reverseRecOn with
  | nil => rfl
  | append_singleton calls p ih =>
      have hlast : objectEntries (calls ++ [p]) =
          objectEntries calls ++ (objectJournal [p.2]).map (p.1, ·) := by
        rw [objectEntries, List.flatMap_append, List.flatMap_singleton]
        rfl
      rw [hlast, journalOf_append, ih, journalOf_tagged, callsOf_concat, objectJournal_append]
      split <;> rfl

/-! ## The log of the commits -/

def CommitLog.enter (log : CommitLog) (connection : ℕ) : Entry Stmt → CommitLog
  | .write stmt => { log with
      opened := Function.update log.opened connection (log.opened connection ++ [stmt]) }
  | .commit =>
      { committed := log.committed ++ [log.opened connection]
        opened := Function.update log.opened connection [] }
  | .abort => { log with opened := Function.update log.opened connection [] }

/-- The log records a call as the journal has it. -/
theorem record_cases (a : Action) :
    (objectJournal [a] = [] ∧ ∀ log c, CommitLog.record log c a = log) ∨
      ∃ j, objectJournal [a] = [j] ∧ ∀ log c, CommitLog.record log c a = log.enter c j := by
  cases a with
  | execute stmt rows raised =>
      by_cases hrows : rows = 0
      · refine .inl ⟨by simp [objectJournal, entriesOf, Action.entries, hrows], fun log c => ?_⟩
        cases stmt <;> simp [CommitLog.record, hrows]
      · cases stmt with
        | insertTransHeader | insertTransParts =>
            exact .inl ⟨by simp [objectJournal, entriesOf, Action.entries, hrows, onObjects],
              fun _ _ => rfl⟩
        | insertRecords | updateRecords | renameRecords | deleteRecords =>
            refine .inr ⟨.write _, ?_, fun log c => if_neg hrows⟩
            simp [objectJournal, entriesOf, Action.entries, hrows, onObjects]
  | commit ok =>
      cases ok with
      | true => exact .inr ⟨.commit, rfl, fun _ _ => rfl⟩
      | false => exact .inl ⟨rfl, fun _ _ => rfl⟩
  | rollback ok =>
      cases ok with
      | true => exact .inr ⟨.abort, rfl, fun _ _ => rfl⟩
      | false => exact .inl ⟨rfl, fun _ _ => rfl⟩
  | close | respond => exact .inl ⟨rfl, fun _ _ => rfl⟩

theorem enter_of_ne (log : CommitLog) {c c' : ℕ} (h : c' ≠ c) (j : Entry Stmt) :
    (log.enter c j).opened c' = log.opened c' := by
  cases j <;> exact Function.update_of_ne h _ _

theorem ledgers_enter_of_ne (ls : Ledgers ℕ Stmt) {σ τ : ℕ} (h : τ ≠ σ) (j : Entry Stmt) :
    (ls.enter (σ, j)).opened τ = ls.opened τ := by
  cases j <;> exact Function.update_of_ne h _ _

/-- What a call is to the log of a connection, it is to the ledger of its stream. -/
theorem enter_agrees {log : CommitLog} {ls : Ledgers ℕ Stmt} {c σ : ℕ} (j : Entry Stmt)
    (hcommitted : log.committed = ls.committed.map Prod.snd)
    (hopened : log.opened c = ls.opened σ) :
    (log.enter c j).committed = (ls.enter (σ, j)).committed.map Prod.snd ∧
      (log.enter c j).opened c = (ls.enter (σ, j)).opened σ := by
  cases j with
  | write stmt =>
      refine ⟨hcommitted, ?_⟩
      simp [CommitLog.enter, Ledgers.enter, hopened]
  | commit =>
      constructor
      · simp [CommitLog.enter, Ledgers.enter, hcommitted, hopened]
      · simp [CommitLog.enter, Ledgers.enter]
  | abort =>
      refine ⟨hcommitted, ?_⟩
      simp [CommitLog.enter, Ledgers.enter]

/-! ## One line -/

namespace Line

/-- The stream once the callback that is running has ended. -/
def after (jdk : Jdk) (l : Line) : Stream :=
  match l.callback with
  | some e => l.stream.deliver jdk e
  | none => l.stream

/-- The calls the line has made. -/
def made (jdk : Jdk) (l : Line) : List Action :=
  (l.after jdk).trace.take ((l.after jdk).trace.length - l.calls.length)

/-- The line has served these callbacks, but for the calls it has still to make. -/
structure Serves (jdk : Jdk) (es : List Event) (made : List Action) (l : Line) : Prop where
  stream : ∃ resultSet, l.after jdk = (Stream.start resultSet).run jdk es ∧
    (Stream.start resultSet).HearsAll jdk es
  calls : made ++ l.calls = (l.after jdk).trace
  idle : l.callback = none → l.calls = []
  /-- Once it has answered, the stream is done with the database. -/
  answered : l.stream.sent ≠ [] → entriesOf l.calls = []

theorem serves_start (jdk : Jdk) (connection : ℕ) (resultSet : Option JLong) :
    Serves jdk [] [] ⟨connection, Stream.start resultSet, none, [], none⟩ where
  stream := ⟨resultSet, rfl, trivial⟩
  calls := rfl
  idle := fun _ => rfl
  answered := fun h => absurd rfl h

variable {jdk : Jdk} {es : List Event} {made : List Action} {l l' : Line}

theorem Serves.made_eq (h : l.Serves jdk es made) : l.made jdk = made := by
  rw [Line.made, ← h.calls, List.length_append, Nat.add_sub_cancel, List.take_left]

/-- Between two callbacks. -/
theorem Serves.of_idle (h : l.Serves jdk es made) (hidle : l.callback = none) :
    made = l.stream.trace ∧ ∃ resultSet, l.stream = (Stream.start resultSet).run jdk es ∧
      (Stream.start resultSet).HearsAll jdk es := by
  have hafter : l.after jdk = l.stream := by rw [after, hidle]
  have hcalls := h.calls
  rw [h.idle hidle, List.append_nil, hafter] at hcalls
  exact ⟨hcalls, hafter ▸ h.stream⟩

theorem Serves.scan (h : l.Serves jdk es made) (found : Option (List ℕ)) :
    Serves jdk es made { l with found := found } :=
  ⟨h.stream, h.calls, h.idle, h.answered⟩

theorem Serves.deliver {e : Event} (h : l.Serves jdk es made) (hears : l.stream.Hears e)
    (hidle : l.callback = none) :
    Serves jdk (es ++ [e]) made { l with
      callback := some e
      calls := (l.stream.observer.callback jdk e).2.trace } := by
  obtain ⟨hmade, resultSet, hstream, hbefore⟩ := h.of_idle hidle
  refine ⟨⟨resultSet, ?_, ?_⟩, ?_, ?_, ?_⟩
  · rw [Stream.run_append, ← hstream]
    rfl
  · rw [Stream.hearsAll_concat, ← hstream]
    exact ⟨hbefore, hears⟩
  · rw [hmade]
    rfl
  · intro hnone
    cases hnone
  · intro hsent
    rcases hears with hopen | ⟨-, hinert⟩
    · obtain ⟨_, -, hnone, -⟩ := open_journal jdk resultSet es (hstream ▸ hopen)
      exact absurd (hstream ▸ hnone) hsent
    · exact inert_callback jdk l.stream.observer hinert

theorem Serves.call {a : Action} {calls : List Action} (h : l.Serves jdk es made)
    (hl : l.calls = a :: calls) :
    Serves jdk es (made ++ [a]) { l with calls := calls, found := none } where
  stream := h.stream
  calls := by
    rw [List.append_assoc, List.singleton_append, ← hl]
    exact h.calls
  idle := by
    intro hnone
    rw [h.idle hnone] at hl
    cases hl
  answered := by
    intro hsent
    have hquiet := h.answered hsent
    rw [hl] at hquiet
    exact (entriesOf_of_append (t := [a]) hquiet).2

theorem Serves.finish {e : Event} (h : l.Serves jdk es made) (hrunning : l.callback = some e)
    (hcalls : l.calls = []) :
    Serves jdk es made { l with stream := l.stream.deliver jdk e, callback := none } := by
  have hafter : l.after jdk = l.stream.deliver jdk e := by rw [after, hrunning]
  refine ⟨hafter ▸ h.stream, ?_, fun _ => hcalls, fun _ => ?_⟩
  · exact h.calls.trans (congrArg Stream.trace hafter)
  · exact congrArg entriesOf hcalls

/-- A call that counts is made on an open connection. -/
theorem Serves.open_of_call {a : Action} {calls : List Action} (h : l.Serves jdk es made)
    (hl : l.calls = a :: calls) (ha : objectJournal [a] ≠ []) :
    made.countP Action.isClose = 0 := by
  obtain ⟨resultSet, hafter, hears⟩ := h.stream
  have htrace : ((Stream.start resultSet).run jdk es).trace = made ++ [a] ++ calls := by
    rw [← hafter, ← h.calls, hl, List.append_assoc, List.singleton_append]
  by_contra hclosed
  rw [List.append_assoc] at htrace
  have hquiet := quiet_run hears made _ htrace (Nat.pos_of_ne_zero hclosed)
  exact ha (objectJournal_of_quiet (entriesOf_of_append hquiet).1)

theorem Serves.streamEnd {client : List TransactorCall} (h : l.Serves jdk es made)
    (hsends : Sends client es) : StreamEnd jdk client (l.after jdk) := by
  obtain ⟨resultSet, hafter, hears⟩ := h.stream
  exact hafter ▸ Transaction.streamEnd hsends hears

/-- The calls made say what the stream has come to, once it has answered. -/
theorem Serves.of_sent {m : TransMsgResponse} (h : l.Serves jdk es made)
    (hm : m ∈ l.stream.sent) : m ∈ (l.after jdk).sent ∧
      objectJournal made = objectJournal (l.after jdk).trace := by
  constructor
  · unfold after
    split
    · simp only [Stream.deliver]
      split
      · exact List.mem_append_left _ hm
      · exact hm
    · exact hm
  · rw [← h.calls, objectJournal_append,
      objectJournal_of_quiet (h.answered (List.ne_nil_of_mem hm)), List.append_nil]

end Line

/-! ## Many lines -/

/-- gRPC delivers as it does, and the pool gives a connection that its last streams have closed
and that has nothing open. -/
def Orderly (jdk : Jdk) (s : Recorded) : Move → Prop
  | .accept _ connection _ => s.log.opened connection = [] ∧
      ∀ stream l, s.server.lines stream = some l → l.connection = connection →
        0 < (l.made jdk).countP Action.isClose
  | .deliver stream e => ∀ l, s.server.lines stream = some l → l.stream.Hears e
  | .scan _ | .call _ | .finish _ => True

namespace Recorded

/-- The stream may still use its connection. -/
def Holds (stream : ℕ) (calls : List (ℕ × Action)) : Prop :=
  (callsOf stream calls).countP Action.isClose = 0

/-- Each line serves its callbacks, and the log is the ledger of the streams, each with a
connection of its own until it closes it. -/
structure Tracks (jdk : Jdk) (moves : List Move) (calls : List (ℕ × Action)) (s : Recorded) :
    Prop where
  serves : ∀ stream l, s.server.lines stream = some l →
    l.Serves jdk (deliveriesTo stream moves) (callsOf stream calls)
  absent : ∀ stream, s.server.lines stream = none →
    deliveriesTo stream moves = [] ∧ callsOf stream calls = []
  committed : s.log.committed = (ledgers (objectEntries calls)).committed.map Prod.snd
  opened : ∀ stream l, s.server.lines stream = some l → Holds stream calls →
    s.log.opened l.connection = (ledgers (objectEntries calls)).opened stream
  alone : ∀ stream stream' l l', s.server.lines stream = some l →
    s.server.lines stream' = some l' → l.connection = l'.connection → Holds stream calls →
    Holds stream' calls → stream = stream'

theorem tracks_start (jdk : Jdk) (rows : List ObjectRow) : Tracks jdk [] [] (start rows) where
  serves := by
    intro stream l hl
    cases hl
  absent := fun _ _ => ⟨rfl, rfl⟩
  committed := rfl
  opened := by
    intro stream l hl
    cases hl
  alone := by
    intro stream stream' l l' hl
    cases hl

variable {jdk : Jdk} {moves : List Move} {calls : List (ℕ × Action)} {s : Recorded}

/-- Another stream is left as it was. -/
theorem Holds.of_append {stream : ℕ} {did : List (ℕ × Action)}
    (h : Holds stream (calls ++ did)) : Holds stream calls := by
  rw [Holds, callsOf_append, List.countP_append] at h
  exact Nat.eq_zero_of_add_eq_zero_right h

/-- A step that changes one line. -/
theorem Tracks.update (h : Tracks jdk moves calls s) {m : Move} (did : Option (ℕ × Action))
    {server : Server} {log : CommitLog} {stream : ℕ} {l : Line}
    (hlines : server.lines = Function.update s.server.lines stream (some l))
    (hserves : l.Serves jdk (deliveriesTo stream (moves ++ [m]))
      (callsOf stream (calls ++ did.toList)))
    (hothers : ∀ stream', stream' ≠ stream → deliveriesTo stream' [m] = [] ∧
      callsOf stream' did.toList = [])
    (hcommitted : log.committed =
      (ledgers (objectEntries (calls ++ did.toList))).committed.map Prod.snd)
    (hopened : Holds stream calls →
      log.opened l.connection = (ledgers (objectEntries (calls ++ did.toList))).opened stream)
    (hkeeps : ∀ stream' l', stream' ≠ stream → s.server.lines stream' = some l' →
      Holds stream' calls → (Holds stream calls → l'.connection ≠ l.connection) ∧
        log.opened l'.connection =
          (ledgers (objectEntries (calls ++ did.toList))).opened stream') :
    Tracks jdk (moves ++ [m]) (calls ++ did.toList) ⟨server, log⟩ := by
  have hself : server.lines stream = some l := by rw [hlines, Function.update_self]
  have hother : ∀ stream', stream' ≠ stream → server.lines stream' = s.server.lines stream' := by
    intro stream' hne
    rw [hlines, Function.update_of_ne hne]
  constructor
  case serves =>
    intro stream' l' hl'
    by_cases hstream : stream' = stream
    · subst hstream
      obtain rfl := Option.some.inj (hself.symm.trans hl')
      exact hserves
    · obtain ⟨hdeliveries, hcalls⟩ := hothers stream' hstream
      rw [deliveriesTo_concat, callsOf_append, hdeliveries, hcalls, List.append_nil,
        List.append_nil]
      exact h.serves stream' l' (hother stream' hstream ▸ hl')
  case absent =>
    intro stream' hl'
    have hstream : stream' ≠ stream := by
      rintro rfl
      rw [hself] at hl'
      cases hl'
    obtain ⟨hdeliveries, hcalls⟩ := hothers stream' hstream
    rw [deliveriesTo_concat, callsOf_append, hdeliveries, hcalls, List.append_nil, List.append_nil]
    exact h.absent stream' (hother stream' hstream ▸ hl')
  case committed => exact hcommitted
  case opened =>
    intro stream' l' hl' hholds
    by_cases hstream : stream' = stream
    · subst hstream
      obtain rfl := Option.some.inj (hself.symm.trans hl')
      exact hopened hholds.of_append
    · exact (hkeeps stream' l' hstream (hother stream' hstream ▸ hl') hholds.of_append).2
  case alone =>
    intro a b la lb ha hb hconnection hholds hholds'
    by_cases hstream : a = stream
    · by_cases hstream' : b = stream
      · exact hstream.trans hstream'.symm
      · subst hstream
        obtain rfl := Option.some.inj (hself.symm.trans ha)
        have hne := (hkeeps b lb hstream' (hother b hstream' ▸ hb) hholds'.of_append).1
        exact absurd hconnection.symm (hne hholds.of_append)
    · by_cases hstream' : b = stream
      · subst hstream'
        obtain rfl := Option.some.inj (hself.symm.trans hb)
        have hne := (hkeeps a la hstream (hother a hstream ▸ ha) hholds.of_append).1
        exact absurd hconnection (hne hholds'.of_append)
      · exact h.alone a b la lb (hother a hstream ▸ ha) (hother b hstream' ▸ hb) hconnection
          hholds.of_append hholds'.of_append

/-- A step that makes no call and leaves the line its connection. -/
theorem Tracks.setLine (h : Tracks jdk moves calls s) {m : Move} {stream : ℕ} {l l' : Line}
    (hl : s.server.lines stream = some l) (hconnection : l'.connection = l.connection)
    (hserves : l'.Serves jdk (deliveriesTo stream (moves ++ [m])) (callsOf stream calls))
    (hothers : ∀ stream', stream' ≠ stream → deliveriesTo stream' [m] = []) :
    Tracks jdk (moves ++ [m]) calls ⟨s.server.setLine stream l', s.log⟩ := by
  have hcalls : calls ++ (none : Option (ℕ × Action)).toList = calls := List.append_nil calls
  rw [← hcalls] at hserves ⊢
  apply h.update none rfl hserves
  case hothers => exact fun stream' hne => ⟨hothers stream' hne, rfl⟩
  case hcommitted =>
    rw [hcalls]
    exact h.committed
  case hopened =>
    intro hholds
    rw [hcalls, hconnection]
    exact h.opened stream l hl hholds
  case hkeeps =>
    intro stream' l₁ hne hl₁ hholds
    rw [hcalls, hconnection]
    refine ⟨fun hholds' heq => hne ?_, h.opened stream' l₁ hl₁ hholds⟩
    exact h.alone stream' stream l₁ l hl₁ hl heq hholds hholds'

theorem Tracks.accept (h : Tracks jdk moves calls s) {stream connection : ℕ}
    {resultSet : Option JLong} (hl : s.server.lines stream = none)
    (hok : Orderly jdk s (.accept stream connection resultSet)) :
    Tracks jdk (moves ++ [.accept stream connection resultSet]) calls
      ⟨s.server.setLine stream ⟨connection, Stream.start resultSet, none, [], none⟩, s.log⟩ := by
  obtain ⟨hempty, hclosed⟩ := hok
  obtain ⟨hdeliveries, hnone⟩ := h.absent stream hl
  have hcalls : calls ++ (none : Option (ℕ × Action)).toList = calls := List.append_nil calls
  rw [← hcalls]
  apply h.update none rfl
  case hserves =>
    rw [hcalls, deliveriesTo_concat, hdeliveries, hnone]
    exact Line.serves_start jdk connection resultSet
  case hothers => exact fun _ _ => ⟨rfl, rfl⟩
  case hcommitted =>
    rw [hcalls]
    exact h.committed
  case hopened =>
    intro _
    rw [hcalls, (ledgers_of stream _).2, journalOf_objectEntries, hnone]
    exact hempty
  case hkeeps =>
    intro stream' l' _ hl' hholds
    rw [hcalls]
    refine ⟨fun _ heq => ?_, h.opened stream' l' hl' hholds⟩
    have hreleased := hclosed stream' l' hl' heq
    rw [(h.serves stream' l' hl').made_eq] at hreleased
    exact Nat.ne_of_gt hreleased hholds

theorem Tracks.call (h : Tracks jdk moves calls s) {stream : ℕ} {l : Line} {a : Action}
    {rest : List Action} {server : Server} (hl : s.server.lines stream = some l)
    (hcalls : l.calls = a :: rest)
    (hlines : server.lines = Function.update s.server.lines stream
      (some { l with calls := rest, found := none })) :
    Tracks jdk (moves ++ [.call stream]) (calls ++ [(stream, a)])
      ⟨server, s.log.record l.connection a⟩ := by
  have hentries : objectEntries (calls ++ [(stream, a)]) =
      objectEntries calls ++ (objectJournal [a]).map (stream, ·) := by
    rw [objectEntries, List.flatMap_append, List.flatMap_singleton]
    rfl
  have hserves : Line.Serves jdk (deliveriesTo stream (moves ++ [.call stream]))
      (callsOf stream (calls ++ [(stream, a)])) { l with calls := rest, found := none } := by
    have hdeliveries : deliveriesTo stream (moves ++ [.call stream]) = deliveriesTo stream moves :=
      (deliveriesTo_concat ..).trans (List.append_nil _)
    rw [hdeliveries, callsOf_concat, if_pos rfl]
    exact (h.serves stream l hl).call hcalls
  have hothers : ∀ stream', stream' ≠ stream → deliveriesTo stream' [.call stream] = [] ∧
      callsOf stream' (some (stream, a)).toList = [] := by
    intro stream' hne
    refine ⟨rfl, ?_⟩
    have hcall := callsOf_concat stream' [] (stream, a)
    rwa [if_neg (Ne.symm hne)] at hcall
  rcases record_cases a with ⟨hnone, hsame⟩ | ⟨j, hone, hrecord⟩
  · -- nothing about `objects`
    rw [hnone, List.map_nil, List.append_nil] at hentries
    rw [hsame]
    apply h.update (some (stream, a)) hlines hserves hothers
    case hcommitted => exact hentries ▸ h.committed
    case hopened => exact fun hholds => hentries ▸ h.opened stream l hl hholds
    case hkeeps =>
      intro stream' l₁ hne hl₁ hholds
      refine ⟨fun hholds' heq => hne ?_, hentries ▸ h.opened stream' l₁ hl₁ hholds⟩
      exact h.alone stream' stream l₁ l hl₁ hl heq hholds hholds'
  · -- the connection is its own
    have hmine : Holds stream calls :=
      (h.serves stream l hl).open_of_call hcalls (hone ▸ List.cons_ne_nil j [])
    obtain ⟨hcommitted, hopened⟩ := enter_agrees j h.committed (h.opened stream l hl hmine)
    rw [hone, List.map_singleton] at hentries
    rw [hrecord]
    have hledgers : ledgers (objectEntries (calls ++ [(stream, a)])) =
        (ledgers (objectEntries calls)).enter (stream, j) := by
      rw [hentries, ledgers_concat]
    apply h.update (some (stream, a)) hlines hserves hothers
    case hcommitted => exact hledgers ▸ hcommitted
    case hopened => exact fun _ => hledgers ▸ hopened
    case hkeeps =>
      intro stream' l₁ hne hl₁ hholds
      have hconnection : l₁.connection ≠ l.connection := fun heq =>
        hne (h.alone stream' stream l₁ l hl₁ hl heq hholds hmine)
      refine ⟨fun _ => hconnection, ?_⟩
      rw [enter_of_ne _ hconnection]
      refine (h.opened stream' l₁ hl₁ hholds).trans ?_
      exact hledgers ▸ (ledgers_enter_of_ne _ hne j).symm

theorem tracks_step {m : Move} {s' : Recorded} (h : Tracks jdk moves calls s)
    (hok : Orderly jdk s m) (hs : step jdk s m = some s') :
    Tracks jdk (moves ++ [m]) (calls ++ (s.server.callOf m).toList) s' := by
  cases step_cases hs with
  | accept hl =>
      rw [Server.callOf, Option.toList_none, List.append_nil]
      exact h.accept hl hok
  | @deliver stream e l hl hidle =>
      rw [Server.callOf, Option.toList_none, List.append_nil]
      apply h.setLine hl
      · rfl
      · rw [deliveriesTo_concat]
        simpa [deliveriesTo] using (h.serves stream l hl).deliver (hok l hl) hidle
      · intro stream' hne
        simp [deliveriesTo, Ne.symm hne]
  | @scan stream l _ _ _ _ _ hl =>
      rw [Server.callOf, Option.toList_none, List.append_nil]
      apply h.setLine hl
      · rfl
      · rw [deliveriesTo_concat]
        exact (List.append_nil (deliveriesTo stream moves)).symm ▸ (h.serves stream l hl).scan _
      · exact fun _ _ => rfl
  | @call stream l a rest objects hl hcalls =>
      have hdid : s.server.callOf (.call stream) = some (stream, a) := by
        simp only [Server.callOf, hl, Option.bind_some, hcalls, List.head?_cons, Option.map_some]
      rw [hdid]
      exact h.call hl hcalls rfl
  | @finish stream l e hl hrunning hcalls =>
      rw [Server.callOf, Option.toList_none, List.append_nil]
      apply h.setLine hl
      · rfl
      · rw [deliveriesTo_concat]
        exact (List.append_nil (deliveriesTo stream moves)).symm ▸
          (h.serves stream l hl).finish hrunning hcalls
      · exact fun _ _ => rfl

/-- Each stream is one transaction, as far as it has come. -/
theorem Tracks.oneTransaction (h : Tracks jdk moves calls s) {clients : ℕ → List TransactorCall}
    (hsends : ∀ stream, Sends (clients stream) (deliveriesTo stream moves)) (stream : ℕ) :
    OneTransaction (Asked jdk (clients stream)) (journalOf stream (objectEntries calls)) := by
  rw [journalOf_objectEntries]
  cases hl : s.server.lines stream with
  | none =>
      rw [(h.absent stream hl).2]
      exact .inl List.not_mem_nil
  | some l =>
      have hpre : callsOf stream calls <+: (l.after jdk).trace :=
        ⟨l.calls, (h.serves stream l hl).calls⟩
      refine OneTransaction.of_prefix ?_ (objectJournal_grows hpre)
      cases (h.serves stream l hl).streamEnd (hsends stream) with
      | nothing journal => exact .inl journal
      | everything ws rest asked journal closed => exact .inr ⟨ws, rest, asked, journal, closed⟩

/-- A client told of success has its operations among those made durable. -/
theorem Tracks.mem_order_of_success (h : Tracks jdk moves calls s)
    {clients : ℕ → List TransactorCall}
    (hsends : ∀ stream, Sends (clients stream) (deliveriesTo stream moves)) {stream : ℕ} {l : Line}
    (hl : s.server.lines stream = some l) {ack txnId : JInt}
    (hsent : .msgOnSuccess ack txnId ∈ l.stream.sent)
    (hbuffer : (transactorOf (clients stream)).buffer ≠ []) :
    stream ∈ (order (objectEntries calls)).map Prod.fst := by
  obtain ⟨hafter, hmade⟩ := (h.serves stream l hl).of_sent hsent
  cases (h.serves stream l hl).streamEnd (hsends stream) with
  | nothing journal sent => exact absurd hafter (sent ack txnId)
  | everything ws rest asked journal closed sent =>
      obtain ⟨id, hws⟩ := asked
      have hne : ws ≠ [] := by
        rintro rfl
        exact hbuffer (List.forall₂_nil_right_iff.mp hws)
      obtain ⟨k, hk⟩ := @ledger_one _ ws rest closed
      refine List.mem_map.mpr ⟨(stream, ws), mem_order.mpr ⟨?_, hne⟩, rfl⟩
      rw [journalOf_objectEntries, hmade, journal, hk]
      exact List.mem_cons_self

/-- A client told of failure has none. -/
theorem Tracks.notMem_order_of_failure (h : Tracks jdk moves calls s)
    {clients : ℕ → List TransactorCall}
    (hsends : ∀ stream, Sends (clients stream) (deliveriesTo stream moves)) {stream : ℕ} {l : Line}
    (hl : s.server.lines stream = some l) {ack txnId : JInt}
    (hsent : .msgOnFailure ack txnId ∈ l.stream.sent) :
    stream ∉ (order (objectEntries calls)).map Prod.fst := by
  obtain ⟨hafter, hmade⟩ := (h.serves stream l hl).of_sent hsent
  cases (h.serves stream l hl).streamEnd (hsends stream) with
  | everything ws rest asked journal closed sent => exact absurd hafter (sent ack txnId)
  | nothing journal sent =>
      intro hmem
      obtain ⟨⟨_, ws⟩, hp, rfl⟩ := List.mem_map.mp hmem
      have hcommitted := (mem_order.mp hp).1
      rw [journalOf_objectEntries, hmade, committed_of_notMem journal] at hcommitted
      exact List.not_mem_nil hcommitted

end Recorded

/-! ## Whole runs -/

/-- The calls of a run, each with its stream. -/
def callsMade (jdk : Jdk) (rows : List ObjectRow) (moves : List Move) : List (ℕ × Action) :=
  outputs (Recorded.step jdk) (fun s m => s.server.callOf m) (Recorded.start rows) moves

/-- The work that the commits of a run made durable, in their order, each with its stream. -/
def commitOrder (jdk : Jdk) (rows : List ObjectRow) (moves : List Move) : List (ℕ × List Stmt) :=
  order (objectEntries (callsMade jdk rows moves))

/-- The committed rows are those of some of the clients, one after another in this order, each
with all that it asks; the clients that were told know whether they are among them. -/
structure Serializes (jdk : Jdk) (clients : ℕ → List TransactorCall) (table₀ : ObjectsTable)
    (s : Server) (serial : List (ℕ × List Stmt)) : Prop where
  once : (serial.map Prod.fst).Nodup
  whole : ∀ p ∈ serial, Asked jdk (clients p.1) p.2
  rows : ∃ table, table₀.executeAll (serial.flatMap Prod.snd) = some table ∧
    table.rows.Perm s.committed
  success : ∀ stream l ack txnId, s.lines stream = some l →
    .msgOnSuccess ack txnId ∈ l.stream.sent → (transactorOf (clients stream)).buffer ≠ [] →
    stream ∈ serial.map Prod.fst
  failure : ∀ stream l ack txnId, s.lines stream = some l →
    .msgOnFailure ack txnId ∈ l.stream.sent → stream ∉ serial.map Prod.fst

theorem tracks_run {jdk : Jdk} {rows : List ObjectRow} {moves : List Move} {s : Recorded}
    (hrun : run (Recorded.step jdk) (Recorded.start rows) moves = some s)
    (horderly : Along (Recorded.step jdk) (Orderly jdk) (Recorded.start rows) moves) :
    s.Tracks jdk moves (callsMade jdk rows moves) :=
  run_shows (Recorded.Tracks jdk) (fun _ _ _ _ _ h hok hs => Recorded.tracks_step h hok hs)
    (Recorded.tracks_start jdk rows) horderly hrun

theorem commitOrder_grows {jdk : Jdk} {rows : List ObjectRow} {pre : List Move} {s : Recorded}
    (hrun : run (Recorded.step jdk) (Recorded.start rows) pre = some s) (post : List Move) :
    commitOrder jdk rows pre <+: commitOrder jdk rows (pre ++ post) := by
  have hentries : objectEntries (callsMade jdk rows (pre ++ post)) =
      objectEntries (callsMade jdk rows pre) ++
        objectEntries (outputs (Recorded.step jdk) (fun s m => s.server.callOf m) s post) := by
    rw [callsMade, outputs_append hrun]
    exact List.flatMap_append
  rw [commitOrder, commitOrder, hentries]
  exact order_grows _ _

theorem deliveriesTo_grows (stream : ℕ) (pre post : List Move) :
    deliveriesTo stream pre <+: deliveriesTo stream (pre ++ post) := by
  rw [deliveriesTo, deliveriesTo, List.filterMap_append]
  exact List.prefix_append _ _

/-- Two that a list and a longer one tell apart. -/
theorem idxOf_lt_idxOf {xs ys : List ℕ} (hpre : xs <+: ys) {a b : ℕ} (ha : a ∈ xs)
    (hb : b ∉ xs) : ys.idxOf a < ys.idxOf b := by
  obtain ⟨rest, rfl⟩ := hpre
  rw [List.idxOf_append_of_mem ha, List.idxOf_append_of_notMem hb]
  exact Nat.lt_add_right _ (List.idxOf_lt_length_of_mem ha)

/-- A stream that is not open has committed nothing. -/
theorem notMem_commitOrder {jdk : Jdk} {rows : List ObjectRow} {moves : List Move} {s : Recorded}
    (hrun : run (Recorded.step jdk) (Recorded.start rows) moves = some s)
    (horderly : Along (Recorded.step jdk) (Orderly jdk) (Recorded.start rows) moves) {stream : ℕ}
    (hnone : s.server.lines stream = none) :
    stream ∉ (commitOrder jdk rows moves).map Prod.fst := by
  intro hmem
  obtain ⟨⟨_, ws⟩, hp, rfl⟩ := List.mem_map.mp hmem
  have hcommitted := (mem_order.mp hp).1
  rw [journalOf_objectEntries, ((tracks_run hrun horderly).absent _ hnone).2] at hcommitted
  exact List.not_mem_nil hcommitted

theorem serializes_run {jdk : Jdk} {table₀ : ObjectsTable} {moves : List Move} {s : Server}
    {clients : ℕ → List TransactorCall}
    (hrun : run (Server.step jdk) (Server.start table₀.rows) moves = some s)
    (hindex : Along (Server.step jdk) IndexesHold (Server.start table₀.rows) moves)
    (horderly : Along (Recorded.step jdk) (Orderly jdk) (Recorded.start table₀.rows) moves)
    (hsends : ∀ stream, Sends (clients stream) (deliveriesTo stream moves)) :
    Serializes jdk clients table₀ s (commitOrder jdk table₀.rows moves) := by
  obtain ⟨log, hlog, hinv⟩ := recorded_run hrun hindex
  have htracks := tracks_run hlog horderly
  have hone := htracks.oneTransaction hsends
  refine ⟨order_nodup hone, ?_, ?_, ?_, ?_⟩
  · intro p hp
    obtain ⟨hcommitted, hne⟩ := mem_order.mp hp
    exact (hone p.1).committed.1 p.2 hcommitted hne
  · obtain ⟨table, htable, hrows, -⟩ := tables_of_inv hinv
    refine ⟨table, ?_, hrows⟩
    rw [commitOrder, order_work, List.flatMap_def, ← htracks.committed]
    exact htable
  · exact fun stream l ack txnId hl hsent => htracks.mem_order_of_success hsends hl hsent
  · exact fun stream l ack txnId hl hsent => htracks.notMem_order_of_failure hsends hl hsent

/-- **Each client's transaction takes effect as a whole or not at all, at one moment of its
own**: after any interleaving of streams that `End` feeds, the order of the commits serializes
the clients, and a client that was told of success comes before every client whose stream was
opened after that. -/
theorem clients_are_atomic {jdk : Jdk} {table₀ : ObjectsTable} {moves : List Move} {s : Server}
    {clients : ℕ → List TransactorCall}
    (hrun : run (Server.step jdk) (Server.start table₀.rows) moves = some s)
    (hindex : Along (Server.step jdk) IndexesHold (Server.start table₀.rows) moves)
    (horderly : Along (Recorded.step jdk) (Orderly jdk) (Recorded.start table₀.rows) moves)
    (hsends : ∀ stream, Sends (clients stream) (deliveriesTo stream moves)) :
    Serializes jdk clients table₀ s (commitOrder jdk table₀.rows moves) ∧
      ∀ pre stream connection resultSet post before,
        moves = pre ++ .accept stream connection resultSet :: post →
        run (Server.step jdk) (Server.start table₀.rows) pre = some before →
        ∀ told l ack txnId, before.lines told = some l →
          .msgOnSuccess ack txnId ∈ l.stream.sent → (transactorOf (clients told)).buffer ≠ [] →
          ((commitOrder jdk table₀.rows moves).map Prod.fst).idxOf told <
            ((commitOrder jdk table₀.rows moves).map Prod.fst).idxOf stream := by
  refine ⟨serializes_run hrun hindex horderly hsends, ?_⟩
  rintro pre stream connection resultSet post before rfl hpre told l ack txnId hl hsent hbuffer
  obtain ⟨log, hlog⟩ := Recorded.run_of_server (s := Recorded.start table₀.rows) hpre
  have hsends' : ∀ stream, Sends (clients stream) (deliveriesTo stream pre) := fun stream =>
    (hsends stream).before (deliveriesTo_grows stream pre _)
  have hbefore := serializes_run hpre hindex.of_append horderly.of_append hsends'
  -- the stream that is accepted is a new one
  have habsent : before.lines stream = none := by
    obtain ⟨s', hs', hrest⟩ := run_append_eq_some.mp hrun
    obtain rfl := Option.some.inj (hpre.symm.trans hs')
    obtain ⟨_, haccept, -⟩ := run_cons_eq_some.mp hrest
    simp only [Server.step] at haccept
    split at haccept
    case h_1 hnone => exact hnone
    case h_2 => cases haccept
  exact idxOf_lt_idxOf ((commitOrder_grows hlog _).map Prod.fst)
    (hbefore.success told l ack txnId hl hsent hbuffer)
    (notMem_commitOrder hlog horderly.of_append habsent)

/-! ## Two deletes of one row -/

/-- No call stores a row. -/
def storesNothing (s : Server) : Move → Bool
  | .call stream => (s.lines stream).all fun l => l.calls.head?.all fun
      | .execute stmt _ _ => (stores s.objects l stmt).isEmpty
      | .commit _ | .rollback _ | .close _ | .respond _ => true
  | .accept .. | .deliver .. | .scan _ | .finish _ => true

theorem indexesHold_of_storesNothing {s : Server} {m : Move} (h : storesNothing s m = true) :
    IndexesHold s m := by
  cases m with
  | call stream =>
      intro l hl stmt rows raised calls hcalls _ p hp
      rw [storesNothing, hl, Option.all_some, hcalls, List.head?_cons, Option.all_some,
        List.isEmpty_iff] at h
      rw [h] at hp
      exact absurd hp List.not_mem_nil
  | accept | deliver | scan | finish => trivial

instance (st : Stream) (e : Event) : Decidable (st.Hears e) :=
  inferInstanceAs (Decidable (_ ∨ _ ∧ _))

/-- No stream is accepted, and gRPC delivers as it does. -/
def deliversInOrder (s : Recorded) : Move → Bool
  | .accept .. => false
  | .deliver stream e => (s.server.lines stream).all fun l => l.stream.Hears e
  | .scan _ | .call _ | .finish _ => true

theorem orderly_of_deliversInOrder {jdk : Jdk} {s : Recorded} {m : Move}
    (h : deliversInOrder s m = true) : Orderly jdk s m := by
  cases m with
  | accept => cases h
  | deliver stream e =>
      intro l hl
      rw [deliversInOrder, hl, Option.all_some, decide_eq_true_eq] at h
      exact h
  | scan | call | finish => trivial

namespace Server

/-- The first two clients delete `testSec`; the others do nothing. -/
def deleteClients : ℕ → List TransactorCall
  | 0 | 1 => [.delete { securityName := "testSec-10", updateCount := 1, dbIdUpdated := 1 }]
  | _ => []

def headerRequest : CmdTransactionRequest := ⟨0, .header { transName := "abc", transType := 0 }⟩

def deleteRequest : CmdTransactionRequest :=
  ⟨4, .delete { metadata :=
    { securityName := "testSec-10", updateCount := 1, dbIdUpdated := 1 } }⟩

def trailerRequest : CmdTransactionRequest := ⟨5, .trailer⟩

/-- The second client waits for the first, finds nothing, and has its trailer delivered after
all is over. -/
def deleteTwice : List Move :=
  runCallback 0 (.onNext headerRequest, {}) 1 ++ runCallback 1 (.onNext headerRequest, {}) 1 ++
  [.deliver 0 (.onNext deleteRequest, {}), .scan 0,
    .deliver 1 (.onNext deleteRequest, { op := { rows := 0 } }), .scan 1,
    .call 0, .call 0, .finish 0] ++
  runCallback 0 (.onNext trailerRequest, {}) 1 ++ runCallback 0 (.onCompleted, {}) 3 ++
  List.replicate 4 (.call 1) ++ [.finish 1] ++
  runCallback 1 (.onNext trailerRequest,
    { op := { rows := 0 }, log := { rows := 0 }, commit := false, rollback := false }) 4

def deletesInOrder : List Move :=
  [.accept 0 0 (some 7), .accept 1 1 (some 8)] ++ deleteTwice

theorem indexes_deletesInOrder :
    Along (step Jdk.ascii) IndexesHold (start testTable.rows) deletesInOrder := by
  have hnothing : Along (step Jdk.ascii) (fun s m => storesNothing s m = true)
      (start testTable.rows) deletesInOrder := by decide +kernel
  exact hnothing.mono fun _ _ => indexesHold_of_storesNothing

theorem orderly_deletesInOrder :
    Along (Recorded.step Jdk.ascii) (Orderly Jdk.ascii) (Recorded.start testTable.rows)
      deletesInOrder := by
  refine Along.cons ⟨rfl, ?_⟩ rfl <| Along.cons ⟨rfl, ?_⟩ rfl ?_
  · intro stream l hl
    cases hl
  · -- the other stream has another connection
    intro stream l hl hconnection
    rcases stream with _ | stream
    · cases hl
      cases hconnection
    · cases hl
  · apply @Along.mono _ _ _ (fun s m => deliversInOrder s m = true) _ _ _ ?_
      fun _ _ => orderly_of_deliversInOrder
    decide +kernel

theorem sends_deletesInOrder (stream : ℕ) :
    Sends (deleteClients stream) (deliveriesTo stream deletesInOrder) := by
  rcases stream with _ | _ | stream
  · exact ⟨[(headerRequest, {}), (deleteRequest, {}), (trailerRequest, {})],
      some (.halfClose, {}), rfl, List.prefix_rfl, fun _ _ => rfl⟩
  · exact ⟨[(headerRequest, {}), (deleteRequest, { op := { rows := 0 } }), (trailerRequest,
      { op := { rows := 0 }, log := { rows := 0 }, commit := false, rollback := false })], none,
      rfl, List.prefix_rfl, fun _ h => by cases h⟩
  · exact ⟨[], none, rfl, List.nil_prefix, fun _ h => by cases h⟩

end Server

/-- One delete has taken effect, and its client knows. -/
theorem deletesInOrder_atomic :
    ∃ s : Server, s.committed = [] ∧
      Serializes Jdk.ascii Server.deleteClients Server.testTable s
        (commitOrder Jdk.ascii Server.testTable.rows Server.deletesInOrder) ∧
      0 ∈ (commitOrder Jdk.ascii Server.testTable.rows Server.deletesInOrder).map Prod.fst ∧
      1 ∉ (commitOrder Jdk.ascii Server.testTable.rows Server.deletesInOrder).map Prod.fst := by
  have hrun : run (Server.step Jdk.ascii) (Server.start Server.testTable.rows)
      Server.deletesInOrder = some _ := rfl
  have hserial := (clients_are_atomic hrun Server.indexes_deletesInOrder
    Server.orderly_deletesInOrder Server.sends_deletesInOrder).1
  refine ⟨_, ?_, hserial, ?_, ?_⟩
  · decide
  · exact hserial.success 0 _ 0 7 rfl (by decide) (by decide)
  · exact hserial.failure 1 _ 1 8 rfl (by decide)

end AuroraSizing.Transaction
