import AuroraSizing.Objects.IndexBatches

/-!
# Truncated results

The repository catches what the database raises and answers with the rows it has, so its
caller cannot tell a result that was cut short from a whole one, and completes the call
with it. `honest_iff` has every method that reads several rows: the answer can be trusted
only where nothing was raised before the last row.
-/

namespace AuroraSizing.Truncation

open ResultSet MultiReads IndexBatches

/-- A completed call sent the whole result; any other ends with an error. -/
structure Honest {β : Type} (x : Exchange β) (full : List β) : Prop where
  complete : x.ending = .onCompleted → x.responses = full
  failed : x.ending ≠ .onCompleted → x.ending = .onError

theorem honest_iff_eq {β : Type} {x : Exchange β} {full : List β} (h : x.ending ≠ .onError) :
    Honest x full ↔ x = ⟨full, .onCompleted⟩ := by
  constructor
  · intro hx
    have hending : x.ending = .onCompleted := by
      by_contra hne
      exact h (hx.failed hne)
    rw [← hx.complete hending, ← hending]
  · intro hx
    rw [hx]
    exact ⟨fun _ => rfl, fun hne => absurd rfl hne⟩

/-- The methods that ask with one query. -/
inductive Rpc where
  | lookupByName
  | lookupByNameStream
  | lookupByType
  | lookupByTypeStream
  | getObjectManyByName
  | getObjectManyByNameStream
  | getObjectManyByNameExt
  | getObjectManyByNameExtStream
deriving DecidableEq, Repr

namespace Rpc

def serve (jdk : Jdk) (fails : Failures) (rows : List ObjectRow) : Rpc → Exchange Response
  | lookupByName => ObjServiceImpl.lookupByName fails rows
  | lookupByNameStream => ObjServiceImpl.lookupByNameStream fails rows
  | lookupByType => ObjServiceImpl.lookupByType fails rows
  | lookupByTypeStream => ObjServiceImpl.lookupByTypeStream fails rows
  | getObjectManyByName => ObjServiceImpl.getObjectManyByName fails rows
  | getObjectManyByNameStream => ObjServiceImpl.getObjectManyByNameStream fails rows
  | getObjectManyByNameExt => ObjServiceImpl.getObjectManyByNameExt jdk fails rows
  | getObjectManyByNameExtStream => ObjServiceImpl.getObjectManyByNameExtStream jdk fails rows

/-- What the repository's method catches around the whole query. -/
def caught : Rpc → Throwable → Bool
  | lookupByName | lookupByNameStream | lookupByType | lookupByTypeStream => isException
  | getObjectManyByName | getObjectManyByNameStream | getObjectManyByNameExt
  | getObjectManyByNameExtStream => isSQLException

/-- What it catches around one row, and puts in the row's place. -/
def recover : Rpc → Throwable → Option ResponseMessage
  | getObjectManyByNameExt | getObjectManyByNameExtStream => rowFailure
  | lookupByName | lookupByNameStream | lookupByType | lookupByTypeStream
  | getObjectManyByName | getObjectManyByNameStream => fun _ => none

end Rpc

section Handlers

variable {ρ α β : Type} {fails : Failures} {recover : Throwable → Option α} {read : ρ → α}
  {caught : Throwable → Bool} {rows : List ρ} {send : List α → List β}

/-- A handler whose messages show the list is honest when the list is whole. -/
theorem honest_respond_iff (hsend : Function.Injective send)
    (hrecover : ∀ e a, recover e = some a → ∀ row ∈ rows, a ≠ read row) :
    Honest (respond (catching caught (query fails recover read rows)) send)
        (respond (catching caught (query Failures.none recover read rows)) send).responses ↔
      Complete fails recover caught rows.length := by
  have hfull : catching caught (query Failures.none recover read rows) = .ok (rows.map read) := by
    rw [query_none]
    rfl
  rw [hfull, ← catching_query_iff hrecover]
  cases catching caught (query fails recover read rows) with
  | error e =>
      rw [honest_iff_eq (show Ending.pending ≠ .onError from Ending.noConfusion)]
      apply iff_of_false
      · intro h
        cases congrArg Exchange.ending h
      · intro h
        cases h
  | ok items =>
      rw [honest_iff_eq (show Ending.onCompleted ≠ .onError from Ending.noConfusion)]
      constructor
      · intro h
        exact congrArg _ (hsend (congrArg Exchange.responses h))
      · intro h
        cases h
        rfl

/-- Without a `catch` around a row, what a row would leave in the list plays no part. -/
theorem honest_respond_unrecovered_iff (hsend : Function.Injective send) :
    Honest (respond (catching caught (query fails (fun _ => none) read rows)) send)
        (respond (catching caught (query Failures.none (fun _ => none) read rows))
          send).responses ↔
      Complete fails (fun _ => (none : Option ResponseMessage)) caught rows.length := by
  have hrecover : ∀ e a, (fun _ => none : Throwable → Option α) e = some a →
      ∀ row ∈ rows, a ≠ read row := by
    intro e a ha
    cases ha
  have hraised : firstRaised fails (fun _ => (none : Option α)) rows.length =
      firstRaised fails (fun _ => (none : Option ResponseMessage)) rows.length := rfl
  rw [honest_respond_iff hsend hrecover]
  constructor
  · intro h
    exact ⟨h.undisturbed, hraised ▸ h.caught⟩
  · intro h
    exact ⟨h.undisturbed, hraised ▸ h.caught⟩

end Handlers

theorem msgOnFailure_ne_row (jdk : Jdk) (rows : List ObjectRow) :
    ∀ e a, rowFailure e = some a → ∀ row ∈ rows, a ≠ fullSecurity jdk row := by
  intro e a ha row _
  unfold rowFailure at ha
  split at ha
  · cases ha
    exact ResponseMessage.noConfusion
  · cases ha

/-- **A call with one query is honest exactly when** its query is complete. -/
theorem serve_honest_iff (jdk : Jdk) (rpc : Rpc) (fails : Failures) (rows : List ObjectRow) :
    Honest (rpc.serve jdk fails rows) (rpc.serve jdk Failures.none rows).responses ↔
      Complete fails rpc.recover rpc.caught rows.length := by
  cases rpc with
  | lookupByName =>
      apply honest_respond_unrecovered_iff
      intro names names' h
      exact Response.cmdLookupByNameResponse.inj (List.cons.inj h).1
  | lookupByNameStream =>
      apply honest_respond_unrecovered_iff
      exact List.map_injective_iff.mpr fun _ _ => Response.cmdLookupByNameResponseStream.inj
  | lookupByType =>
      apply honest_respond_unrecovered_iff
      intro names names' h
      exact Response.cmdNameLookupByTypeResponse.inj (List.cons.inj h).1
  | lookupByTypeStream =>
      apply honest_respond_unrecovered_iff
      exact List.map_injective_iff.mpr fun _ _ => Response.cmdNameLookupByTypeResponseStream.inj
  | getObjectManyByName =>
      apply honest_respond_unrecovered_iff
      intro mems mems' h
      have hitems := (Response.cmdGetManyByNameResponse.inj (List.cons.inj h).1).2
      exact List.map_injective_iff.mpr (fun _ _ => RequestResponse.msgOnSuccess.inj) hitems
  | getObjectManyByNameStream =>
      apply honest_respond_unrecovered_iff
      apply List.map_injective_iff.mpr
      intro mem mem' h
      exact RequestResponse.msgOnSuccess.inj (Response.cmdGetManyByNameResponseStream.inj h)
  | getObjectManyByNameExt =>
      apply honest_respond_iff _ (msgOnFailure_ne_row jdk rows)
      intro items items' h
      exact (Response.cmdGetManyByNameExtResponse.inj (List.cons.inj h).1).2
  | getObjectManyByNameExtStream =>
      apply honest_respond_iff _ (msgOnFailure_ne_row jdk rows)
      exact List.map_injective_iff.mpr fun _ _ => Response.cmdGetManyByNameExtResponseStream.inj

/-- **Every call is honest exactly when** its queries are complete: the one query of each of
the eight methods, and every page of the index table. -/
theorem honest_iff (jdk : Jdk) :
    (∀ (rpc : Rpc) (fails : Failures) (rows : List ObjectRow),
      Honest (rpc.serve jdk fails rows) (rpc.serve jdk Failures.none rows).responses ↔
        Complete fails rpc.recover rpc.caught rows.length) ∧
    ∀ (found : ℕ → List IndexRow) (fails : ℕ → Failures) (n fuel : ℕ),
      LastBatch found n → n < fuel →
        ∃ x, ObjServiceImpl.getIndexRecordInBatches found fails fuel = some x ∧
          (Honest x (batches found 0 (n + 1)) ↔ ∀ k ≤ n, PageComplete found fails k) := by
  refine ⟨serve_honest_iff jdk, ?_⟩
  intro found fails n fuel hlast hfuel
  obtain ⟨x, hx, hiff⟩ := completed_iff fails hlast hfuel
  refine ⟨x, hx, ?_⟩
  rw [honest_iff_eq (loop_not_onError hx), hiff]

/-- The database is lost in one call of the driver. -/
def databaseLost (p : Position) : Failures := fun q => if q = p then some .sqlException else none

/-- It is lost when the second page connects. -/
def secondPageLost (k : ℕ) : Failures :=
  if k = 1 then databaseLost .connect else Failures.none

theorem secondPageLost_lastBatch : LastBatch (fun _ => (rowsTo 101).rows) 1 := by
  have hfound : Orders (rowsTo 101) (fun _ => (rowsTo 101).rows) := fun _ => List.Perm.refl _
  exact hfound.lastBatch

theorem secondPageLost_incomplete :
    ¬ ∀ k ≤ 1, PageComplete (fun _ => (rowsTo 101).rows) secondPageLost k := by
  intro h
  rcases (h 1 (Nat.le_refl 1)).undisturbed with hzero | hundisturbed
  · exact absurd hzero (by decide)
  · exact absurd hundisturbed.1 (by decide)

/-- Lost after the last row, a lookup is whole; lost before the second page, a table is not. -/
theorem honest_databaseLost :
    Honest (Rpc.lookupByName.serve Jdk.ascii (databaseLost .close) twoObjects.rows)
      (Rpc.lookupByName.serve Jdk.ascii Failures.none twoObjects.rows).responses ∧
    ∃ x, ObjServiceImpl.getIndexRecordInBatches (fun _ => (rowsTo 101).rows) secondPageLost 2 =
        some x ∧
      ¬ Honest x (batches (fun _ => (rowsTo 101).rows) 0 2) := by
  have hiff := honest_iff Jdk.ascii
  constructor
  · apply (hiff.1 _ _ _).mpr
    constructor
    · right
      refine ⟨by decide, ?_⟩
      intro i _
      exact ⟨rfl, rfl⟩
    · intro e _
      rfl
  · obtain ⟨x, hx, hx'⟩ := hiff.2 _ secondPageLost 1 2 secondPageLost_lastBatch (by decide)
    exact ⟨x, hx, fun h => secondPageLost_incomplete (hx'.mp h)⟩

/-- A lookup that lost the database at its second row completes with the first, a table that
lost it at its second page with the hundred rows of the first. -/
theorem truncated_completes :
    ObjServiceImpl.lookupByName (databaseLost (.next 1)) twoObjects.rows =
      ⟨[.cmdLookupByNameResponse ["a"]], .onCompleted⟩ ∧
    ObjServiceImpl.lookupByName Failures.none twoObjects.rows =
      ⟨[.cmdLookupByNameResponse ["a", "b"]], .onCompleted⟩ ∧
    ¬ Honest (ObjServiceImpl.lookupByName (databaseLost (.next 1)) twoObjects.rows)
      (ObjServiceImpl.lookupByName Failures.none twoObjects.rows).responses ∧
    (ObjServiceImpl.getIndexRecordInBatches (fun _ => (rowsTo 101).rows) secondPageLost 2).map
      (fun x => (x.responses.length, x.ending)) = some (100, .onCompleted) := by
  refine ⟨rfl, rfl, ?_, ?_⟩
  · intro h
    exact absurd (h.complete rfl) (by decide)
  · decide +kernel

end AuroraSizing.Truncation
