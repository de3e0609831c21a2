import AuroraSizing.Objects.MultiReads

/-!
# `getIndexRecordInBatches`

The handler asks for an index table in pages of a hundred rows, each page with a query of
its own, and takes a page that is not full for the last. The queries have no `order by`,
so each may see the table in an order of its own; `found k` is the order of the `k`-th.
-/

namespace AuroraSizing.IndexBatches

open ResultSet MultiReads Foundation.KeyedRows

/-! ## Index tables -/

/-- `mapifyCSV` gives a column one of two types. -/
inductive ColumnValue where
  | varchar (s : String)
  /-- The bits of a `double`. -/
  | float (bits : BitVec 64)
deriving DecidableEq, Repr

/-- A row of a table of `createIndexTable`: its own columns, and then the two every table has. -/
structure IndexRow where
  columns : List (String × ColumnValue)
  name : String
  nameLower : String
deriving DecidableEq, Repr

structure IndexTable where
  rows : List IndexRow
  primaryKey : Foundation.KeyedRows.Unique IndexRow.name rows

/-- `CmdMsgIndexGetByNameByLimitResponse.MsgOnSuccess` -/
structure MsgOnSuccess where
  securityName : String
  doubleVal : List (String × BitVec 64)
  stringVal : List (String × String)
deriving DecidableEq, Repr

/-- The loop over the columns but the last two. -/
def IndexRow.toMsgOnSuccess (row : IndexRow) : MsgOnSuccess where
  securityName := row.name
  doubleVal := row.columns.filterMap fun c =>
    match c.2 with
    | .float bits => some (c.1, bits)
    | .varchar _ => none
  stringVal := row.columns.filterMap fun c =>
    match c.2 with
    | .varchar s => some (c.1, s)
    | .float _ => none

/-! ## One page -/

/-- `GET_FROM_INDEX_TABLE_WITH_LIMIT`, on the table in the order the query sees it. -/
def page (found : List IndexRow) (limitBatchSize : ℕ) (offsetStartFromHere : JInt) :
    List IndexRow :=
  if 0 ≤ offsetStartFromHere.toInt then
    (found.drop offsetStartFromHere.toInt.toNat).take limitBatchSize
  else []

/-- The database refuses a negative `OFFSET`. -/
def pageFailures (fails : Failures) (offsetStartFromHere : JInt) : Failures := fun p =>
  if offsetStartFromHere.toInt < 0 ∧ p = .execute then some .sqlException else fails p

def ObjectRepository.indexRecordsInBatch (fails : Failures) (found : List IndexRow)
    (offsetStartFromHere : JInt) (limitBatchSize : ℕ) : Except Throwable (List MsgOnSuccess) :=
  catching isSQLException
    (query (pageFailures fails offsetStartFromHere) (fun _ => none) IndexRow.toMsgOnSuccess
      (page found limitBatchSize offsetStartFromHere))

/-! ## The loop -/

def limitBatchSize : ℕ := 100

/-- The `while (true)` of the handler from its `k`-th turn on; `none` is a loop that is
still running after `fuel` turns. -/
def loop (found : ℕ → List IndexRow) (fails : ℕ → Failures) :
    ℕ → ℕ → JInt → List MsgOnSuccess → Option (Exchange MsgOnSuccess)
  | 0, _, _, _ => none
  | fuel + 1, k, offsetStartFromHere, sent =>
      match ObjectRepository.indexRecordsInBatch (fails k) (found k) offsetStartFromHere
        limitBatchSize with
      | .error _ => some ⟨sent, .pending⟩
      | .ok responseMessageList =>
          if responseMessageList.length < limitBatchSize then
            some ⟨sent ++ responseMessageList, .onCompleted⟩
          else
            loop found fails fuel (k + 1) (offsetStartFromHere + BitVec.ofNat 32 limitBatchSize)
              (sent ++ responseMessageList)

def ObjServiceImpl.getIndexRecordInBatches (found : ℕ → List IndexRow) (fails : ℕ → Failures)
    (fuel : ℕ) : Option (Exchange MsgOnSuccess) :=
  loop found fails fuel 0 0 []

/-! ## Batches

What the loop would send over orders `found` if every page were read. -/

/-- `offsetStartFromHere` in the `k`-th turn. -/
def offset (k : ℕ) : JInt := BitVec.ofNat 32 (limitBatchSize * k)

def batch (found : ℕ → List IndexRow) (k : ℕ) : List IndexRow :=
  ((found k).drop (limitBatchSize * k)).take limitBatchSize

/-- The first batch that is not full. -/
structure LastBatch (found : ℕ → List IndexRow) (n : ℕ) : Prop where
  full : ∀ k < n, (batch found k).length = limitBatchSize
  short : (batch found n).length < limitBatchSize

/-- The batches from the `k`-th on. -/
def batches (found : ℕ → List IndexRow) (k count : ℕ) : List MsgOnSuccess :=
  (List.range' k count).flatMap fun j => (batch found j).map IndexRow.toMsgOnSuccess

/-- The `k`-th page is read to its end. -/
def PageComplete (found : ℕ → List IndexRow) (fails : ℕ → Failures) (k : ℕ) : Prop :=
  Complete (pageFailures (fails k) (offset k)) (fun _ => (none : Option MsgOnSuccess))
    isSQLException (batch found k).length

section Loop

variable {found : ℕ → List IndexRow} {fails : ℕ → Failures}

/-- The counter is right until it wraps, and the turn in which it has wrapped is the last. -/
theorem toInt_offset {k : ℕ} (h : limitBatchSize * k < 2 ^ 31 + limitBatchSize) :
    (offset k).toInt =
      if limitBatchSize * k < 2 ^ 31 then (limitBatchSize * k : ℤ)
      else (limitBatchSize * k : ℤ) - 2 ^ 32 := by
  unfold offset limitBatchSize at *
  rw [BitVec.toInt_eq_toNat_cond, BitVec.toNat_ofNat, Nat.mod_eq_of_lt (by omega)]
  split <;> split <;> omega

theorem offset_succ (k : ℕ) :
    offset k + BitVec.ofNat 32 limitBatchSize = offset (k + 1) := by
  unfold offset
  rw [← BitVec.ofNat_add]
  rfl

/-- The page is the batch, or the database refuses it. -/
theorem query_page {k : ℕ} (h : limitBatchSize * k < 2 ^ 31 + limitBatchSize) :
    ObjectRepository.indexRecordsInBatch (fails k) (found k) (offset k) limitBatchSize =
      catching isSQLException (query (pageFailures (fails k) (offset k)) (fun _ => none)
        IndexRow.toMsgOnSuccess (batch found k)) := by
  have hoffset := toInt_offset h
  unfold ObjectRepository.indexRecordsInBatch
  by_cases hwraps : limitBatchSize * k < 2 ^ 31
  · rw [if_pos hwraps] at hoffset
    have hpage : page (found k) limitBatchSize (offset k) = batch found k := by
      unfold page batch
      rw [hoffset, if_pos (by positivity)]
      rfl
    rw [hpage]
  · rw [if_neg hwraps] at hoffset
    have hnegative : (offset k).toInt < 0 := by
      rw [hoffset]
      unfold limitBatchSize at *
      omega
    have hopened : ∃ e, opened (pageFailures (fails k) (offset k)) = some e := by
      unfold opened pageFailures
      simp only [hnegative, List.findSome?_cons, reduceCtorEq, and_false, if_false, and_self,
        if_true]
      cases fails k .connect with
      | some e => exact ⟨e, rfl⟩
      | none =>
          cases fails k .prepare with
          | some e => exact ⟨e, rfl⟩
          | none =>
              cases fails k .bind with
              | some e => exact ⟨e, rfl⟩
              | none => exact ⟨.sqlException, rfl⟩
    obtain ⟨e, he⟩ := hopened
    rw [query_of_opened he, query_of_opened he]

theorem pageComplete_iff (found : ℕ → List IndexRow) (fails : ℕ → Failures) {k : ℕ}
    (h : limitBatchSize * k < 2 ^ 31 + limitBatchSize) :
    ObjectRepository.indexRecordsInBatch (fails k) (found k) (offset k) limitBatchSize =
      .ok ((batch found k).map IndexRow.toMsgOnSuccess) ↔ PageComplete found fails k := by
  rw [query_page h]
  apply catching_query_iff
  intro e a ha
  cases ha

/-- A page that is not refused leaves the counter where the next one can be asked for. -/
theorem lt_of_pageComplete {k : ℕ} (h : limitBatchSize * k < 2 ^ 31 + limitBatchSize)
    (hfull : (batch found k).length = limitBatchSize) (hcomplete : PageComplete found fails k) :
    limitBatchSize * (k + 1) < 2 ^ 31 + limitBatchSize := by
  by_contra hwraps
  have hnegative : (offset k).toInt < 0 := by
    rw [toInt_offset h]
    unfold limitBatchSize at *
    split <;> omega
  rcases hcomplete.undisturbed with hzero | hundisturbed
  · rw [hfull] at hzero
    cases hzero
  · have hexecute := hundisturbed.1
    unfold opened at hexecute
    rw [List.findSome?_eq_none_iff] at hexecute
    have hraises := hexecute .execute (by decide)
    unfold pageFailures at hraises
    rw [if_pos ⟨hnegative, rfl⟩] at hraises
    cases hraises

/-- What was sent stays sent. -/
theorem loop_prefix {fuel k : ℕ} {offsetStartFromHere : JInt} {sent : List MsgOnSuccess}
    {x : Exchange MsgOnSuccess} (h : loop found fails fuel k offsetStartFromHere sent = some x) :
    sent <+: x.responses := by
  induction fuel generalizing k offsetStartFromHere sent with
  | zero => cases h
  | succ fuel ih =>
      unfold loop at h
      split at h
      · cases h
        exact List.prefix_refl _
      · split at h
        · cases h
          exact List.prefix_append _ _
        · exact (List.prefix_append _ _).trans (ih h)

theorem loop_not_onError {fuel k : ℕ} {offsetStartFromHere : JInt} {sent : List MsgOnSuccess}
    {x : Exchange MsgOnSuccess} (h : loop found fails fuel k offsetStartFromHere sent = some x) :
    x.ending ≠ .onError := by
  induction fuel generalizing k offsetStartFromHere sent with
  | zero => cases h
  | succ fuel ih =>
      unfold loop at h
      split at h
      · cases h
        exact Ending.noConfusion
      · split at h
        · cases h
          exact Ending.noConfusion
        · exact ih h

theorem loop_ok {fuel k : ℕ} {offsetStartFromHere : JInt} {items : List MsgOnSuccess}
    (hpage : ObjectRepository.indexRecordsInBatch (fails k) (found k) offsetStartFromHere
      limitBatchSize = .ok items) (sent : List MsgOnSuccess) :
    loop found fails (fuel + 1) k offsetStartFromHere sent =
      if items.length < limitBatchSize then some ⟨sent ++ items, .onCompleted⟩
      else
        loop found fails fuel (k + 1) (offsetStartFromHere + BitVec.ofNat 32 limitBatchSize)
          (sent ++ items) := by
  rw [loop, hpage]

theorem loop_turn {fuel k : ℕ} {offsetStartFromHere : JInt} {sent items : List MsgOnSuccess}
    {x : Exchange MsgOnSuccess}
    (hpage : ObjectRepository.indexRecordsInBatch (fails k) (found k) offsetStartFromHere
      limitBatchSize = .ok items)
    (h : loop found fails (fuel + 1) k offsetStartFromHere sent = some x) :
    sent ++ items <+: x.responses := by
  rw [loop_ok hpage] at h
  split at h
  · cases h
    exact List.prefix_refl _
  · exact loop_prefix h

theorem batches_succ (found : ℕ → List IndexRow) (k count : ℕ) :
    batches found k (count + 1) =
      (batch found k).map IndexRow.toMsgOnSuccess ++ batches found (k + 1) count := by
  unfold batches
  rw [List.range'_succ, List.flatMap_cons]

/-- A page that is cut short is taken for the last, and its batch is not sent. -/
theorem loop_cut (fuel : ℕ) {k count : ℕ} {items : List MsgOnSuccess}
    (hpage : ObjectRepository.indexRecordsInBatch (fails k) (found k) (offset k) limitBatchSize =
      .ok items)
    (hpart : items <+: (batch found k).map IndexRow.toMsgOnSuccess)
    (hitems : items ≠ (batch found k).map IndexRow.toMsgOnSuccess) (sent : List MsgOnSuccess) :
    loop found fails (fuel + 1) k (offset k) sent = some ⟨sent ++ items, .onCompleted⟩ ∧
      sent ++ items ≠ sent ++ batches found k (count + 1) := by
  have hlt : items.length < (batch found k).length := by
    have hle := hpart.length_le
    rw [List.length_map] at hle
    apply Nat.lt_of_le_of_ne hle
    intro heq
    have hsame := heq.trans (List.length_map IndexRow.toMsgOnSuccess).symm
    exact hitems (List.IsPrefix.eq_of_length hpart hsame)
  have hbatch : (batch found k).length ≤ limitBatchSize := List.length_take_le _ _
  constructor
  · rw [loop_ok hpage, if_pos (Nat.lt_of_lt_of_le hlt hbatch)]
  · intro h
    have hlengths := congrArg List.length (List.append_cancel_left h)
    rw [batches_succ, List.length_append, List.length_map] at hlengths
    omega

/-- One turn goes on only when its page is complete and full. -/
theorem loop_from (fails : ℕ → Failures) {n fuel k : ℕ} (hlast : LastBatch found n) (hk : k ≤ n)
    (hfuel : n < k + fuel) (hoffset : limitBatchSize * k < 2 ^ 31 + limitBatchSize)
    (sent : List MsgOnSuccess) :
    ∃ x, loop found fails fuel k (offset k) sent = some x ∧
      (x = ⟨sent ++ batches found k (n + 1 - k), .onCompleted⟩ ↔
        ∀ j, k ≤ j → j ≤ n → PageComplete found fails j) := by
  induction fuel generalizing k sent with
  | zero => omega
  | succ fuel ih =>
      have hcount : n + 1 - k = n - k + 1 := by omega
      have hcomplete := pageComplete_iff found fails hoffset
      rw [hcount]
      cases hpage : ObjectRepository.indexRecordsInBatch (fails k) (found k) (offset k)
          limitBatchSize with
      | error e =>
          rw [hpage] at hcomplete
          refine ⟨⟨sent, .pending⟩, by rw [loop, hpage], ?_⟩
          constructor
          · intro h
            cases congrArg Exchange.ending h
          · intro h
            cases hcomplete.mpr (h k (Nat.le_refl k) hk)
      | ok items =>
          rw [hpage] at hcomplete
          have hprefix := catching_query_prefix ((query_page hoffset).symm.trans hpage)
          by_cases hitems : items = (batch found k).map IndexRow.toMsgOnSuccess
          · have hread := hcomplete.mp (congrArg _ hitems)
            have hlength : items.length = (batch found k).length := by
              rw [hitems, List.length_map]
            rcases Nat.lt_or_eq_of_le hk with hlt | rfl
            · -- a full page: the next turn
              have hfull := hlast.full k hlt
              have hnext := lt_of_pageComplete hoffset hfull hread
              obtain ⟨x, hx, hiff⟩ := @ih (k + 1) hlt (by omega) hnext (sent ++ items)
              refine ⟨x, ?_, ?_⟩
              · rw [loop_ok hpage, if_neg (by omega), offset_succ, hx]
              · rw [batches_succ, ← hitems, ← List.append_assoc]
                rw [Nat.add_sub_add_right] at hiff
                rw [hiff]
                constructor
                · intro h j hkj hjn
                  rcases Nat.eq_or_lt_of_le hkj with rfl | hlt'
                  · exact hread
                  · exact h j hlt' hjn
                · intro h j hkj hjn
                  exact h j (Nat.le_of_succ_le hkj) hjn
            · -- the last page
              have hshort : items.length < limitBatchSize := hlength ▸ hlast.short
              refine ⟨_, by rw [loop_ok hpage, if_pos hshort], ?_⟩
              rw [Nat.sub_self, batches_succ, ← hitems]
              refine iff_of_true (by simp [batches]) ?_
              intro j hkj hjk
              rwa [← Nat.le_antisymm hkj hjk]
          · obtain ⟨hx, hne⟩ := loop_cut fuel hpage hprefix hitems sent
            refine ⟨_, hx, iff_of_false ?_ ?_⟩
            · intro h
              exact hne (congrArg Exchange.responses h)
            · intro h
              exact hitems (Except.ok.inj (hcomplete.mpr (h k (Nat.le_refl k) hk)))

/-- **The call ends, and with every batch sent exactly when** every page is complete. -/
theorem completed_iff (fails : ℕ → Failures) {n fuel : ℕ} (hlast : LastBatch found n)
    (hfuel : n < fuel) :
    ∃ x, ObjServiceImpl.getIndexRecordInBatches found fails fuel = some x ∧
      (x = ⟨batches found 0 (n + 1), .onCompleted⟩ ↔ ∀ k ≤ n, PageComplete found fails k) := by
  have hstart : limitBatchSize * 0 < 2 ^ 31 + limitBatchSize := by decide
  have hfuel' : n < 0 + fuel := by
    rwa [Nat.zero_add]
  obtain ⟨x, hx, hiff⟩ := loop_from fails hlast (Nat.zero_le n) hfuel' hstart []
  refine ⟨x, hx, ?_⟩
  rw [List.nil_append, Nat.sub_zero] at hiff
  rw [hiff]
  exact ⟨fun h k hk => h k (Nat.zero_le k) hk, fun h k _ hk => h k hk⟩

end Loop

/-! ## Every row exactly once -/

section Order

variable {table : IndexTable} {found : ℕ → List IndexRow}

/-- `found` is an order of the table for every query. -/
def Orders (table : IndexTable) (found : ℕ → List IndexRow) : Prop :=
  ∀ k, (found k).Perm table.rows

theorem length_batch (hfound : Orders table found) (k : ℕ) :
    (batch found k).length = min limitBatchSize (table.rows.length - limitBatchSize * k) := by
  unfold batch
  rw [List.length_take, List.length_drop, (hfound k).length_eq]

/-- A table has a batch that is not full, after all that are. -/
theorem Orders.lastBatch (hfound : Orders table found) :
    LastBatch found (table.rows.length / limitBatchSize) := by
  have hdiv := Nat.div_add_mod table.rows.length limitBatchSize
  have hmod := Nat.mod_lt table.rows.length (show 0 < limitBatchSize by decide)
  constructor
  · intro k hk
    have hmul := Nat.mul_le_mul_left limitBatchSize (Nat.succ_le_of_lt hk)
    rw [length_batch hfound]
    rw [Nat.mul_succ] at hmul
    omega
  · rw [length_batch hfound]
    omega

/-- Every row is in the answer once. -/
def ExactlyOnce (table : IndexTable) (x : Exchange MsgOnSuccess) : Prop :=
  x.ending = .onCompleted ∧ x.responses.Perm (table.rows.map IndexRow.toMsgOnSuccess)

theorem pageComplete_none {k : ℕ} (h : limitBatchSize * k < 2 ^ 31) :
    PageComplete found (fun _ => Failures.none) k := by
  have hoffset : ¬ (offset k).toInt < 0 := by
    rw [toInt_offset (by omega), if_pos h, not_lt]
    positivity
  have hfails : pageFailures Failures.none (offset k) = Failures.none := by
    funext p
    unfold pageFailures
    rw [if_neg (fun hp => hoffset hp.1)]
  unfold PageComplete
  rw [hfails]
  exact complete_none _ _ _

/-- A table of one batch is sent whole, also when the next page is the one that is not full. -/
theorem exactlyOnce_of_le (hfound : Orders table found)
    (hle : table.rows.length ≤ limitBatchSize) {fuel : ℕ}
    (hfuel : table.rows.length / limitBatchSize < fuel) {x : Exchange MsgOnSuccess}
    (hx : ObjServiceImpl.getIndexRecordInBatches found (fun _ => Failures.none) fuel = some x) :
    ExactlyOnce table x := by
  have hone : table.rows.length / limitBatchSize ≤ 1 :=
    Nat.div_le_of_le_mul (by rwa [Nat.mul_one])
  obtain ⟨y, hy, hiff⟩ := completed_iff (fun _ => Failures.none) hfound.lastBatch hfuel
  have hxy : x = y := Option.some.inj (hx.symm.trans hy)
  have hresult := hiff.mpr fun k hk => pageComplete_none (by unfold limitBatchSize at *; omega)
  have hfirst : batch found 0 = found 0 := by
    unfold batch
    rw [Nat.mul_zero, List.drop_zero, List.take_of_length_le]
    rw [(hfound 0).length_eq]
    exact hle
  have hsecond : batch found 1 = [] := by
    apply List.eq_nil_of_length_eq_zero
    rw [length_batch hfound]
    omega
  have hrest : batches found 1 (table.rows.length / limitBatchSize) = [] := by
    rcases Nat.le_one_iff_eq_zero_or_eq_one.mp hone with hzero | hone
    · rw [hzero]
      rfl
    · rw [hone, batches_succ, hsecond]
      rfl
  rw [hxy, hresult, batches_succ, hfirst, hrest, List.append_nil]
  exact ⟨rfl, (hfound 0).map _⟩

/-- The first row of the first page, come back as the first row of the second. -/
def movedBack (head : IndexRow) (tail : List IndexRow) : ℕ → List IndexRow
  | 0 => head :: tail
  | _ + 1 => tail.take limitBatchSize ++ head :: tail.drop limitBatchSize

theorem orders_movedBack {head : IndexRow} {tail : List IndexRow}
    (h : table.rows = head :: tail) : Orders table (movedBack head tail) := by
  intro k
  rw [h]
  cases k with
  | zero => exact List.Perm.refl _
  | succ k =>
      have hperm : (tail.take limitBatchSize ++ head :: tail.drop limitBatchSize).Perm
          (head :: (tail.take limitBatchSize ++ tail.drop limitBatchSize)) := List.perm_middle
      rwa [List.take_append_drop] at hperm

theorem head_mem_batch_one {head : IndexRow} {tail : List IndexRow}
    (h : limitBatchSize ≤ tail.length) : head ∈ batch (movedBack head tail) 1 := by
  have hlength : (tail.take limitBatchSize).length = limitBatchSize * 1 := by
    rw [List.length_take, Nat.mul_one]
    exact Nat.min_eq_left h
  unfold batch movedBack
  rw [← hlength, List.drop_left]
  exact List.mem_cons_self

/-- A second page can send a row of the first again. -/
theorem not_exactlyOnce_movedBack {head : IndexRow} {tail : List IndexRow}
    (h : table.rows = head :: tail) (htail : limitBatchSize ≤ tail.length) {fuel : ℕ}
    {x : Exchange MsgOnSuccess}
    (hx : ObjServiceImpl.getIndexRecordInBatches (movedBack head tail) (fun _ => Failures.none)
      (fuel + 2) = some x) :
    ¬ ExactlyOnce table x := by
  have hfound := orders_movedBack h
  have hrows : table.rows.length = tail.length + 1 := by
    rw [h, List.length_cons]
  have hpage : ∀ k ≤ 1, ObjectRepository.indexRecordsInBatch Failures.none
      (movedBack head tail k) (offset k) limitBatchSize =
        .ok ((batch (movedBack head tail) k).map IndexRow.toMsgOnSuccess) := by
    intro k hk
    apply (pageComplete_iff _ (fun _ => Failures.none) _).mpr (pageComplete_none _)
    · unfold limitBatchSize
      omega
    · unfold limitBatchSize
      omega
  have hfull : ¬ ((batch (movedBack head tail) 0).map IndexRow.toMsgOnSuccess).length <
      limitBatchSize := by
    rw [List.length_map, length_batch hfound]
    omega
  have hnext : loop (movedBack head tail) (fun _ => Failures.none) (fuel + 1) 1 (offset 1)
      ((batch (movedBack head tail) 0).map IndexRow.toMsgOnSuccess) = some x := by
    have hzero := hpage 0 (Nat.zero_le 1)
    have hoffset : (0 : JInt) = offset 0 := rfl
    rw [ObjServiceImpl.getIndexRecordInBatches, hoffset, loop_ok hzero, if_neg hfull,
      List.nil_append, offset_succ] at hx
    exact hx
  have hsent := loop_turn (hpage 1 (Nat.le_refl 1)) hnext
  intro honce
  have hnames : (x.responses.map MsgOnSuccess.securityName).Nodup := by
    have hperm := honce.2.map MsgOnSuccess.securityName
    rw [List.map_map] at hperm
    exact hperm.nodup_iff.mpr table.primaryKey
  have htwice := (hsent.sublist.map MsgOnSuccess.securityName).nodup hnames
  rw [List.map_append, List.nodup_append] at htwice
  have hfirst : head ∈ batch (movedBack head tail) 0 := List.mem_cons_self
  refine htwice.2.2 head.name ?_ head.name ?_ rfl
  · exact List.mem_map_of_mem (List.mem_map_of_mem hfirst)
  · exact List.mem_map_of_mem (List.mem_map_of_mem (head_mem_batch_one htail))

/-- **The loop ends on every table, and sends every row once in whatever order each query
answers exactly when** the table fits in one page. -/
theorem exactlyOnce_iff (table : IndexTable) :
    (∀ found, Orders table found → ∀ fuel, table.rows.length / limitBatchSize < fuel →
      ∃ x, ObjServiceImpl.getIndexRecordInBatches found (fun _ => Failures.none) fuel =
        some x) ∧
    ((∀ found, Orders table found → ∀ fuel, table.rows.length / limitBatchSize < fuel →
      ∀ x, ObjServiceImpl.getIndexRecordInBatches found (fun _ => Failures.none) fuel = some x →
        ExactlyOnce table x) ↔ table.rows.length ≤ limitBatchSize) := by
  have hends : ∀ found, Orders table found → ∀ fuel, table.rows.length / limitBatchSize < fuel →
      ∃ x, ObjServiceImpl.getIndexRecordInBatches found (fun _ => Failures.none) fuel =
        some x := by
    intro found hfound fuel hfuel
    obtain ⟨x, hx, _⟩ := completed_iff (fun _ => Failures.none) hfound.lastBatch hfuel
    exact ⟨x, hx⟩
  refine ⟨hends, ?_, ?_⟩
  · intro h
    by_contra hlarge
    rw [not_le] at hlarge
    cases hrows : table.rows with
    | nil =>
        rw [hrows] at hlarge
        exact Nat.not_lt_zero _ hlarge
    | cons head tail =>
        have htail : limitBatchSize ≤ tail.length := by
          rw [hrows, List.length_cons] at hlarge
          exact Nat.le_of_lt_succ hlarge
        have hfound := orders_movedBack hrows
        have hfuel : table.rows.length / limitBatchSize < table.rows.length / limitBatchSize + 2 :=
          Nat.lt_add_of_pos_right (by decide)
        obtain ⟨x, hx⟩ := hends _ hfound _ hfuel
        exact not_exactlyOnce_movedBack hrows htail hx (h _ hfound _ hfuel x hx)
  · intro hle found hfound fuel hfuel x hx
    exact exactlyOnce_of_le hfound hle hfuel hx

end Order

def numberedRow (i : ℕ) : IndexRow where
  columns := []
  name := String.ofList (List.replicate i 'a')
  nameLower := String.ofList (List.replicate i 'a')

theorem numberedRow_name_injective : Function.Injective fun i => (numberedRow i).name := by
  intro i j h
  have hlength := congrArg String.length h
  simpa [numberedRow] using hlength

def rowsTo (n : ℕ) : IndexTable where
  rows := (List.range n).map numberedRow
  primaryKey := by
    unfold Foundation.KeyedRows.Unique
    rw [List.map_map]
    exact List.nodup_range.map numberedRow_name_injective

/-- 101 rows: the second query finds the first row where the hundred-and-first was. -/
theorem first_row_sent_again :
    ∃ found, Orders (rowsTo 101) found ∧
      ∃ x, ObjServiceImpl.getIndexRecordInBatches found (fun _ => Failures.none) 2 = some x ∧
        ¬ ExactlyOnce (rowsTo 101) x := by
  have hrows : (rowsTo 101).rows = numberedRow 0 :: (List.range' 1 100).map numberedRow := rfl
  have hfound := orders_movedBack hrows
  have hlength : (rowsTo 101).rows.length / limitBatchSize < 2 := by decide
  obtain ⟨x, hx, _⟩ := completed_iff (fun _ => Failures.none) hfound.lastBatch hlength
  refine ⟨_, hfound, x, hx, ?_⟩
  apply not_exactlyOnce_movedBack hrows _ hx
  rw [List.length_map, List.length_range']
  decide

end AuroraSizing.IndexBatches
