import AuroraSizing.Foundation.Cursor
import AuroraSizing.Lookup.GetTypes

/-!
# Pages of a table that changes

A client asks again from the last name of a page until a page is short. Between its lookups
transactions commit, and each lookup is answered on the table of its own moment. What stays in
the table is delivered nevertheless, if the direction of the get type leads away from the name
it asks from. `METADATA_GET_LESS` and `METADATA_GET_GE` lead back to it: there every page is the
first one again.
-/

namespace AuroraSizing.Lookup

open Foundation.Cursor

variable {jdk : Jdk} {col : Collation} {s : Search}

/-- One lookup of a client: the table as it is then, the names it gets, and whether these are
all. When the database or the stream fails they are the ones that came before. -/
structure Visit (jdk : Jdk) where
  table : LowerTable jdk
  secKeys : List String
  whole : Bool

/-- The client may get this when it asks from `pattern` on. -/
def Visit.Gets (col : Collation) (s : Search) (pattern : String) (v : Visit jdk) : Prop :=
  ∃ names, s.Answers col v.table pattern names ∧ v.secKeys <+: names ∧
    (v.whole = true → v.secKeys = names)

/-- The lookups of a client, as far as it went: it goes on from the last name of a full page. -/
inductive Visits (col : Collation) (s : Search) : String → List (Visit jdk) → Prop
  | stop (pattern : String) : Visits col s pattern []
  | short {pattern : String} {v : Visit jdk} (gets : v.Gets col s pattern)
      (short : (v.secKeys.length : ℤ) < s.count.toInt) : Visits col s pattern [v]
  | full {pattern key : String} {v : Visit jdk} {vs : List (Visit jdk)}
      (gets : v.Gets col s pattern) (full : ¬ (v.secKeys.length : ℤ) < s.count.toInt)
      (last : v.secKeys.getLast? = some key) (next : Visits col s key vs) :
      Visits col s pattern (v :: vs)

/-- The last page was short, and not because of a failure. -/
def Ended (s : Search) (vs : List (Visit jdk)) : Prop :=
  ∃ v, vs.getLast? = some v ∧ v.whole = true ∧ (v.secKeys.length : ℤ) < s.count.toInt

/-- The name is in the table, with the type asked for. -/
def Search.Has (s : Search) (table : LowerTable jdk) (name : String) : Prop :=
  ∃ r ∈ s.rows table, r.name = name

/-- From the first name on, in the direction of the get type. -/
def Search.From (col : Collation) (s : Search) (jdk : Jdk) (start name : String) : Prop :=
  s.getType.asks.2.along col (jdk.toLowerCase start) (jdk.toLowerCase name) = true

/-- The get types whose order starts with the bound. -/
def GetType.LeadsAway (g : GetType) : Prop :=
  g.asks = (.ge, .asc) ∨ g.asks = (.le, .desc)

/-- The get types whose order ends with the bound. -/
def GetType.LeadsBack (g : GetType) : Prop :=
  g.asks = (.le, .asc) ∨ g.asks = (.ge, .desc)

instance (g : GetType) : Decidable g.LeadsAway := inferInstanceAs (Decidable (_ ∨ _))
instance (g : GetType) : Decidable g.LeadsBack := inferInstanceAs (Decidable (_ ∨ _))

/-- Whatever happens to the table meanwhile. -/
structure Delivers (col : Collation) (s : Search) (start : String) (vs : List (Visit jdk)) :
    Prop where
  found : ∀ v ∈ vs, ∀ name ∈ v.secKeys, s.Has v.table name ∧ s.From col jdk start name
  inOrder : ∀ v ∈ vs, v.secKeys.Pairwise fun a b =>
    s.From col jdk a b ∧ jdk.toLowerCase a ≠ jdk.toLowerCase b
  onward : vs.Pairwise fun v w => ∀ a ∈ v.secKeys, ∀ b ∈ w.secKeys, s.From col jdk a b ∧
    (jdk.toLowerCase a = jdk.toLowerCase b →
      v.secKeys.getLast? = some a ∧ w.secKeys.head? = some b)
  complete : Ended s vs → ∀ name, (∀ v ∈ vs, s.Has v.table name) → s.From col jdk start name →
    ∃ v ∈ vs, name ∈ v.secKeys
  lookups : ∀ K : Finset String, (∀ v ∈ vs, ∀ r ∈ v.table.rows, r.nameLower ∈ K) →
    (vs.length - 1) * (s.count.toInt.toNat - 1) ≤ K.card

/-! ## A client is a reader with a cursor -/

/-- The lookup as a turn at the names of the rows. -/
def Visit.turn (s : Search) (v : Visit jdk) : Turn String where
  table := (s.rows v.table).map ObjectRow.name
  page := v.secKeys
  whole := v.whole

theorem mem_turn_table {v : Visit jdk} {name : String} :
    name ∈ (v.turn s).table ↔ s.Has v.table name := List.mem_map

/-- A get type that leads away asks for what is from the bound on in its own order. -/
theorem GetType.LeadsAway.holds (h : s.getType.LeadsAway) (pattern : String) (r : ObjectRow) :
    s.holds col jdk pattern r =
      s.getType.asks.2.along col (jdk.toLowerCase pattern) r.nameLower := by
  unfold Search.holds
  rcases h with h | h <;> rw [h] <;> rfl

theorem Visit.Gets.reads (h : s.getType.LeadsAway) (hcount : 0 ≤ s.count.toInt)
    {pattern : String} {v : Visit jdk} (hgets : v.Gets col s pattern) :
    (v.turn s).Reads jdk.toLowerCase (fun a b => s.getType.asks.2.along col a b = true)
      s.count.toInt.toNat (jdk.toLowerCase pattern) := by
  obtain ⟨names, hnames, hpre, hwhole⟩ := hgets
  rw [Search.answers_iff hcount] at hnames
  subst hnames
  refine Turn.Reads.of_prefix ?_ (s.names_sorted col v.table pattern) hpre hwhole
  intro name
  rw [Search.mem_names, mem_turn_table]
  constructor
  · rintro ⟨r, hr, hholds, rfl⟩
    refine ⟨⟨r, hr, rfl⟩, ?_⟩
    rw [← v.table.lower r ((s.rows_sublist v.table).subset hr), ← h.holds]
    exact hholds
  · rintro ⟨⟨r, hr, rfl⟩, hle⟩
    refine ⟨r, hr, ?_, rfl⟩
    rw [h.holds, v.table.lower r ((s.rows_sublist v.table).subset hr)]
    exact hle

theorem Visits.walk (h : s.getType.LeadsAway) (hcount : 0 < s.count.toInt) {start : String}
    {vs : List (Visit jdk)} (hvs : Visits col s start vs) :
    Walk jdk.toLowerCase (fun a b => s.getType.asks.2.along col a b = true)
      s.count.toInt.toNat (jdk.toLowerCase start) (vs.map (Visit.turn s)) := by
  induction hvs with
  | stop => exact .stop _
  | @short pattern v gets hshort =>
      refine .short (gets.reads h hcount.le) ?_
      have hpage : (v.turn s).page = v.secKeys := rfl
      rw [hpage]
      omega
  | @full pattern key v vs gets hfull last _ ih =>
      have hreads := gets.reads h hcount.le
      refine .full hreads ?_ last ih
      have hpage : (v.turn s).page = v.secKeys := rfl
      have hle := hreads.length_le
      rw [hpage] at hle ⊢
      omega

/-- There are no more lookups than names for them. -/
theorem Visits.length_le (haway : s.getType.LeadsAway) (hcount : 0 < s.count.toInt)
    {start : String} {vs : List (Visit jdk)} (h : Visits col s start vs) {K : Finset String}
    (hK : ∀ v ∈ vs, ∀ r ∈ v.table.rows, r.nameLower ∈ K) :
    (vs.length - 1) * (s.count.toInt.toNat - 1) ≤ K.card := by
  have hwalk := h.walk haway hcount
  have hle := hwalk.turns_le (K := K) (by
    intro t ht name hname
    obtain ⟨w, hw, rfl⟩ := List.mem_map.mp ht
    obtain ⟨r, hr, rfl⟩ := mem_turn_table.mp (hwalk.found _ ht name hname).1
    have hrow := (s.rows_sublist w.table).subset hr
    rw [← w.table.lower r hrow]
    exact hK w hw r hrow)
  rwa [List.length_map] at hle

/-- **Paging survives changes**: whatever is committed between the lookups, every page is of the
table of its moment and goes on where the one before ended, what stays in the table is delivered,
and the client asks no more often than there are names for it. -/
theorem paging_delivers (jdk : Jdk) (col : Collation) (s : Search) (start : String)
    (vs : List (Visit jdk)) (hcount : 2 ≤ s.count.toInt) (haway : s.getType.LeadsAway)
    (h : Visits col s start vs) : Delivers col s start vs := by
  have hwalk := h.walk haway (by omega)
  have hturn : ∀ v ∈ vs, v.turn s ∈ vs.map (Visit.turn s) := fun v hv => List.mem_map_of_mem hv
  refine ⟨?_, ?_, ?_, ?_, ?_⟩
  · intro v hv name hname
    obtain ⟨htable, hfrom⟩ := hwalk.found (v.turn s) (hturn v hv) name hname
    exact ⟨mem_turn_table.mp htable, hfrom⟩
  · intro v hv
    obtain ⟨_, hreads⟩ := hwalk.reads (v.turn s) (hturn v hv)
    exact hreads.sorted
  · exact List.pairwise_map.mp hwalk.ordered
  · rintro ⟨v, hlast, hwhole, hshort⟩ name hall hfrom
    have hfinished : Finished s.count.toInt.toNat (vs.map (Visit.turn s)) := by
      refine ⟨v.turn s, ?_, hwhole, ?_⟩
      · rw [List.getLast?_map, hlast]
        rfl
      · have hpage : (v.turn s).page = v.secKeys := rfl
        rw [hpage]
        omega
    obtain ⟨t, ht, hname⟩ := hwalk.complete hfinished (a := name) (by
      intro t ht
      obtain ⟨w, hw, rfl⟩ := List.mem_map.mp ht
      exact mem_turn_table.mpr (hall w hw)) hfrom
    obtain ⟨w, hw, rfl⟩ := List.mem_map.mp ht
    exact ⟨w, hw, hname⟩
  · exact fun K hK => h.length_le haway (by omega) hK

/-- `sampleTable` after the first object was deleted and another one inserted. -/
def changedTable : LowerTable Jdk.ascii where
  rows := [sampleRow "Gamma", sampleRow "Beta"]
  objectTypeidName := by decide
  objectLowerName := by decide
  objectName := by decide
  lower := by unfold LowerNames; decide

def twoAtATime : Search := ⟨.metadataGetGreater, 2, some 0⟩

theorem twoAtATime_gets {pattern : String} {v : Visit Jdk.ascii} (found : List ObjectRow)
    (hperm : found.Perm ((twoAtATime.rows v.table).filter
      (twoAtATime.holds Collation.codePoints Jdk.ascii pattern)))
    (hordered : found.Pairwise fun r t =>
      Collation.codePoints.le r.nameLower t.nameLower = true)
    (hpage : v.secKeys = (found.take 2).map ObjectRow.name) :
    v.Gets Collation.codePoints twoAtATime pattern := by
  refine ⟨v.secKeys, ?_, List.prefix_refl _, fun _ => rfl⟩
  exact (Search.answers_iff_rows (by decide)).mpr ⟨found, hperm, hordered, hpage⟩

theorem changed_delivers : Delivers Collation.codePoints twoAtATime "a"
    [⟨sampleTable, ["Alpha", "Beta"], true⟩, ⟨changedTable, ["Beta", "Gamma"], true⟩,
      ⟨changedTable, ["Gamma"], true⟩] := by
  refine paging_delivers Jdk.ascii Collation.codePoints twoAtATime "a" _ (by decide) (by decide) ?_
  have hfirst := @twoAtATime_gets "a" ⟨sampleTable, ["Alpha", "Beta"], true⟩
    [sampleRow "Alpha", sampleRow "Beta"] (by decide +kernel) (by decide +kernel) rfl
  have hsecond := @twoAtATime_gets "Beta" ⟨changedTable, ["Beta", "Gamma"], true⟩
    [sampleRow "Beta", sampleRow "Gamma"] (by decide +kernel) (by decide +kernel) rfl
  have hthird := @twoAtATime_gets "Gamma" ⟨changedTable, ["Gamma"], true⟩
    [sampleRow "Gamma"] (by decide +kernel) (by decide +kernel) rfl
  exact .full hfirst (by decide) rfl (.full hsecond (by decide) rfl (.short hthird (by decide)))

/-! ## When the client comes to an end -/

/-- All lookups are answered on one table, and none fails. -/
def Undisturbed (table : LowerTable jdk) (vs : List (Visit jdk)) : Prop :=
  ∀ v ∈ vs, v.table = table ∧ v.whole = true

variable {table : LowerTable jdk}

theorem GetType.LeadsBack.holds (h : s.getType.LeadsBack) (pattern : String) (r : ObjectRow) :
    s.holds col jdk pattern r =
      s.getType.asks.2.along col r.nameLower (jdk.toLowerCase pattern) := by
  unfold Search.holds
  rcases h with h | h <;> rw [h] <;> rfl

/-- The first names up to a pattern are all there are up to the last of them. -/
theorem GetType.LeadsBack.names_eq (h : s.getType.LeadsBack) {pattern key : String} {n : ℕ}
    (hkey : ((s.names col table pattern).take n).getLast? = some key) :
    s.names col table key = (s.names col table pattern).take n := by
  have hmem : ∀ bound name : String, name ∈ s.names col table bound ↔ s.Has table name ∧
      s.getType.asks.2.along col (jdk.toLowerCase name) (jdk.toLowerCase bound) = true := by
    intro bound name
    rw [Search.mem_names]
    constructor
    · rintro ⟨r, hr, hholds, rfl⟩
      rw [h.holds, table.lower r ((s.rows_sublist table).subset hr)] at hholds
      exact ⟨⟨r, hr, rfl⟩, hholds⟩
    · rintro ⟨⟨r, hr, rfl⟩, hle⟩
      refine ⟨r, hr, ?_, rfl⟩
      rw [h.holds, table.lower r ((s.rows_sublist table).subset hr)]
      exact hle
  refine @eq_take_of_upTo _ _ jdk.toLowerCase
    (fun a b => s.getType.asks.2.along col a b = true) n _ _ _ key
    (s.names_sorted col table pattern) (s.names_sorted col table key) hkey ?_
  intro name
  have hbound := ((hmem pattern key).mp (List.mem_of_mem_take (List.mem_of_getLast? hkey))).2
  rw [hmem, hmem, and_assoc]
  refine and_congr_right fun _ => ⟨fun hle => ⟨?_, hle⟩, And.right⟩
  exact trans_of (fun a b => s.getType.asks.2.along col a b = true) hle hbound

/-- One name at most is equal to the pattern. -/
theorem names_length_of_eq (h : s.getType.asks.1 = .eq) (pattern : String) :
    (s.names col table pattern).length ≤ 1 := by
  have hsame : ∀ name ∈ s.names col table pattern,
      jdk.toLowerCase name = jdk.toLowerCase pattern := by
    intro name hname
    obtain ⟨r, hr, hholds, rfl⟩ := Search.mem_names.mp hname
    rw [Search.holds, h] at hholds
    rw [← table.lower r ((s.rows_sublist table).subset hr)]
    exact of_decide_eq_true hholds
  have hsorted := s.names_sorted col table pattern
  match hnames : s.names col table pattern with
  | [] => exact Nat.zero_le 1
  | [_] => exact Nat.le_refl 1
  | a :: b :: rest =>
      rw [hnames] at hsorted hsame
      have hne := ((List.pairwise_cons.mp hsorted).1 b List.mem_cons_self).2
      refine absurd ?_ hne
      rw [hsame a List.mem_cons_self, hsame b (List.mem_cons_of_mem a List.mem_cons_self)]

theorem Visit.Gets.secKeys_eq (hcount : 0 ≤ s.count.toInt) {pattern : String} {v : Visit jdk}
    (h : v.Gets col s pattern) (htable : v.table = table) (hwhole : v.whole = true) :
    v.secKeys = (s.names col table pattern).take s.count.toInt.toNat := by
  obtain ⟨names, hnames, -, hall⟩ := h
  rw [Search.answers_iff hcount, htable] at hnames
  rw [hall hwhole, hnames]

/-- A client led back has the same full page before it all the time. -/
theorem not_ended_of_leadsBack (hback : s.getType.LeadsBack) (hcount : 0 ≤ s.count.toInt)
    {start : String} {vs : List (Visit jdk)} (h : Visits col s start vs)
    (hvs : Undisturbed table vs)
    (hfull : s.count.toInt.toNat ≤ (s.names col table start).length) : ¬ Ended s vs := by
  induction h with
  | stop =>
      rintro ⟨_, hlast, -⟩
      cases hlast
  | @short pattern v gets hshort =>
      obtain ⟨htable, hwhole⟩ := hvs v List.mem_cons_self
      rw [gets.secKeys_eq hcount htable hwhole, List.length_take, Nat.min_eq_left hfull] at hshort
      omega
  | @full pattern key v vs gets hlong last _ ih =>
      obtain ⟨htable, hwhole⟩ := hvs v List.mem_cons_self
      rw [gets.secKeys_eq hcount htable hwhole] at last
      have hagain := ih (fun w hw => hvs w (List.mem_cons_of_mem v hw)) (by
        rw [hback.names_eq last, List.length_take, Nat.min_eq_left hfull])
      rintro ⟨w, hw, hend⟩
      rcases vs with _ | ⟨u, us⟩
      · cases hw
        exact hlong hend.2
      · rw [List.getLast?_cons_cons] at hw
        exact hagain ⟨w, hw, hend⟩

/-- A client gets to its end, or as far as it likes. -/
theorem exists_visits (col : Collation) (s : Search) (table : LowerTable jdk)
    (hcount : 0 < s.count.toInt) (m : ℕ) (start : String) :
    ∃ vs : List (Visit jdk), Visits col s start vs ∧ Undisturbed table vs ∧
      (Ended s vs ∨ vs.length = m) := by
  induction m generalizing start with
  | zero => exact ⟨[], .stop start, fun v hv => absurd hv List.not_mem_nil, .inr rfl⟩
  | succ m ih =>
      set page := (s.names col table start).take s.count.toInt.toNat with hpage
      set v : Visit jdk := ⟨table, page, true⟩
      have hgets : v.Gets col s start := by
        refine ⟨page, (Search.answers_iff hcount.le).mpr hpage, List.prefix_refl page, ?_⟩
        exact fun _ => rfl
      by_cases hshort : (page.length : ℤ) < s.count.toInt
      · refine ⟨[v], .short hgets hshort, ?_, .inl ⟨v, rfl, rfl, hshort⟩⟩
        intro w hw
        obtain rfl := List.mem_singleton.mp hw
        exact ⟨rfl, rfl⟩
      · have hne : page ≠ [] := by
          intro hnil
          rw [hnil] at hshort
          exact hshort hcount
        obtain ⟨vs, hvs, hquiet, hend⟩ := ih (page.getLast hne)
        refine ⟨v :: vs, .full hgets hshort (List.getLast?_eq_some_getLast hne) hvs, ?_, ?_⟩
        · intro w hw
          rcases List.mem_cons.mp hw with rfl | hw
          · exact ⟨rfl, rfl⟩
          · exact hquiet w hw
        · refine hend.imp ?_ (congrArg Nat.succ)
          rintro ⟨w, hw, hlast⟩
          refine ⟨w, ?_, hlast⟩
          rw [List.getLast?_cons, hw]
          rfl

/-- One page may do. -/
theorem exists_ended_of_fits (hcount : 0 ≤ s.count.toInt) {start : String}
    (hfit : ((s.names col table start).length : ℤ) < s.count.toInt) :
    ∃ vs, Visits col s start vs ∧ Undisturbed table vs ∧ Ended s vs := by
  set v : Visit jdk := ⟨table, s.names col table start, true⟩
  have hle : (s.names col table start).length ≤ s.count.toInt.toNat := by omega
  refine ⟨[v], .short ?_ hfit, ?_, v, rfl, rfl, hfit⟩
  · refine ⟨s.names col table start, ?_, List.prefix_refl _, fun _ => rfl⟩
    exact (Search.answers_iff hcount).mpr (List.take_of_length_le hle).symm
  · intro w hw
    obtain rfl := List.mem_singleton.mp hw
    exact ⟨rfl, rfl⟩

theorem GetType.leadsAway_of_not_back {g : GetType} (hback : ¬ g.LeadsBack)
    (heq : g.asks.1 ≠ .eq) : g.LeadsAway := by
  revert hback heq
  cases g <;> decide

/-- **The client comes to its end on a table exactly when** the get type does not lead back to
where it asks from, or all names that match fit on one page. -/
theorem paging_ends_iff (jdk : Jdk) (col : Collation) (s : Search) (table : LowerTable jdk)
    (start : String) (hcount : 2 ≤ s.count.toInt) :
    (∃ vs, Visits col s start vs ∧ Undisturbed table vs ∧ Ended s vs) ↔
      ¬ s.getType.LeadsBack ∨
        (((s.rows table).filter (s.holds col jdk start)).length : ℤ) < s.count.toInt := by
  have hlength : (s.names col table start).length =
      ((s.rows table).filter (s.holds col jdk start)).length := by
    rw [Search.names, List.length_map, (List.mergeSort_perm _ _).length_eq]
  rw [← hlength]
  constructor
  · rintro ⟨vs, hvs, hquiet, hend⟩
    by_contra hnot
    rw [not_or, not_not] at hnot
    exact not_ended_of_leadsBack hnot.1 (by omega) hvs hquiet (by omega) hend
  · intro h
    by_cases hfit : ((s.names col table start).length : ℤ) < s.count.toInt
    · exact exists_ended_of_fits (by omega) hfit
    · have hback := h.resolve_right hfit
      have haway : s.getType.LeadsAway := by
        apply GetType.leadsAway_of_not_back hback
        intro heq
        have hone := @names_length_of_eq jdk col s table heq start
        omega
      -- a walk of more turns than names is not there
      set K := (table.rows.map ObjectRow.nameLower).toFinset
      obtain ⟨vs, hvs, hquiet, hend | hlong⟩ :=
        exists_visits col s table (by omega) (K.card + 2) start
      · exact ⟨vs, hvs, hquiet, hend⟩
      · have hle := hvs.length_le haway (by omega) (K := K) (by
          intro v hv r hr
          rw [(hquiet v hv).1] at hr
          exact List.mem_toFinset.mpr (List.mem_map_of_mem hr))
        have hstep : K.card + 1 ≤ (K.card + 1) * (s.count.toInt.toNat - 1) :=
          Nat.le_mul_of_pos_right _ (by omega)
        rw [hlong, Nat.add_sub_assoc (by decide)] at hle
        exact absurd (hstep.trans hle) (Nat.not_succ_le_self _)

/-- With `Alpha` and `Beta` in the table, a client that asks for two names up to `c` gets them
for ever. -/
theorem less_never_ends : ¬ ∃ vs, Visits Collation.codePoints ⟨.metadataGetLess, 2, none⟩ "c" vs ∧
    Undisturbed sampleTable vs ∧ Ended ⟨.metadataGetLess, 2, none⟩ vs := by
  refine mt (paging_ends_iff Jdk.ascii Collation.codePoints ⟨.metadataGetLess, 2, none⟩ sampleTable
    "c" (by decide)).mp ?_
  decide +kernel

end AuroraSizing.Lookup
