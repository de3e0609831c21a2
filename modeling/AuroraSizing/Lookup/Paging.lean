import AuroraSizing.Foundation.Overlap
import AuroraSizing.Lookup.Agreement

/-!
# Paging by the last key

The benchmark client asks for `n` names from its pattern on and starts again from the last name
it got. The comparison is `>=`, so each page starts with the name the page before ended with,
and what goes on from there is the rest of the names: the cursor is a name in any case, but its
lower case is the `nameLower` of its row.
-/

namespace AuroraSizing.Lookup

open Foundation.Overlap

variable {jdk : Jdk} {col : Collation} {table : LowerTable jdk} {limit : JInt}

/-- The names from `bound` on, in order. -/
def LowerTable.namesFrom (col : Collation) (table : LowerTable jdk) (bound : String) :
    List String :=
  ((table.above col bound).mergeSort (nameLowerLe col)).map ObjectRow.name

/-- `lookup` may answer this page. -/
def Page (col : Collation) (table : LowerTable jdk) (limit : JInt) (start : String)
    (page : List String) : Prop :=
  Returns col table (ObjectRepository.lookup jdk start METADATA_GET_GREATER limit) page

/-- The pattern after this one: the last key of a page that is not short. -/
def NextPattern (col : Collation) (table : LowerTable jdk) (limit : JInt)
    (pattern key : String) : Prop :=
  ∃ page, Page col table limit pattern page ∧ ¬ (page.length : ℤ) < limit.toInt ∧
    page.getLast? = some key

/-- The pages from this pattern on, up to the first that is short. -/
inductive Paging (col : Collation) (table : LowerTable jdk) (limit : JInt) :
    String → List (List String) → Prop
  | short {pattern : String} {keys : List String} (answer : Page col table limit pattern keys)
      (short : (keys.length : ℤ) < limit.toInt) : Paging col table limit pattern [keys]
  | full {pattern key : String} {keys : List String} {pages : List (List String)}
      (answer : Page col table limit pattern keys) (full : ¬ (keys.length : ℤ) < limit.toInt)
      (last : keys.getLast? = some key) (next : Paging col table limit key pages) :
      Paging col table limit pattern (keys :: pages)

/-- The pages have the names from `start` on, each but the repeated ones once, in order. -/
structure Covers (col : Collation) (table : LowerTable jdk) (start : String)
    (pages : List (List String)) : Prop where
  exactly : ∀ name, (∃ page ∈ pages, name ∈ page) ↔
    ∃ r ∈ table.rows, col.le (jdk.toLowerCase start) r.nameLower = true ∧ r.name = name
  inOrder : pages.flatten.Pairwise fun s t => col.le (jdk.toLowerCase s) (jdk.toLowerCase t) = true
  once : (joined pages).Nodup
  shared : pages.IsChain fun p q => ∃! name, name ∈ p ∧ name ∈ q

/-! ## The names from a name on -/

theorem page_iff (hlimit : 0 ≤ limit.toInt) {start : String} {page : List String} :
    Page col table limit start page ↔
      page = (table.namesFrom col (jdk.toLowerCase start)).take limit.toInt.toNat := by
  rw [Page, returns_lookup_iff hlimit, LowerTable.smallest, LowerTable.namesFrom, List.map_take]

theorem mem_namesFrom {bound name : String} :
    name ∈ table.namesFrom col bound ↔
      ∃ r ∈ table.rows, col.le bound r.nameLower = true ∧ r.name = name := by
  rw [LowerTable.namesFrom, List.mem_map]
  constructor
  · rintro ⟨r, hr, rfl⟩
    obtain ⟨hrow, hle⟩ := table.mem_above.mp (List.mem_mergeSort.mp hr)
    exact ⟨r, hrow, hle, rfl⟩
  · rintro ⟨r, hrow, hle, rfl⟩
    exact ⟨r, List.mem_mergeSort.mpr (table.mem_above.mpr ⟨hrow, hle⟩), rfl⟩

theorem namesFrom_nodup (bound : String) : (table.namesFrom col bound).Nodup := by
  have hsorted := ((List.mergeSort_perm (table.above col bound) (nameLowerLe col)).nodup_iff).mpr
    (table.above_nodup bound)
  refine hsorted.map_on ?_
  intro r hr s hs hname
  exact table.eq_of_name (table.mem_above.mp (List.mem_mergeSort.mp hr)).1
    (table.mem_above.mp (List.mem_mergeSort.mp hs)).1 hname

theorem namesFrom_sorted (bound : String) :
    (table.namesFrom col bound).Pairwise fun s t =>
      col.le (jdk.toLowerCase s) (jdk.toLowerCase t) = true := by
  rw [LowerTable.namesFrom, List.pairwise_map]
  refine (mergeSort_sorted col _).imp_of_mem ?_
  intro r s hr hs hle
  rw [← table.lower r (table.mem_above.mp (List.mem_mergeSort.mp hr)).1,
    ← table.lower s (table.mem_above.mp (List.mem_mergeSort.mp hs)).1]
  exact hle

/-- The names from a name of the list on are the list from there. -/
theorem namesFrom_of_split {bound name : String} {before after : List String}
    (h : table.namesFrom col bound = before ++ name :: after) :
    table.namesFrom col (jdk.toLowerCase name) = name :: after := by
  rw [LowerTable.namesFrom] at h
  obtain ⟨rows, rest, hsplit, rfl, hrest⟩ := List.map_eq_append_iff.mp h
  obtain ⟨r, rows', rfl, rfl, rfl⟩ := List.map_eq_cons_iff.mp hrest
  have hsorted := mergeSort_sorted col (table.above col bound)
  have hmem : ∀ s, s ∈ rows ++ r :: rows' ↔ s ∈ table.above col bound := by
    intro s
    rw [← hsplit, List.mem_mergeSort]
  rw [hsplit] at hsorted
  obtain ⟨-, hafter, hcross⟩ := List.pairwise_append.mp hsorted
  have hr : r ∈ table.rows ∧ col.le bound r.nameLower = true :=
    table.mem_above.mp ((hmem r).mp (by simp))
  have hnodup : (r :: rows').Nodup := by
    have hall := ((List.mergeSort_perm (table.above col bound) (nameLowerLe col)).nodup_iff).mpr
      (table.above_nodup bound)
    rw [hsplit] at hall
    exact (List.nodup_append.mp hall).2.1
  have hperm : (r :: rows').Perm (table.above col r.nameLower) := by
    rw [List.perm_ext_iff_of_nodup hnodup (table.above_nodup _)]
    intro s
    rw [table.mem_above]
    constructor
    · intro hs
      refine ⟨(table.mem_above.mp ((hmem s).mp (List.mem_append_right _ hs))).1, ?_⟩
      rcases List.mem_cons.mp hs with rfl | hs
      · simpa using col.total s.nameLower s.nameLower
      · exact (List.pairwise_cons.mp hafter).1 s hs
    · rintro ⟨hrow, hle⟩
      have hs := (hmem s).mpr (table.mem_above.mpr ⟨hrow, col.trans _ _ _ hr.2 hle⟩)
      rcases List.mem_append.mp hs with hs | hs
      · -- a row before this one is not above it
        have hge : col.le s.nameLower r.nameLower = true := hcross s hs r (List.mem_cons_self ..)
        rw [table.eq_of_nameLower hrow hr.1 (col.antisymm _ _ hge hle)]
        exact List.mem_cons_self ..
      · exact hs
  rw [LowerTable.namesFrom, ← table.lower r hr.1, ← sorted_unique hperm hafter, List.map_cons]

/-! ## The pages -/

theorem toNat_le_iff (hlimit : 0 ≤ limit.toInt) (n : ℕ) :
    ¬ (n : ℤ) < limit.toInt ↔ limit.toInt.toNat ≤ n := by
  omega

/-- A full page is the names up to its last key. -/
theorem page_full {pattern key : String} {keys : List String} (hlimit : 0 < limit.toInt)
    (answer : Page col table limit pattern keys) (full : ¬ (keys.length : ℤ) < limit.toInt)
    (last : keys.getLast? = some key) :
    ∃ before after, before.length + 1 = limit.toInt.toNat ∧ keys = before ++ [key] ∧
      table.namesFrom col (jdk.toLowerCase pattern) = before ++ key :: after ∧
      table.namesFrom col (jdk.toLowerCase key) = key :: after := by
  rw [page_iff (by omega)] at answer
  have hle : limit.toInt.toNat ≤ (table.namesFrom col (jdk.toLowerCase pattern)).length := by
    rw [toNat_le_iff (by omega), answer, List.length_take] at full
    omega
  obtain ⟨before, x, after, hnames, hbefore⟩ := split_of_le (by omega) hle
  have hkeys : keys = before ++ [x] := by
    rw [answer, hnames, List.append_cons, List.take_left' (by simpa using hbefore)]
  obtain rfl : x = key := by
    rw [hkeys, List.getLast?_concat] at last
    exact Option.some.inj last
  exact ⟨before, after, hbefore, hkeys, hnames, namesFrom_of_split hnames⟩

/-- **The client's pages** are the overlapping pages of the names. -/
theorem paging_iff (hlimit : 0 < limit.toInt) {start : String} {pages : List (List String)} :
    Paging col table limit start pages ↔
      Pages limit.toInt.toNat (table.namesFrom col (jdk.toLowerCase start)) pages := by
  constructor
  · intro h
    induction h with
    | @short pattern keys answer hshort =>
        rw [page_iff (by omega)] at answer
        have hlt : (table.namesFrom col (jdk.toLowerCase pattern)).length <
            limit.toInt.toNat := by
          rw [answer, List.length_take] at hshort
          omega
        rw [answer, List.take_of_length_le hlt.le]
        exact .short hlt
    | full answer hfull last _ ih =>
        obtain ⟨before, after, hbefore, rfl, hnames, hnext⟩ := page_full hlimit answer hfull last
        rw [hnext] at ih
        rw [hnames]
        exact .full hbefore ih
  · intro h
    generalize hnames : table.namesFrom col (jdk.toLowerCase start) = names at h
    induction h generalizing start with
    | @short names hlt =>
        refine .short ((page_iff (by omega)).mpr ?_) (by omega)
        rw [hnames, List.take_of_length_le hlt.le]
    | @full before after key pages hbefore _ ih =>
        have hnext : Paging col table limit key pages := ih (namesFrom_of_split hnames)
        refine .full ((page_iff (by omega)).mpr ?_) ?_ List.getLast?_concat hnext
        · rw [hnames, List.append_cons before key after, List.take_left' (by simpa using hbefore)]
        · rw [toNat_le_iff (by omega), ← hbefore]
          simp

/-- Each pattern has fewer names before it. -/
theorem nextPattern_shorter (hlimit : 2 ≤ limit.toInt) {pattern key : String}
    (h : NextPattern col table limit pattern key) :
    (table.namesFrom col (jdk.toLowerCase key)).length <
      (table.namesFrom col (jdk.toLowerCase pattern)).length := by
  obtain ⟨keys, answer, hfull, last⟩ := h
  obtain ⟨before, after, hbefore, -, hnames, hnext⟩ := page_full (by omega) answer hfull last
  rw [hnames, hnext, List.length_append]
  omega

theorem nextPattern_acc (hlimit : 2 ≤ limit.toInt) (start : String) :
    Acc (fun key pattern => NextPattern col table limit pattern key) start := by
  refine Subrelation.accessible ?_ ((measure fun pattern =>
    (table.namesFrom col (jdk.toLowerCase pattern)).length).wf.apply start)
  intro key pattern h
  exact nextPattern_shorter hlimit h

/-- **Paging covers the table**: it ends, with the same pages every time, and these have all
the names from the start on, in order, with one name in common from page to page. -/
theorem paging_covers (jdk : Jdk) (col : Collation) (table : LowerTable jdk) (start : String)
    (limit : JInt) (hlimit : 2 ≤ limit.toInt) :
    Acc (fun key pattern => NextPattern col table limit pattern key) start ∧
      ∃ pages, Paging col table limit start pages ∧
        (∀ pages', Paging col table limit start pages' → pages' = pages) ∧
        pages.length ≤ table.rows.length + 1 ∧ Covers col table start pages := by
  obtain ⟨pages, hpages, hcount⟩ := exists_pages (n := limit.toInt.toNat) (by omega)
    (table.namesFrom col (jdk.toLowerCase start))
  refine ⟨nextPattern_acc hlimit start, pages, (paging_iff (by omega)).mpr hpages, ?_, ?_, ?_⟩
  · intro pages' hpages'
    exact ((paging_iff (by omega)).mp hpages').unique hpages
  · have hnames : (table.namesFrom col (jdk.toLowerCase start)).length ≤ table.rows.length := by
      rw [LowerTable.namesFrom, List.length_map, (List.mergeSort_perm _ _).length_eq]
      exact List.length_filter_le _ _
    omega
  · refine ⟨?_, ?_, ?_, ?_⟩
    · intro name
      rw [hpages.mem_iff, mem_namesFrom]
    · refine hpages.pairwise (fun name => ?_) (namesFrom_sorted _)
      simpa using col.total (jdk.toLowerCase name) (jdk.toLowerCase name)
    · rw [hpages.joined_eq]
      exact namesFrom_nodup _
    · exact hpages.chain (namesFrom_nodup _)

theorem sampleTable_paged :
    Acc (fun key pattern => NextPattern Collation.codePoints sampleTable 2 pattern key) "a" ∧
      ∃ pages, Paging Collation.codePoints sampleTable 2 "a" pages ∧
        (∀ pages', Paging Collation.codePoints sampleTable 2 "a" pages' → pages' = pages) ∧
        pages.length ≤ sampleTable.rows.length + 1 ∧
        Covers Collation.codePoints sampleTable "a" pages :=
  paging_covers Jdk.ascii Collation.codePoints sampleTable "a" 2 (by decide)

end AuroraSizing.Lookup
