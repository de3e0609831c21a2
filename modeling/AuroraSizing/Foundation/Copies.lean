import AuroraSizing.Foundation.Bytes
import Mathlib.Data.Int.ConditionallyCompleteOrder
import Mathlib.Data.Int.Interval

/-!
# The bytes a sequence of copies fills

A `Copy` is one `memcpy` into an array: where it starts, as a signed distance
from the array, and what it writes. `filled` are the distinct positions a
sequence of copies writes to. They are exactly the positions whose bytes no
longer depend on what the array held before.
-/

namespace Foundation.Copies

open Foundation.Bytes

structure Copy where
  offset : ℤ
  bytes : List UInt8

def Copy.positions (c : Copy) : Finset ℤ :=
  (Finset.range c.bytes.length).image fun k : ℕ => c.offset + k

theorem Copy.mem_positions {c : Copy} {i : ℤ} :
    i ∈ c.positions ↔ c.offset ≤ i ∧ i < c.offset + c.bytes.length := by
  rw [Copy.positions, Finset.mem_image]
  constructor
  · rintro ⟨k, hk, rfl⟩
    rw [Finset.mem_range] at hk
    omega
  · rintro ⟨hle, hlt⟩
    refine ⟨(i - c.offset).toNat, Finset.mem_range.mpr ?_, ?_⟩
    · omega
    · omega

theorem Copy.positions_eq_Ico (c : Copy) :
    c.positions = Finset.Ico c.offset (c.offset + c.bytes.length) := by
  ext i
  rw [Copy.mem_positions, Finset.mem_Ico]

def filled : List Copy → Finset ℤ
  | [] => ∅
  | c :: cs => c.positions ∪ filled cs

theorem filled_append (cs ds : List Copy) : filled (cs ++ ds) = filled cs ∪ filled ds := by
  induction cs with
  | nil => simp [filled]
  | cons c cs ih => rw [List.cons_append, filled, filled, ih, Finset.union_assoc]

/-! ## What the array holds afterwards -/

def Copy.write (c : Copy) (memory : ℤ → UInt8) : ℤ → UInt8 := fun i =>
  if i ∈ c.positions then c.bytes.getD (i - c.offset).toNat 0 else memory i

def write : List Copy → (ℤ → UInt8) → ℤ → UInt8
  | [], memory => memory
  | c :: cs, memory => write cs (c.write memory)

theorem write_of_notMem {cs : List Copy} {i : ℤ} (h : i ∉ filled cs) (memory : ℤ → UInt8) :
    write cs memory i = memory i := by
  induction cs generalizing memory with
  | nil => rfl
  | cons c cs ih =>
      rw [filled, Finset.notMem_union] at h
      rw [write, ih h.2, Copy.write, if_neg h.1]

theorem write_of_mem {cs : List Copy} {i : ℤ} (h : i ∈ filled cs) (memory other : ℤ → UInt8) :
    write cs memory i = write cs other i := by
  induction cs generalizing memory other with
  | nil => simp [filled] at h
  | cons c cs ih =>
      rw [write, write]
      by_cases hrest : i ∈ filled cs
      · exact ih hrest _ _
      · -- the first copy was the last to write here
        have hfirst : i ∈ c.positions := by
          rw [filled, Finset.mem_union] at h
          exact h.resolve_right hrest
        rw [write_of_notMem hrest, write_of_notMem hrest, Copy.write, Copy.write, if_pos hfirst,
          if_pos hfirst]

/-- **The filled positions are those whose bytes the copies settle.** -/
theorem mem_filled_iff {cs : List Copy} {i : ℤ} :
    i ∈ filled cs ↔ ∀ memory other, write cs memory i = write cs other i := by
  constructor
  · intro h memory other
    exact write_of_mem h memory other
  · intro h
    by_contra hout
    have hsame := h (fun _ => 0) (fun _ => 1)
    rw [write_of_notMem hout, write_of_notMem hout] at hsame
    exact absurd hsame (by decide)

/-! ## Copies side by side -/

/-- Every copy starts where the one before it ended. -/
def Contiguous : ℤ → List Copy → Prop
  | _, [] => True
  | start, c :: cs => c.offset = start ∧ Contiguous (start + c.bytes.length) cs

def total (cs : List Copy) : ℕ := (cs.map fun c => c.bytes.length).sum

theorem filled_of_contiguous {start : ℤ} {cs : List Copy} (h : Contiguous start cs) :
    filled cs = Finset.Ico start (start + total cs) := by
  induction cs generalizing start with
  | nil => simp [filled, total]
  | cons c cs ih =>
      rcases h with ⟨rfl, hrest⟩
      have hsize : (total (c :: cs) : ℤ) = c.bytes.length + total cs := by simp [total]
      rw [filled, ih hrest, Copy.positions_eq_Ico, hsize, ← add_assoc]
      exact Finset.Ico_union_Ico_eq_Ico (by omega) (by omega)

theorem card_filled {start : ℤ} {cs : List Copy} (h : Contiguous start cs) :
    (filled cs).card = total cs := by
  rw [filled_of_contiguous h, Int.card_Ico]
  omega

/-! ## Copies into a list of bytes -/

/-- The list is what the memory holds from position 0 on. -/
def Holds (memory : ℤ → UInt8) (data : List UInt8) : Prop :=
  ∀ i : ℕ, i < data.length → data[i]? = some (memory i)

/-- A copy inside the array is `overwrite`. -/
theorem Holds.overwrite {memory : ℤ → UInt8} {data : List UInt8} (h : Holds memory data)
    (pos : ℕ) (bs : List UInt8) (hfits : pos + bs.length ≤ data.length) :
    (overwrite data pos bs).length = data.length ∧
      Holds (Copy.write ⟨pos, bs⟩ memory) (overwrite data pos bs) := by
  have hlength : (Bytes.overwrite data pos bs).length = data.length := by
    simp only [Bytes.overwrite, List.length_append, List.length_take, List.length_drop]
    omega
  refine ⟨hlength, ?_⟩
  intro i hi
  rw [hlength] at hi
  have hpre : (data.take pos).length = pos := by
    rw [List.length_take]
    omega
  by_cases hin : pos ≤ i ∧ i < pos + bs.length
  · -- inside the copy
    have hmem : (i : ℤ) ∈ (Copy.mk pos bs).positions := by
      rw [Copy.mem_positions]
      show (pos : ℤ) ≤ i ∧ (i : ℤ) < pos + bs.length
      omega
    have hidx : i - pos < bs.length := by omega
    rw [Copy.write, if_pos hmem, Bytes.overwrite, List.getElem?_append_left
      (by rw [List.length_append, hpre]; omega), List.getElem?_append_right (by omega), hpre]
    show bs[i - pos]? = some (bs.getD ((i : ℤ) - pos).toNat 0)
    have hnat : ((i : ℤ) - pos).toNat = i - pos := by omega
    rw [hnat, List.getD_eq_getElem?_getD, List.getElem?_eq_getElem hidx, Option.getD_some]
  · have hmem : (i : ℤ) ∉ (Copy.mk pos bs).positions := by
      rw [Copy.mem_positions]
      show ¬ ((pos : ℤ) ≤ i ∧ (i : ℤ) < pos + bs.length)
      omega
    rw [Copy.write, if_neg hmem, ← h i hi, Bytes.overwrite]
    rcases Nat.lt_or_ge i pos with hlt | hge
    · rw [List.append_assoc, List.getElem?_append_left (by omega),
        List.getElem?_take_of_lt hlt]
    · rw [List.getElem?_append_right (by rw [List.length_append, hpre]; omega),
        List.length_append, hpre, List.getElem?_drop]
      congr 1
      omega

end Foundation.Copies
