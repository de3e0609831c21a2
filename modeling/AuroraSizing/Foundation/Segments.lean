import Mathlib.Data.List.Basic

/-!
# Frames and the chunks they arrive in

`Cuts pending chunks frames` reads the chunks one after another, `pending` being
what has arrived of the current frame: every frame ends where a chunk ends, and
nothing is left over. `WholeChunks` says the same without the accumulator: the
chunks fall into groups, one for each frame.
-/

namespace Foundation.Segments

variable {α : Type*}

inductive Cuts : List α → List (List α) → List (List α) → Prop where
  | done : Cuts [] [] []
  | more {pending c : List α} {chunks frames : List (List α)} :
      c ≠ [] → Cuts (pending ++ c) chunks frames → Cuts pending (c :: chunks) frames
  | last {pending c : List α} {chunks frames : List (List α)} :
      c ≠ [] → Cuts [] chunks frames → Cuts pending (c :: chunks) ((pending ++ c) :: frames)

/-- Every frame is the concatenation of a run of consecutive chunks, so no chunk
holds parts of two frames. -/
def WholeChunks (chunks frames : List (List α)) : Prop :=
  ∃ groups : List (List (List α)), groups.flatten = chunks ∧ groups.map List.flatten = frames

theorem WholeChunks.cons {chunks frames : List (List α)} (h : WholeChunks chunks frames)
    (group : List (List α)) :
    WholeChunks (group ++ chunks) (group.flatten :: frames) := by
  rcases h with ⟨groups, rfl, rfl⟩
  exact ⟨group :: groups, rfl, rfl⟩

/-- A frame that is not empty takes a chunk at least. -/
theorem WholeChunks.length_le {chunks frames : List (List α)} (h : WholeChunks chunks frames)
    (hne : ∀ f ∈ frames, f ≠ []) : frames.length ≤ chunks.length := by
  rcases h with ⟨groups, rfl, rfl⟩
  induction groups with
  | nil => exact Nat.le_refl 0
  | cons group groups ih =>
      have hrest := ih fun f hf => hne f (List.mem_cons_of_mem _ hf)
      have hgroup : group ≠ [] := by
        rintro rfl
        exact hne [] List.mem_cons_self rfl
      have hpos := List.length_pos_iff.mpr hgroup
      simp only [List.map_cons, List.length_cons, List.flatten_cons, List.length_append]
      omega

/-- What `Cuts` finds, the pending part joined to the first group. -/
theorem Cuts.groups {pending : List α} {chunks frames : List (List α)}
    (h : Cuts pending chunks frames) :
    (pending = [] ∧ chunks = [] ∧ frames = []) ∨
      ∃ group rest frames', chunks = group ++ rest ∧
        frames = (pending ++ group.flatten) :: frames' ∧ WholeChunks rest frames' := by
  induction h with
  | done => exact .inl ⟨rfl, rfl, rfl⟩
  | @more pending c chunks frames hc _ ih =>
      right
      rcases ih with ⟨hnil, -, -⟩ | ⟨group, rest, frames', rfl, rfl, hwhole⟩
      · exact absurd (List.append_eq_nil_iff.mp hnil).2 hc
      · exact ⟨c :: group, rest, frames', rfl, by simp, hwhole⟩
  | @last pending c chunks frames hc _ ih =>
      right
      refine ⟨[c], chunks, frames, rfl, by simp, ?_⟩
      rcases ih with ⟨-, rfl, rfl⟩ | ⟨group, rest, frames', rfl, rfl, hwhole⟩
      · exact ⟨[], rfl, rfl⟩
      · exact hwhole.cons group

theorem Cuts.nil_frames {pending : List α} {chunks : List (List α)} (h : Cuts pending chunks []) :
    pending = [] ∧ chunks = [] := by
  rcases h.groups with ⟨hpending, hchunks, -⟩ | ⟨group, rest, frames', -, hframes, -⟩
  · exact ⟨hpending, hchunks⟩
  · cases hframes

/-- The pending part is a proper beginning of the next frame. -/
theorem Cuts.pending_lt {pending f : List α} {chunks frames : List (List α)}
    (h : Cuts pending chunks (f :: frames)) : ∃ more, more ≠ [] ∧ f = pending ++ more := by
  generalize hfs : f :: frames = fs at h
  induction h with
  | done => cases hfs
  | @more pending c chunks frames' hc _ ih =>
      obtain ⟨more, -, rfl⟩ := ih hfs
      exact ⟨c ++ more, by simp [hc], by simp⟩
  | @last pending c chunks frames' hc _ _ =>
      cases hfs
      exact ⟨c, hc, rfl⟩

theorem Cuts.whole {chunks frames : List (List α)} (h : Cuts [] chunks frames) :
    WholeChunks chunks frames := by
  rcases h.groups with ⟨-, rfl, rfl⟩ | ⟨group, rest, frames', rfl, rfl, hwhole⟩
  · exact ⟨[], rfl, rfl⟩
  · exact hwhole.cons group

theorem Cuts.prepend {chunks frames : List (List α)} (h : Cuts [] chunks frames)
    {group : List (List α)} (hgroup : group ≠ []) (hne : ∀ c ∈ group, c ≠ [])
    (pending : List α) :
    Cuts pending (group ++ chunks) ((pending ++ group.flatten) :: frames) := by
  induction group generalizing pending with
  | nil => exact absurd rfl hgroup
  | cons c group ih =>
      cases group with
      | nil => simpa using @Cuts.last _ pending _ _ _ (hne c List.mem_cons_self) h
      | cons d group =>
          have hrest := ih (List.cons_ne_nil d group)
            (fun x hx => hne x (List.mem_cons_of_mem c hx)) (pending ++ c)
          have hmore := Cuts.more (hne c List.mem_cons_self) hrest
          simpa using hmore

theorem WholeChunks.cuts {chunks frames : List (List α)} (h : WholeChunks chunks frames)
    (hchunks : ∀ c ∈ chunks, c ≠ []) (hframes : ∀ f ∈ frames, f ≠ []) :
    Cuts [] chunks frames := by
  rcases h with ⟨groups, rfl, rfl⟩
  induction groups with
  | nil => exact Cuts.done
  | cons group groups ih =>
      have hrest := ih
        (fun c hc => hchunks c (by simp only [List.flatten_cons, List.mem_append]; exact .inr hc))
        (fun f hf => hframes f (List.mem_cons_of_mem _ hf))
      have hgroup : group ≠ [] := by
        rintro rfl
        exact hframes [] List.mem_cons_self rfl
      exact hrest.prepend hgroup
        (fun c hc => hchunks c (by simp only [List.flatten_cons, List.mem_append]; exact .inl hc))
        []

end Foundation.Segments
