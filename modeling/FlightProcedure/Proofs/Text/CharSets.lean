import FlightProcedure.Text.CharSet

/-!
# Membership in character sets

The characters of a set are those of its ranges, and a range that is added brings its own characters. Read
`CharSet.Holds` first.
-/

namespace FlightProcedure

open List

variable {point lo hi floor : Nat} {c : Char} {ranges : List (Nat × Nat)}

theorem mem_of_ranges_contain (h : rangesContain ranges point = true) :
    ∃ range ∈ ranges, range.1 ≤ point ∧ point ≤ range.2 := by
  induction ranges with
  | nil => cases h
  | cons range rest ih =>
    unfold rangesContain at h
    split at h
    · cases h
    · split at h
      · exact ⟨_, mem_cons_self, by omega⟩
      · obtain ⟨other, hother, hbounds⟩ := ih h
        exact ⟨other, mem_cons_of_mem _ hother, hbounds⟩

namespace CharSet

def Holds (set : CharSet) (c : Char) : Prop := ∃ range ∈ set.ranges, range.1 ≤ c.toNat ∧ c.toNat ≤ range.2

theorem mem_insert_range (hle : lo ≤ hi) (hascend : ascendFrom floor ranges = true) :
    (∃ range ∈ insertRange lo hi ranges, range.1 ≤ point ∧ point ≤ range.2) ↔
      (lo ≤ point ∧ point ≤ hi) ∨ ∃ range ∈ ranges, range.1 ≤ point ∧ point ≤ range.2 := by
  induction ranges generalizing lo hi floor with
  | nil => simp [insertRange]
  | cons first rest ih =>
    obtain ⟨a, b⟩ := first
    simp only [ascendFrom, Bool.and_eq_true, decide_eq_true_eq] at hascend
    unfold insertRange
    simp only [mem_cons, exists_eq_or_imp]
    split
    · simp only [mem_cons, exists_eq_or_imp]
    · split
      · simp only [mem_cons, exists_eq_or_imp, ih hle hascend.2]
        exact or_left_comm
      · -- The two ranges touch, so that nothing lies between them.
        rw [ih (by omega) hascend.2, ← or_assoc]
        exact or_congr_left (by omega)

theorem bounds_of_ascend (h : ascendFrom floor ranges = true) :
    ∀ range ∈ ranges, floor ≤ range.1 ∧ range.1 ≤ range.2 := by
  induction ranges generalizing floor with
  | nil => simp
  | cons first rest ih =>
    simp only [ascendFrom, Bool.and_eq_true, decide_eq_true_eq] at h
    simp only [mem_cons, forall_eq_or_imp]
    refine ⟨h.1, fun range hrange => ?_⟩
    have hlater := ih h.2 range hrange
    omega

theorem mem_iff_holds {set : CharSet} : set.mem c = true ↔ set.Holds c := by
  refine ⟨mem_of_ranges_contain, ?_⟩
  obtain ⟨ranges, hascend⟩ := set
  unfold Holds mem
  dsimp only
  generalize 0 = floor at hascend
  induction ranges generalizing floor with
  | nil => simp
  | cons first rest ih =>
    rintro ⟨range, hrange, hlow, hhigh⟩
    simp only [ascendFrom, Bool.and_eq_true, decide_eq_true_eq] at hascend
    rw [rangesContain]
    rcases mem_cons.mp hrange with rfl | hrange
    · rw [if_neg (by omega), if_pos hhigh]
    · have hlater := bounds_of_ascend hascend.2 range hrange
      rw [if_neg (by omega), if_neg (by omega)]
      exact ih _ hascend.2 ⟨range, hrange, hlow, hhigh⟩

theorem holds_insert {set : CharSet} : (set.insert lo hi).Holds c ↔ (lo ≤ c.toNat ∧ c.toNat ≤ hi) ∨ set.Holds c := by
  unfold insert
  split
  · next hle => exact mem_insert_range hle set.ascending
  · exact (or_iff_right (by omega)).symm

theorem holds_singleton {other : Char} : (singleton c).Holds other ↔ other = c := by
  have hnone : ¬ empty.Holds other := by simp [Holds, empty]
  rw [singleton, range, holds_insert, or_iff_left hnone, ← Char.toNat_inj]
  omega

theorem holds_union {first second : CharSet} : (first.union second).Holds c ↔ first.Holds c ∨ second.Holds c := by
  have hfold : ∀ (ranges : List (Nat × Nat)) (set : CharSet),
      (ranges.foldl (fun set range => set.insert range.1 range.2) set).Holds c ↔
        set.Holds c ∨ ∃ range ∈ ranges, range.1 ≤ c.toNat ∧ c.toNat ≤ range.2 := by
    intro ranges
    induction ranges with
    | nil => simp
    | cons range ranges ih =>
      intro set
      simp only [foldl_cons, ih, holds_insert, mem_cons, exists_eq_or_imp]
      rw [or_comm (a := _ ∧ _), or_assoc]
  exact hfold second.ranges first

end CharSet

end FlightProcedure
