import FlightProcedure.Parse.Derivation
import Mathlib.Data.List.Nodup

/-!
# Matches that are merged by their ends

`Partial.prefer` and `Partial.compete` add a match to a list of matches with different ends. Both keep
the ends different and lose none of them, and both keep the children of the match that came first.
-/

namespace FlightProcedure

open List

namespace Partial

variable {parts more : List Partial} {part other : Partial} {stop : Nat} {stops : List Nat}

def addStop (stops : List Nat) (stop : Nat) : List Nat := if stop ∈ stops then stops else stops ++ [stop]

theorem stops_prefer (parts : List Partial) (other : Partial) :
    (prefer parts other).map (·.stop) = addStop (parts.map (·.stop)) other.stop := by
  induction parts with
  | nil => simp [prefer, addStop]
  | cons kept rest ih =>
    unfold prefer
    split
    · next heq => simp [addStop, heq]
    · next hne =>
      simp only [map_cons, ih, addStop, mem_cons, Ne.symm hne, false_or]
      split <;> simp

theorem stops_compete (parts : List Partial) (other : Partial) :
    (compete parts other).map (·.stop) = addStop (parts.map (·.stop)) other.stop := by
  induction parts with
  | nil => simp [compete, addStop]
  | cons kept rest ih =>
    unfold compete
    split
    · next heq => simp [addStop, heq, addRival]
    · next hne =>
      simp only [map_cons, ih, addStop, mem_cons, Ne.symm hne, false_or]
      split <;> simp

theorem mem_add_stop {added : Nat} : stop ∈ addStop stops added ↔ stop ∈ stops ∨ stop = added := by
  unfold addStop
  split
  · next hmem => exact ⟨.inl, fun h => h.elim id fun heq => heq ▸ hmem⟩
  · simp

theorem add_stop_nodup (h : stops.Nodup) : (addStop stops stop).Nodup := by
  unfold addStop
  split
  · exact h
  · next hmem => exact concat_eq_append ▸ h.concat hmem

theorem mem_foldl_add_stop {added : List Nat} :
    stop ∈ added.foldl addStop stops ↔ stop ∈ stops ∨ stop ∈ added := by
  induction added generalizing stops with
  | nil => simp
  | cons first rest ih => rw [foldl_cons, ih, mem_add_stop, mem_cons, or_assoc]

theorem foldl_add_stop_nodup {added : List Nat} (h : stops.Nodup) : (added.foldl addStop stops).Nodup := by
  induction added generalizing stops with
  | nil => exact h
  | cons first rest ih => exact ih (add_stop_nodup h)

theorem stops_foldl_prefer (parts more : List Partial) : (more.foldl prefer parts).map (·.stop) =
      (more.map (·.stop)).foldl addStop (parts.map (·.stop)) := by
  rw [foldl_map]
  exact (foldl_hom _ fun _ _ => (stops_prefer _ _).symm).symm

theorem stops_foldl_compete (parts more : List Partial) : (more.foldl compete parts).map (·.stop) =
      (more.map (·.stop)).foldl addStop (parts.map (·.stop)) := by
  rw [foldl_map]
  exact (foldl_hom _ fun _ _ => (stops_compete _ _).symm).symm

theorem mem_prefer (h : part ∈ prefer parts other) :
    part ∈ parts ∨ (part = other ∧ other.stop ∉ parts.map (·.stop)) := by
  induction parts with
  | nil => exact .inr ⟨by simpa [prefer] using h, by simp⟩
  | cons kept rest ih =>
    unfold prefer at h
    split at h
    · exact .inl h
    · next hne =>
      rcases mem_cons.mp h with rfl | h
      · exact .inl (by simp)
      · rcases ih h with h | ⟨rfl, hnew⟩
        · exact .inl (by simp [h])
        · refine .inr ⟨rfl, ?_⟩
          simp only [map_cons, mem_cons, not_or]
          exact ⟨Ne.symm hne, hnew⟩

theorem mem_foldl_prefer (h : part ∈ more.foldl prefer parts) :
    part ∈ parts ∨ (part ∈ more ∧ part.stop ∉ parts.map (·.stop)) := by
  induction more generalizing parts with
  | nil => exact .inl h
  | cons first rest ih =>
    rcases ih h with h | ⟨h, hnew⟩
    · rcases mem_prefer h with h | ⟨rfl, hnew⟩
      · exact .inl h
      · exact .inr ⟨by simp, hnew⟩
    · rw [stops_prefer, mem_add_stop, not_or] at hnew
      exact .inr ⟨by simp [h], hnew.1⟩

theorem mem_compete (h : part ∈ compete parts other) :
    ∃ origin, (origin ∈ parts ∨ origin = other) ∧ part.stop = origin.stop ∧ part.children = origin.children := by
  induction parts with
  | nil => exact ⟨other, .inr rfl, by simp_all [compete]⟩
  | cons kept rest ih =>
    unfold compete at h
    split at h
    · rcases mem_cons.mp h with rfl | h
      · exact ⟨kept, .inl (by simp), rfl, rfl⟩
      · exact ⟨part, .inl (by simp [h]), rfl, rfl⟩
    · rcases mem_cons.mp h with rfl | h
      · exact ⟨part, .inl (by simp), rfl, rfl⟩
      · obtain ⟨origin, horigin, hsame⟩ := ih h
        exact ⟨origin, horigin.imp_left fun h => by simp [h], hsame⟩

theorem mem_foldl_compete (h : part ∈ more.foldl compete parts) :
    ∃ origin, (origin ∈ parts ∨ origin ∈ more) ∧ part.stop = origin.stop ∧ part.children = origin.children := by
  induction more generalizing parts with
  | nil => exact ⟨part, .inl h, rfl, rfl⟩
  | cons first rest ih =>
    obtain ⟨origin, hmem | hmem, hstop, hchildren⟩ := ih h
    · obtain ⟨source, hsource, hstop', hchildren'⟩ := mem_compete hmem
      refine ⟨source, ?_, hstop.trans hstop', hchildren.trans hchildren'⟩
      rcases hsource with hsource | rfl
      · exact .inl hsource
      · exact .inr (by simp)
    · exact ⟨origin, .inr (by simp [hmem]), hstop, hchildren⟩

end Partial

end FlightProcedure
