import FlightProcedure.Proofs.Parse.Evaluation
import Mathlib.Data.List.Induction
import Mathlib.Data.Set.Subsingleton

/-!
# Rivals count ways

A list of matches accounts for a set of ways of reaching each end if it has one match for each end that
can be reached, with rivals exactly if there is more than one way. `Accounts` is kept by everything that
an evaluation does with matches: merging by preference, merging as rivals, and extending. Rivals are cut
off after a few, but never so that none is left.
-/

namespace FlightProcedure

open List

namespace Partial

/-- The matches account for the ways of reaching ends: there is one match for each end that can be
reached, and it has rivals exactly if there are two ways of reaching the end. -/
structure Accounts {σ : Type} (ways : Nat → Set σ) (parts : List Partial) : Prop where
  nodup : (parts.map (·.stop)).Nodup
  stops : ∀ stop, stop ∈ parts.map (·.stop) ↔ (ways stop).Nonempty
  rivals : ∀ part ∈ parts, part.rivals ≠ [] ↔ (ways part.stop).Nontrivial

variable {σ τ : Type} {ways others : Nat → Set σ} {parts more : List Partial}
  {part kept first second other : Partial} {stop : Nat}

theorem rivals_add_rival (kept other : Partial) : (kept.addRival other).rivals ≠ [] := by
  simp [addRival, maxRivals]

theorem rivals_extend : (first.extend second).rivals ≠ [] ↔ first.rivals ≠ [] ∨ second.rivals ≠ [] := by
  simp only [extend, maxRivals, ne_eq, take_eq_nil_iff, append_eq_nil_iff, map_eq_nil_iff]
  tauto

theorem mem_compete_cases (hnodup : (parts.map (·.stop)).Nodup) (h : part ∈ compete parts other) :
    (part ∈ parts ∧ part.stop ≠ other.stop) ∨ (part = other ∧ other.stop ∉ parts.map (·.stop)) ∨
      ∃ kept ∈ parts, kept.stop = other.stop ∧ part = kept.addRival other := by
  induction parts with
  | nil => exact .inr (.inl ⟨by simpa [compete] using h, by simp⟩)
  | cons kept rest ih =>
    rw [map_cons, nodup_cons] at hnodup
    unfold compete at h
    split at h
    · next heq =>
      rcases mem_cons.mp h with rfl | h
      · exact .inr (.inr ⟨kept, by simp, heq, rfl⟩)
      · refine .inl ⟨by simp [h], fun hstop => hnodup.1 ?_⟩
        exact mem_map.mpr ⟨part, h, hstop.trans heq.symm⟩
    · next hne =>
      rcases mem_cons.mp h with rfl | h
      · exact .inl ⟨by simp, hne⟩
      · rcases ih hnodup.2 h with ⟨hmem, hstop⟩ | ⟨rfl, hnew⟩ | ⟨kept', hmem, hstop, rfl⟩
        · exact .inl ⟨by simp [hmem], hstop⟩
        · refine .inr (.inl ⟨rfl, ?_⟩)
          rw [map_cons, mem_cons, not_or]
          exact ⟨fun heq => hne heq.symm, hnew⟩
        · exact .inr (.inr ⟨kept', by simp [hmem], hstop, rfl⟩)

theorem mem_foldl_compete_cases (hparts : (parts.map (·.stop)).Nodup)
    (hmore : (more.map (·.stop)).Nodup) (h : part ∈ more.foldl compete parts) :
    (part ∈ parts ∧ part.stop ∉ more.map (·.stop)) ∨ (part ∈ more ∧ part.stop ∉ parts.map (·.stop)) ∨
      ∃ kept ∈ parts, ∃ other ∈ more, kept.stop = other.stop ∧ part = kept.addRival other := by
  induction more generalizing parts with
  | nil => exact .inl ⟨h, by simp⟩
  | cons first rest ih =>
    rw [map_cons, nodup_cons] at hmore
    have hnext : ((compete parts first).map (·.stop)).Nodup := by
      rw [stops_compete]
      exact add_stop_nodup hparts
    rcases ih hnext hmore.2 h with ⟨hmem, hstop⟩ | ⟨hmem, hstop⟩ | ⟨kept, hmem, other, hother, heq, rfl⟩
    · rcases mem_compete_cases hparts hmem with ⟨hkept, hne⟩ | ⟨rfl, hnew⟩ | ⟨kept, hkept, heq, rfl⟩
      · refine .inl ⟨hkept, ?_⟩
        rw [map_cons, mem_cons, not_or]
        exact ⟨hne, hstop⟩
      · exact .inr (.inl ⟨by simp, hnew⟩)
      · exact .inr (.inr ⟨kept, hkept, first, by simp, heq, rfl⟩)
    · rw [stops_compete, mem_add_stop, not_or] at hstop
      exact .inr (.inl ⟨by simp [hmem], hstop.1⟩)
    · -- The counterpart in the rest has another end than the first match.
      have hne : first.stop ≠ other.stop := fun hsame =>
        hmore.1 (mem_map.mpr ⟨other, hother, hsame.symm⟩)
      rcases mem_compete_cases hparts hmem with ⟨hmem, _⟩ | ⟨rfl, _⟩ | ⟨_, _, hfirst, rfl⟩
      · exact .inr (.inr ⟨kept, hmem, other, by simp [hother], heq, rfl⟩)
      · exact absurd heq hne
      · exact absurd (hfirst.symm.trans heq) hne

theorem accounts_nil : Accounts (fun _ => (∅ : Set σ)) [] where
  nodup := nodup_nil
  stops := by simp
  rivals := by simp

theorem Accounts.congr (h : Accounts ways parts)
    (hsame : ∀ stop way, way ∈ ways stop ↔ way ∈ others stop) : Accounts others parts := by
  have heq : ways = others := funext fun stop => Set.ext (hsame stop)
  rwa [heq] at h

theorem Accounts.eq_empty (h : Accounts ways parts) (hstop : stop ∉ parts.map (·.stop)) : ways stop = ∅ := by
  rw [← Set.not_nonempty_iff_eq_empty, ← h.stops]
  exact hstop

theorem Accounts.compete (hparts : Accounts ways parts) (hmore : Accounts others more)
    (hdisjoint : ∀ stop way, way ∈ ways stop → way ∉ others stop) :
    Accounts (fun stop => ways stop ∪ others stop) (more.foldl Partial.compete parts) where
  nodup := by
    rw [stops_foldl_compete]
    exact foldl_add_stop_nodup hparts.nodup
  stops stop := by
    rw [stops_foldl_compete, mem_foldl_add_stop, hparts.stops, hmore.stops, Set.union_nonempty]
  rivals part hpart := by
    rcases mem_foldl_compete_cases hparts.nodup hmore.nodup hpart with
      ⟨hmem, hstop⟩ | ⟨hmem, hstop⟩ | ⟨kept, hkept, other, hother, heq, rfl⟩
    · rw [hmore.eq_empty hstop, Set.union_empty]
      exact hparts.rivals part hmem
    · rw [hparts.eq_empty hstop, Set.empty_union]
      exact hmore.rivals part hmem
    · obtain ⟨way, hway⟩ := (hparts.stops _).mp (mem_map.mpr ⟨kept, hkept, rfl⟩)
      obtain ⟨way', hway'⟩ := (hmore.stops _).mp (mem_map.mpr ⟨other, hother, heq.symm⟩)
      refine iff_of_true (rivals_add_rival kept other) ⟨way, .inl hway, way', .inr hway', ?_⟩
      rintro rfl
      exact hdisjoint _ way hway hway'

theorem Accounts.prefer (hparts : Accounts ways parts) (hmore : Accounts others more) :
    Accounts (fun stop => {way | way ∈ ways stop ∨ (ways stop = ∅ ∧ way ∈ others stop)})
      (more.foldl Partial.prefer parts) where
  nodup := by
    rw [stops_foldl_prefer]
    exact foldl_add_stop_nodup hparts.nodup
  stops stop := by
    rw [stops_foldl_prefer, mem_foldl_add_stop, hparts.stops, hmore.stops]
    rcases (ways stop).eq_empty_or_nonempty with hempty | hsome
    · simp [hempty, Set.Nonempty]
    · exact iff_of_true (.inl hsome) (hsome.imp fun _ => .inl)
  rivals part hpart := by
    rcases mem_foldl_prefer hpart with hmem | ⟨hmem, hstop⟩
    · have hsome := (hparts.stops _).mp (mem_map.mpr ⟨part, hmem, rfl⟩)
      rw [hparts.rivals part hmem]
      simp [hsome.ne_empty]
    · rw [hmore.rivals part hmem]
      simp [hparts.eq_empty hstop]

theorem accounts_blocks {ι : Type} (indices : List ι) {block : ι → List Partial}
    {ways : ι → Nat → Set σ} (hblock : ∀ i ∈ indices, Accounts (ways i) (block i))
    (hdisjoint : indices.Pairwise fun i j => ∀ stop way, way ∈ ways i stop → way ∉ ways j stop) :
    Accounts (fun stop => {way | ∃ i ∈ indices, way ∈ ways i stop})
      ((indices.flatMap block).foldl Partial.compete []) := by
  -- The fold goes through the blocks from the left, so the last block comes off first.
  induction indices using List.reverseRecOn with
  | nil => simpa using accounts_nil
  | append_singleton init i ih =>
    obtain ⟨hinit, _, hlast⟩ := pairwise_append.mp hdisjoint
    have hbefore := ih (fun j hj => hblock j (by simp [hj])) hinit
    have hboth := hbefore.compete (hblock i (by simp)) fun stop way hway => by
      obtain ⟨j, hj, hway⟩ := hway
      exact hlast j hj i (by simp) stop way hway
    rw [flatMap_append, foldl_append, flatMap_singleton]
    exact hboth.congr fun stop way => by simp [or_and_right, exists_or]

/-- The last boundary of pieces in a row, the position where they start if there is none. -/
def reach : Nat → List (Nat × τ) → Nat
  | pos, [] => pos
  | _, (next, _) :: rest => reach next rest

theorem reach_append_single (pos stop : Nat) (pieces : List (Nat × τ)) (last : τ) :
    reach pos (pieces ++ [(stop, last)]) = stop := by
  induction pieces generalizing pos with
  | nil => rfl
  | cons piece rest ih => exact ih piece.1

theorem Accounts.extend {before : Set (List (Nat × τ))} {last : Nat → Set τ}
    (hbefore : before.Nonempty) (hpart : part.rivals ≠ [] ↔ before.Nontrivial)
    (hmore : Accounts last more) :
    Accounts (fun stop => {way | ∃ pieces ∈ before, ∃ piece ∈ last stop,
      way = pieces ++ [(stop, piece)]}) (more.map part.extend) where
  nodup := by
    rw [map_map]
    exact hmore.nodup
  stops stop := by
    rw [map_map]
    show stop ∈ more.map (·.stop) ↔ _
    rw [hmore.stops]
    obtain ⟨pieces, hpieces⟩ := hbefore
    constructor
    · rintro ⟨piece, hpiece⟩
      exact ⟨_, pieces, hpieces, piece, hpiece, rfl⟩
    · rintro ⟨_, _, _, piece, hpiece, _⟩
      exact ⟨piece, hpiece⟩
  rivals next hnext := by
    obtain ⟨second, hsecond, rfl⟩ := mem_map.mp hnext
    show (part.extend second).rivals ≠ [] ↔ Set.Nontrivial {way | ∃ pieces ∈ before,
      ∃ piece ∈ last second.stop, way = pieces ++ [(second.stop, piece)]}
    rw [rivals_extend, hpart, hmore.rivals second hsecond]
    obtain ⟨piece, hpiece⟩ := (hmore.stops _).mp (mem_map.mpr ⟨second, hsecond, rfl⟩)
    obtain ⟨pieces, hpieces⟩ := hbefore
    constructor
    · rintro (⟨one, hone, two, htwo, hne⟩ | ⟨one, hone, two, htwo, hne⟩)
      · refine ⟨_, ⟨one, hone, piece, hpiece, rfl⟩, _, ⟨two, htwo, piece, hpiece, rfl⟩, fun heq => ?_⟩
        exact hne (append_inj_left' heq rfl)
      · refine ⟨_, ⟨pieces, hpieces, one, hone, rfl⟩, _, ⟨pieces, hpieces, two, htwo, rfl⟩, ?_⟩
        simpa using hne
    · rintro ⟨_, ⟨pieces, hpieces, piece, hpiece, rfl⟩, _, ⟨pieces', hpieces', piece', hpiece', rfl⟩, hne⟩
      -- The two ways differ in their last pieces or before them.
      by_cases hsame : pieces = pieces'
      · refine .inr ⟨piece, hpiece, piece', hpiece', fun heq => hne ?_⟩
        rw [hsame, heq]
      · exact .inl ⟨pieces, hpieces, pieces', hpieces', hsame⟩

theorem Accounts.extend_each {ways : Nat → Set (List (Nat × τ))} {pos : Nat}
    (hparts : Accounts ways parts) (step : Nat → List Partial) (last : Nat → Nat → Set τ)
    (hreach : ∀ stop, ∀ pieces ∈ ways stop, reach pos pieces = stop)
    (hstep : ∀ part ∈ parts, Accounts (last part.stop) (step part.stop)) :
    Accounts (fun stop => {way | ∃ next, ∃ pieces ∈ ways next, ∃ piece ∈ last next stop,
      way = pieces ++ [(stop, piece)]}) (extendEach step parts) := by
  have hsome : ∀ part ∈ parts, (ways part.stop).Nonempty := fun part hpart =>
    (hparts.stops _).mp (mem_map.mpr ⟨part, hpart, rfl⟩)
  -- A way tells where its last piece starts, so that it extends one match only.
  have hdisjoint : parts.Pairwise fun first second => ∀ stop way,
      (∃ pieces ∈ ways first.stop, ∃ piece ∈ last first.stop stop, way = pieces ++ [(stop, piece)]) →
      ¬ ∃ pieces ∈ ways second.stop, ∃ piece ∈ last second.stop stop, way = pieces ++ [(stop, piece)] := by
    refine (pairwise_map.mp hparts.nodup).imp fun {first second} hne stop => ?_
    rintro _ ⟨pieces, hpieces, piece, _, rfl⟩ ⟨pieces', hpieces', piece', _, heq⟩
    have hsame : pieces = pieces' := append_inj_left' heq rfl
    apply hne
    rw [← hreach _ _ hpieces, ← hreach _ _ hpieces', hsame]
  unfold extendEach
  refine (accounts_blocks parts (fun part hpart => (hstep part hpart).extend (hsome part hpart)
    (hparts.rivals part hpart)) hdisjoint).congr fun stop way => ⟨?_, ?_⟩
  · rintro ⟨part, _, pieces, hpieces, piece, hpiece, rfl⟩
    exact ⟨part.stop, pieces, hpieces, piece, hpiece, rfl⟩
  · rintro ⟨next, pieces, hpieces, piece, hpiece, rfl⟩
    obtain ⟨part, hpart, rfl⟩ := mem_map.mp ((hparts.stops next).mpr ⟨pieces, hpieces⟩)
    exact ⟨part, hpart, pieces, hpieces, piece, hpiece, rfl⟩

end Partial

end FlightProcedure
