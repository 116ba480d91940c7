import FlightProcedure.Text.Position
import Mathlib.Data.List.Basic

/-!
# Positions are exact

A place among ascending numbers is a cut if the numbers before it are those below a bound: `Cuts`. The search
finds the cut below the number that it looks for, so a position in characters counts the characters that start
before a byte, with a table or without one, and a line counts the line breaks before a position.
-/

namespace FlightProcedure

open List

variable {numbers : List Nat} {number place : Nat} {text : List Char}

structure Cuts (numbers : List Nat) (bound place : Nat) : Prop where
  le_length : place ≤ numbers.length
  lt_iff : ∀ {i value : Nat}, numbers[i]? = some value → (value < bound ↔ i < place)

theorem Cuts.count (h : Cuts numbers number place) : numbers.countP (· < number) = place := by
  obtain ⟨hle, hlt⟩ := h
  induction numbers generalizing place with
  | nil => exact (Nat.le_zero.mp hle).symm
  | cons first rest ih =>
    cases place with
    | zero =>
      rw [countP_eq_zero]
      intro value hvalue
      obtain ⟨i, hi⟩ := mem_iff_getElem?.mp hvalue
      simpa using hlt hi
    | succ place =>
      have hfirst : first < number := (@hlt 0 first rfl).mpr (Nat.succ_pos place)
      have hrest := ih (Nat.le_of_succ_le_succ hle) fun {i value} hi => by simpa using @hlt (i + 1) value hi
      simpa [countP_cons, hfirst] using hrest

section

variable (h : numbers.Pairwise (· < ·))

include h

theorem value_lt_iff {i j value other : Nat} (hi : numbers[i]? = some value)
    (hj : numbers[j]? = some other) : value < other ↔ i < j := by
  obtain ⟨hilt, rfl⟩ := List.getElem?_eq_some_iff.mp hi
  obtain ⟨hjlt, rfl⟩ := List.getElem?_eq_some_iff.mp hj
  have hascends := pairwise_iff_getElem.mp h
  rcases Nat.lt_trichotomy i j with hlt | rfl | hlt
  · exact iff_of_true (hascends i j hilt hjlt hlt) hlt
  · simp
  · exact iff_of_false (Nat.lt_asymm (hascends j i hjlt hilt hlt)) (Nat.lt_asymm hlt)

theorem cuts_at (hplace : numbers[place]? = some number) : Cuts numbers number place :=
  ⟨Nat.le_of_lt (List.getElem?_eq_some_iff.mp hplace).1, fun hi => value_lt_iff h hi hplace⟩

/-- A search that leaves out smaller numbers before the first place and greater ones from the last place on finds
the number, or the cut below it if it is missing. -/
theorem search_between_cuts {first last : Nat} (hle : first ≤ last) (hlast : last ≤ numbers.length)
    (hbefore : ∀ {i value : Nat}, numbers[i]? = some value → i < first → value < number)
    (hafter : ∀ {i value : Nat}, numbers[i]? = some value → last ≤ i → number < value) :
    match searchBetween numbers.toArray number first last with
    | .ok place => numbers[place]? = some number
    | .error place => Cuts numbers number place ∧ number ∉ numbers := by
  have hget : ∀ {i : Nat}, i < numbers.length → numbers[i]? = some (numbers.toArray.getD i 0) := by
    intro i hi
    simp [Array.getD_eq_getD_getElem?, hi]
  fun_induction searchBetween numbers.toArray number first last with
  | case1 first last hlt middle found hfound => exact hfound ▸ hget (by omega)
  | case2 first last hlt middle found _ hbelow ih =>
    have hmiddle : numbers[middle]? = some found := hget (by omega)
    refine ih (by omega) hlast (fun {i value} hi hlt => ?_) hafter
    rcases Nat.lt_or_eq_of_le (Nat.le_of_lt_succ hlt) with hlt | rfl
    · exact Nat.lt_trans ((value_lt_iff h hi hmiddle).mpr hlt) hbelow
    · cases hi.symm.trans hmiddle
      exact hbelow
  | case3 first last hlt middle found hne hbelow ih =>
    have hmiddle : numbers[middle]? = some found := hget (by omega)
    have habove : number < found := by omega
    refine ih (by omega) (by omega) hbefore fun {i value} hi hle => ?_
    rcases Nat.lt_or_eq_of_le hle with hlt | rfl
    · exact Nat.lt_trans habove ((value_lt_iff h hmiddle hi).mpr hlt)
    · cases hi.symm.trans hmiddle
      exact habove
  | case4 first last hlt =>
    obtain rfl : first = last := by omega
    refine ⟨⟨hlast, fun {i value} hi => ⟨fun hvalue => ?_, hbefore hi⟩⟩, fun hmem => ?_⟩
    · exact Nat.lt_of_not_le fun hle => Nat.lt_asymm hvalue (hafter hi hle)
    · obtain ⟨i, hi⟩ := mem_iff_getElem?.mp hmem
      rcases Nat.lt_or_ge i first with hlt | hge
      · exact Nat.lt_irrefl _ (hbefore hi hlt)
      · exact Nat.lt_irrefl _ (hafter hi hge)

theorem search_cuts (number : Nat) :
    match searchAscending numbers.toArray number with
    | .ok place => numbers[place]? = some number
    | .error place => Cuts numbers number place ∧ number ∉ numbers :=
  search_between_cuts h (Nat.zero_le _) (by simp) (fun _ hi => absurd hi (Nat.not_lt_zero _)) fun hi hle =>
    absurd (List.getElem?_eq_some_iff.mp hi).1 (by simpa using hle)

/-! ## Bytes -/

def byteAt (text : List Char) (offset : Nat) : Nat := (String.ofList (text.take offset)).utf8ByteSize

end

theorem boundaries_eq (byte : Nat) (text : List Char) :
    boundariesFrom byte text = (range text.length).map fun offset => byte + byteAt text offset := by
  induction text generalizing byte with
  | nil => rfl
  | cons c rest ih =>
    rw [boundariesFrom, ih, length_cons, range_succ_eq_map, map_cons, map_map]
    congr 1
    refine map_congr_left fun offset _ => ?_
    simp [byteAt, String.ofList_cons, Nat.add_assoc]

theorem boundaries_ascend (byte : Nat) (text : List Char) :
    (boundariesFrom byte text).Pairwise (· < ·) ∧ ∀ value ∈ boundariesFrom byte text, byte ≤ value := by
  induction text generalizing byte with
  | nil => exact ⟨.nil, by simp [boundariesFrom]⟩
  | cons c rest ih =>
    obtain ⟨hrest, hle⟩ := ih (byte + c.utf8Size)
    have hpos := c.utf8Size_pos
    refine ⟨pairwise_cons.mpr ⟨fun value hvalue => ?_, hrest⟩, forall_mem_cons.mpr ⟨Nat.le_refl _, ?_⟩⟩
    · have := hle value hvalue
      omega
    · exact fun value hvalue => Nat.le_trans (Nat.le_add_right _ _) (hle value hvalue)

theorem byte_at_ascii (h : text.all (·.utf8Size == 1) = true) {offset : Nat} (hle : offset ≤ text.length) :
    byteAt text offset = offset := by
  induction text generalizing offset with
  | nil =>
    rw [Nat.le_zero.mp hle]
    rfl
  | cons c rest ih =>
    cases offset with
    | zero => rfl
    | succ offset =>
      simp only [all_cons, Bool.and_eq_true, beq_iff_eq] at h
      have hrest := ih h.2 (Nat.le_of_succ_le_succ hle)
      simp only [byteAt] at hrest
      simp [byteAt, String.ofList_cons, h.1, hrest, Nat.add_comm]

theorem cuts_range (length bound : Nat) : Cuts (range length) bound (min bound length) := by
  refine ⟨by simp [Nat.min_le_right], fun {i value} hi => ?_⟩
  obtain ⟨hlt, rfl⟩ := List.getElem?_eq_some_iff.mp hi
  rw [length_range] at hlt
  rw [getElem_range]
  omega

theorem char_offset_eq (text : List Char) (byte : Nat) :
    charOffset text byte = (range text.length).countP fun offset => decide (byteAt text offset < byte) := by
  rw [charOffset, TextIndex.charOffset, TextIndex.ofText]
  cases hascii : text.all (·.utf8Size == 1) with
  | true =>
    have hsize : (String.ofList text).utf8ByteSize = text.length := by
      simpa [byteAt] using byte_at_ascii hascii (Nat.le_refl text.length)
    simp only [if_true, Array.isEmpty_empty, hsize]
    rw [← (cuts_range text.length byte).count]
    refine countP_congr fun offset hoffset => ?_
    rw [byte_at_ascii hascii (Nat.le_of_lt (mem_range.mp hoffset))]
  | false =>
    have hcount : (boundariesFrom 0 text).countP (· < byte) =
        (range text.length).countP fun offset => decide (byteAt text offset < byte) := by
      rw [boundaries_eq, countP_map]
      simp [Function.comp_def]
    have hne : (boundariesFrom 0 text).toArray.isEmpty = false := by
      cases text with
      | nil => cases hascii
      | cons c rest => rfl
    have hascend := (boundaries_ascend 0 text).1
    have hsearch := search_cuts hascend byte
    simp only [Bool.false_eq_true, if_false, hne, ← hcount]
    cases hfound : searchAscending (boundariesFrom 0 text).toArray byte with
    | ok place =>
      rw [hfound] at hsearch
      exact (cuts_at hascend hsearch).count.symm
    | error place =>
      rw [hfound] at hsearch
      exact hsearch.1.count.symm

/-! ## Lines -/

theorem mem_line_starts {offset value : Nat} :
    value ∈ lineStartsFrom offset text ↔ ∃ i, text[i]? = some '\n' ∧ value = offset + i + 1 := by
  induction text generalizing offset with
  | nil => simp [lineStartsFrom]
  | cons c rest ih =>
    have hrest : value ∈ lineStartsFrom (offset + 1) rest ↔
        ∃ i, (c :: rest)[i + 1]? = some '\n' ∧ value = offset + (i + 1) + 1 := by
      rw [ih]
      simp only [getElem?_cons_succ, Nat.add_right_comm offset, Nat.add_assoc]
    rw [lineStartsFrom, ← Nat.or_exists_add_one]
    split <;> simp_all

theorem line_starts_ascend (offset : Nat) (text : List Char) :
    (offset :: lineStartsFrom offset text).Pairwise (· < ·) := by
  induction text generalizing offset with
  | nil => simp [lineStartsFrom]
  | cons c rest ih =>
    refine pairwise_cons.mpr ⟨fun value hvalue => ?_, ?_⟩
    · obtain ⟨i, -, rfl⟩ := mem_line_starts.mp hvalue
      omega
    · rw [lineStartsFrom]
      split
      · exact ih (offset + 1)
      · exact (pairwise_cons.mp (ih (offset + 1))).2

theorem count_line_starts (offset length : Nat) (text : List Char) :
    (lineStartsFrom offset text).countP (· < offset + length + 1) = (text.take length).count '\n' := by
  induction text generalizing offset length with
  | nil => simp [lineStartsFrom]
  | cons c rest ih =>
    cases length with
    | zero =>
      rw [take_zero, count_nil, countP_eq_zero]
      intro value hvalue
      obtain ⟨i, -, rfl⟩ := mem_line_starts.mp hvalue
      simp
    | succ length =>
      have hrest := ih (offset + 1) length
      rw [show offset + 1 + length + 1 = offset + (length + 1) + 1 by omega] at hrest
      rw [lineStartsFrom, take_succ_cons, count_cons, ← hrest]
      split <;> simp_all

/-- The line of a position is the last one that starts at it or before it. -/
theorem line_column_eq (text : List Char) (offset : Nat) : ∃ line start,
    (0 :: lineStartsFrom 0 text)[line]? = some start ∧ start ≤ offset ∧
    Cuts (0 :: lineStartsFrom 0 text) (offset + 1) (line + 1) ∧
    lineColumn text offset = (line + 1, offset - start + 1) := by
  have hascend := line_starts_ascend 0 text
  have hsearch := search_cuts hascend offset
  rw [lineColumn, TextIndex.lineColumn, TextIndex.ofText]
  split at hsearch
  · next place hfound =>
    refine ⟨place, offset, hsearch, Nat.le_refl _,
      ⟨(List.getElem?_eq_some_iff.mp hsearch).1, fun {i value} hi => ?_⟩, ?_⟩
    · have := value_lt_iff hascend hsearch hi
      omega
    · simp [hfound, Array.getD_eq_getD_getElem?, hsearch]
  · next place hfound =>
    obtain ⟨hcuts, hmissing⟩ := hsearch
    have hvalue : ∀ {i value : Nat}, (0 :: lineStartsFrom 0 text)[i]? = some value → value ≠ offset :=
      fun hi heq => hmissing (heq ▸ mem_of_getElem? hi)
    have hzero := @hvalue 0 0 rfl
    obtain ⟨line, rfl⟩ : ∃ line, place = line + 1 :=
      Nat.exists_eq_succ_of_ne_zero (Nat.ne_of_gt ((@hcuts.lt_iff 0 0 rfl).mp (by omega)))
    obtain ⟨start, hstart⟩ : ∃ start, (0 :: lineStartsFrom 0 text)[line]? = some start :=
      ⟨_, getElem?_eq_getElem hcuts.le_length⟩
    refine ⟨line, start, hstart, Nat.le_of_lt ((hcuts.lt_iff hstart).mpr (Nat.lt_succ_self line)),
      ⟨hcuts.le_length, fun {i value} hi => ?_⟩, ?_⟩
    · have := hcuts.lt_iff hi
      have := hvalue hi
      omega
    · simp [hfound, Array.getD_eq_getD_getElem?, hstart]

/-- Positions are converted exactly. A position in characters is the number of characters whose first byte lies
before the byte, for every text and every byte. The line of a position counts the line breaks before it, and the
column counts the characters from the start of the line; different positions have different lines or columns. -/
theorem positions_exact (text : List Char) :
    (∀ byte, charOffset text byte = (List.range text.length).countP fun offset => decide (byteAt text offset < byte)) ∧
    (∀ offset, ∃ start ≤ offset, (start = 0 ∨ text[start - 1]? = some '\n') ∧
      (∀ i, start ≤ i → i < offset → text[i]? ≠ some '\n') ∧
      lineColumn text offset = ((text.take offset).count '\n' + 1, offset - start + 1)) ∧
    Function.Injective (lineColumn text) := by
  refine ⟨char_offset_eq text, fun offset => ?_, fun offset other hsame => ?_⟩
  · obtain ⟨line, start, hstart, hle, hcuts, heq⟩ := line_column_eq text offset
    have hline : (text.take offset).count '\n' = line := by
      have hcount := hcuts.count
      rw [countP_cons, ← Nat.zero_add offset, count_line_starts] at hcount
      simpa using hcount
    refine ⟨start, hle, ?_, fun i hi hlt hbreak => ?_, by rw [heq, hline]⟩
    · rcases mem_cons.mp (mem_of_getElem? hstart) with rfl | hmem
      · exact .inl rfl
      · obtain ⟨i, hbreak, rfl⟩ := mem_line_starts.mp hmem
        exact .inr (by simpa using hbreak)
    · -- The line behind a later line break would start before the position.
      obtain ⟨later, hlater⟩ := mem_iff_getElem?.mp
        (mem_cons_of_mem 0 ((@mem_line_starts text 0 _).mpr ⟨i, hbreak, rfl⟩))
      have hcut := hcuts.lt_iff hlater
      have hafter := value_lt_iff (line_starts_ascend 0 text) hstart hlater
      omega
  · obtain ⟨line, start, hstart, hle, -, heq⟩ := line_column_eq text offset
    obtain ⟨line', start', hstart', hle', -, heq'⟩ := line_column_eq text other
    rw [heq, heq', Prod.mk.injEq, Nat.add_right_cancel_iff, Nat.add_right_cancel_iff] at hsame
    obtain ⟨rfl, hcolumn⟩ := hsame
    cases hstart.symm.trans hstart'
    omega

end FlightProcedure
