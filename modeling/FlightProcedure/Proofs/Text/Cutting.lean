import FlightProcedure.Text.Split

/-!
# Texts put together and cut

What is put together from parts of different kinds, from lines, from a text and white space around it, or
from digits, is cut into its parts again.
-/

namespace FlightProcedure

open List

variable {c d : Char} {text after front rest : List Char} {written : List (List Char)}

theorem letter_bounds (h : c.isAlpha = true) : 0x41 ≤ c.toNat ∧ c.toNat ≤ 0x7a := by
  have hbounds : (decide ('A'.val ≤ c.val ∧ c.val ≤ 'Z'.val) ||
      decide ('a'.val ≤ c.val) && decide (c.val ≤ 'z'.val)) = true := h
  simp only [Bool.or_eq_true, Bool.and_eq_true, decide_eq_true_eq, UInt32.le_iff_toNat_le] at hbounds
  have hcases : 0x41 ≤ c.toNat ∧ c.toNat ≤ 0x5a ∨ 0x61 ≤ c.toNat ∧ c.toNat ≤ 0x7a := hbounds
  omega

theorem ascii_of_alphanum (h : c.isAlphanum = true) : c.toNat < 0x80 := by
  rcases Bool.or_eq_true_iff.mp h with hletter | hdigit
  · have hbounds := letter_bounds hletter
    omega
  · simp only [Char.isDigit, Bool.and_eq_true, decide_eq_true_eq, UInt32.le_iff_toNat_le] at hdigit
    exact Nat.lt_of_le_of_lt hdigit.2 (by decide)

/-- What holds of each ASCII character holds of a character with a code below 128. -/
@[elab_as_elim]
theorem of_ascii {holds : Char → Prop} (hascii : c.toNat < 0x80) (hall : ∀ point < 0x80, holds (Char.ofNat point)) :
    holds c := by
  have hpoint := hall c.toNat hascii
  rwa [Char.ofNat_toNat] at hpoint

theorem take_while_append {p : Char → Bool} (htext : ∀ c ∈ text, p c = true) (hafter : after.head?.any p = false) :
    (text ++ after).takeWhile p = text ∧ (text ++ after).dropWhile p = after := by
  have hnone : after.takeWhile p = [] ∧ after.dropWhile p = after := by
    cases after with
    | nil => simp
    | cons c rest => simp_all
  rw [takeWhile_append_of_pos htext, dropWhile_append_of_pos htext, hnone.1, hnone.2]
  simp

theorem trim_same (hfirst : text = c :: rest) (hc : isBlank c = false) (hlast : text = front ++ [d])
    (hd : isBlank d = false) : trim text = text := by
  have hstart : trimStart text = text := by
    rw [hfirst, trimStart, dropWhile_cons, hc]
    rfl
  rw [trim, hstart, hlast, trimEnd]
  simp [hd]

theorem split_where_append {cut : Char → Bool} {first : List Char} {pieces : List (List Char)}
    (hfront : ∀ c ∈ front, cut c = false) (h : splitWhere cut text = first :: pieces) :
    splitWhere cut (front ++ text) = (front ++ first) :: pieces := by
  induction front with
  | nil => exact h
  | cons c front ih =>
    obtain ⟨hc, hfront⟩ := forall_mem_cons.mp hfront
    simp [splitWhere, hc, ih hfront]

theorem mem_split_where {cut : Char → Bool} {piece : List Char} (hpiece : piece ∈ splitWhere cut text) (hc : c ∈ piece) :
    c ∈ text ∧ cut c = false := by
  induction text generalizing piece with
  | nil =>
    cases mem_singleton.mp hpiece
    cases hc
  | cons d text ih =>
    rw [splitWhere] at hpiece
    split at hpiece
    · grind
    · split at hpiece <;> grind

theorem ne_of_not_mem {mark : Char} (h : mark ∉ text) : ∀ c ∈ text, (c == mark) = false := by
  intro c hc
  simpa using fun heq : c = mark => h (heq ▸ hc)

theorem split_where_mark (mark : Char) (text : List Char) :
    ∃ first rest, splitWhere (· == mark) text = first :: rest ∧ text = first ++ rest.flatMap (mark :: ·) ∧
      ∀ piece ∈ first :: rest, mark ∉ piece := by
  induction text with
  | nil => exact ⟨[], [], rfl, rfl, by simp⟩
  | cons c text ih =>
    obtain ⟨first, rest, hsplit, htext, hpieces⟩ := ih
    by_cases hc : c = mark
    · refine ⟨[], first :: rest, by simp [splitWhere, hsplit, hc], by simp [← htext, hc], ?_⟩
      exact forall_mem_cons.mpr ⟨not_mem_nil, hpieces⟩
    · refine ⟨c :: first, rest, by simp [splitWhere, hsplit, hc], by simp [← htext], ?_⟩
      obtain ⟨hfirst, hrest⟩ := forall_mem_cons.mp hpieces
      exact forall_mem_cons.mpr ⟨by simp [Ne.symm hc, hfirst], hrest⟩

theorem split_where_marks {mark : Char} {first : List Char} {pieces : List (List Char)}
    (h : ∀ piece ∈ first :: pieces, mark ∉ piece) :
    splitWhere (· == mark) (first ++ pieces.flatMap (mark :: ·)) = first :: pieces := by
  induction pieces generalizing first with
  | nil => simpa using split_where_append (ne_of_not_mem (h first (by simp))) (rfl : splitWhere (· == mark) [] = [[]])
  | cons piece pieces ih =>
    obtain ⟨hfirst, hpieces⟩ := forall_mem_cons.mp h
    have hbreak : splitWhere (· == mark) (mark :: (piece ++ pieces.flatMap (mark :: ·))) = [] :: piece :: pieces := by
      simp [splitWhere, ih hpieces]
    simpa using split_where_append (ne_of_not_mem hfirst) hbreak

theorem intercalate_marks {α : Type} (mark : α) (first : List α) (pieces : List (List α)) :
    [mark].intercalate (first :: pieces) = first ++ pieces.flatMap (mark :: ·) := by
  induction pieces generalizing first with
  | nil => simp [intercalate]
  | cons piece pieces ih => simp [intercalate_cons_cons, ih]

theorem split_text_lines (h : ∀ line ∈ written, '\n' ∉ line) :
    splitWhere (· == '\n') (written.flatMap (· ++ ['\n'])) = written ++ [[]] := by
  induction written with
  | nil => rfl
  | cons line written ih =>
    obtain ⟨hline, hwritten⟩ := forall_mem_cons.mp h
    have hbreak : splitWhere (· == '\n') ('\n' :: written.flatMap (· ++ ['\n'])) = [] :: (written ++ [[]]) :=
      congrArg ([] :: ·) (ih hwritten)
    simpa using split_where_append (ne_of_not_mem hline) hbreak

theorem lines_of_text (h : ∀ line ∈ written, '\n' ∉ line ∧ line.getLast? ≠ some '\r') :
    lines (written.flatMap (· ++ ['\n'])) = written := by
  have hsame : written.map dropReturn = written := by
    refine (map_congr_left fun line hline => ?_).trans (map_id written)
    rw [dropReturn, if_neg (h line hline).2]
    rfl
  rw [lines, split_text_lines fun line hline => (h line hline).1, reverse_append]
  simp [hsame]

theorem digits_value (n : Nat) : (∀ c ∈ Nat.toDigits 10 n, c.isDigit = true) ∧
    (Nat.toDigits 10 n).foldl (fun value c => value * 10 + (c.toNat - '0'.toNat)) 0 = n := by
  have hof := @Nat.ofDigitChars_toDigits 10 n (by decide) (by decide)
  exact ⟨fun c hc => Nat.isDigit_of_mem_toDigits (by omega) (by omega) hc,
    by simpa only [Nat.ofDigitChars, Nat.mul_comm] using hof⟩

end FlightProcedure
